import HevFsh.ClientDescriptors

/-! What a client says on its base connection and what it hears there: who it is, its
initialisation vector when there is a key, its own message, and then the relay. -/
namespace HevFsh.ClientTask
open Protocol HostOrder Inet WireFormat PortPolicy PortTarget Transitions

structure View where
  said : Bytes
  up : Bytes
  heard : Bytes
  down : Bytes
  targets : List Target
  tx : List CryptoInfo
  rx : List CryptoInfo

def View.empty : View := ⟨[],[],[],[],[],[],[]⟩

def View.join (v w : View) : View :=
  ⟨v.said ++ w.said,v.up ++ w.up,v.heard ++ w.heard,v.down ++ w.down,v.targets ++ w.targets,
      v.tx ++ w.tx,v.rx ++ w.rx⟩

def View.saying (bytes : Bytes) : View := {View.empty with said := bytes}

def View.hearing (bytes : Bytes) : View := {View.empty with heard := bytes}

def View.relaying (up down : Bytes) : View := {View.empty with said := up, up := up, heard := down, down := down}

def Event.view (i : Nat) : Event → View
  | .sent j _ bytes => if j = i then .saying bytes else .empty
  | .received j bytes => if j = i then .hearing bytes else .empty
  | .relayed j toBase _ data =>
      if j = i then (if toBase then .relaying data [] else .relaying [] data) else .empty
  | .dialled j target => if j = i then {View.empty with targets := [target]} else .empty
  | .tx j ci => if j = i then {View.empty with tx := [ci]} else .empty
  | .rx j ci => if j = i then {View.empty with rx := [ci]} else .empty
  | .descriptor _ | .connected _ _ => .empty

def viewOf (i : Nat) (es : List Event) : View := es.foldr (fun e v => (e.view i).join v) .empty

def view (i : Nat) (log : Log Process Event) : View := viewOf i (log.map Prod.snd)

section views
variable {i : Nat} {u v w : View}

@[simp] theorem emptyJoin : View.join .empty v = v := rfl

@[simp] theorem joinEmpty : v.join .empty = v := by
  simp [View.join,View.empty]

theorem joinAssoc : (u.join v).join w = u.join (v.join w) := by
  simp [View.join,List.append_assoc]

theorem viewOfAppend (es es' : List Event) : viewOf i (es ++ es') = (viewOf i es).join (viewOf i es') := by
  induction es with
  | nil => rfl
  | cons e es ih =>
    show (e.view i).join (viewOf i (es ++ es')) = ((e.view i).join (viewOf i es)).join (viewOf i es')
    rw [ih,joinAssoc]

theorem viewNext {log : Log Process Event} {es : List Event} {σ : Process} :
    view i (log ++ es.map (σ,·)) = (view i log).join (viewOf i es) := by
  rw [view,List.map_append,viewOfAppend]
  simp [view,Function.comp_def]

theorem sayingMore (bytes bytes' : Bytes) : (View.saying bytes).join (.saying bytes') = .saying (bytes ++ bytes') := rfl

theorem relayingMore (up down up' down' : Bytes) :
    (View.relaying up down).join (.relaying up' down') = .relaying (up ++ up') (down ++ down') := rfl

theorem viewOne (e : Event) : viewOf i [e] = e.view i := joinEmpty

end views

def Kind.connects : Kind → Bool
  | .portConnect | .sockConnect | .termConnect => true
  | _ => false

def Kind.accepts : Kind → Bool
  | .portAccept | .sockAccept | .termAccept => true
  | _ => false

inductive Request (h : Host) (k : Kind) (own : Token) : Bytes → Prop where
  | connect {t : Token} (kind : k.connects = true) (token : h.token = some t) :
      Request h k own (message 1 .connect t.bytes)
  | accept (kind : k.accepts = true) : Request h k own (message 1 .accept own.bytes)

inductive Sealed (h : Host) : Bytes → List CryptoInfo → Prop where
  | plain (none' : h.key = none) : Sealed h [] []
  | keyed {iv key} (agreed : h.key = some key) (size : iv.length = 8) : Sealed h iv [cryptoInfo key iv]

inductive Met (h : Host) (k : Kind) (own : Token) : View → Prop where
  | both {req iv iv' tx rx} (request : Request h k own req) (sent : Sealed h iv tx) (got : Sealed h iv' rx) :
      Met h k own {View.empty with said := req ++ iv, heard := iv', tx := tx, rx := rx}

inductive Info (h : Host) (k : Kind) : Bytes → Prop where
  | port (kind : k = .portConnect) : Info h k (portConnect h.inetPton h.order h.config)
  | term {window : TermInfo} (kind : k = .termConnect) : Info h k (window.store h.order)

inductive Told (h : Host) (k : Kind) : View → Prop where
  | port {info target} (kind : k = .portAccept) (size : info.length = 19)
      (allowed : portAccept h.order h.config.addrList info = some target) :
      Told h k {View.hearing info with targets := [target]}

inductive Before (h : Host) (k : Kind) : View → Prop where
  | info {info} (is : Info h k info) : Before h k (.saying info)
  | told {v} (is : Told h k v) : Before h k v
  | shell {info} (kind : k = .termAccept) : Before h k (.hearing info)
  | sock (kind : k = .sockConnect) : Before h k .empty

inductive Whole (h : Host) (k : Kind) (own : Token) : Bytes → Prop where
  | full {req iv tx info} (request : Request h k own req) (sent : Sealed h iv tx) (is : Info h k info) :
      Whole h k own (req ++ iv ++ info)
  | plain {req iv tx} (request : Request h k own req) (sent : Sealed h iv tx)
      (kind : k = .sockConnect ∨ k.accepts = true) : Whole h k own (req ++ iv)

inductive Planned (h : Host) (k : Kind) (own : Token) : Bytes → Prop where
  | whole {bytes} (is : Whole h k own bytes) : Planned h k own bytes
  | noToken (kind : k.connects = true) (none' : h.token = none) : Planned h k own (message 1 .connect [])

structure Spoke (h : Host) (k : Kind) (own : Token) (v : View) : Prop where
  said : (v.up = [] ∧ ∃ planned, Planned h k own planned ∧ v.said <+: planned) ∨
    ∃ whole, Whole h k own whole ∧ v.said = whole ++ v.up
  tx : ∀ ci ∈ v.tx, ∃ req iv key, Request h k own req ∧ h.key = some key ∧
    iv.length = 8 ∧ ci = cryptoInfo key iv ∧
    req ++ iv <+: v.said
  rx : ∀ ci ∈ v.rx, ∃ iv key, h.key = some key ∧ iv.length = 8 ∧ ci = cryptoInfo key iv ∧ iv <+: v.heard
  targets : ∀ t ∈ v.targets, k = .portAccept ∧ ∃ iv rx info, Sealed h iv rx ∧ info.length = 19 ∧
    portAccept h.order h.config.addrList info = some t ∧ v.heard = iv ++ info ++ v.down
  down : k.connects = true → v.down = [] ∨ ∃ iv rx, Sealed h iv rx ∧ v.heard = iv ++ v.down

def Stands (h : Host) (c : Client) (v : View) : Prop := match c.pc with
  | .absent | .ready | .accepting => v = .empty
  | .connecting _ => v = .empty ∧ c.kind.listener = false
  | .sendMessage n => c.kind.connects = true ∧ v = .saying ((message 1 .connect []).take n)
  | .sendToken t n =>
      c.kind.connects = true ∧ h.token = some t ∧ v = .saying (message 1 .connect (t.bytes.take n))
  | .sendAccept n => c.kind.accepts = true ∧ v = .saying ((message 1 .accept c.token.bytes).take n)
  | .sendIv iv n => iv.length = 8 ∧ h.key.isSome = true ∧
      ∃ req, Request h c.kind c.token req ∧ v = .saying (req ++ iv.take n)
  | .recvIv => ∃ req iv key, Request h c.kind c.token req ∧ h.key = some key ∧ iv.length = 8 ∧
      v = {View.saying (req ++ iv) with tx := [cryptoInfo key iv]}
  | .sendInfo info n => Info h c.kind info ∧ ∃ met, Met h c.kind c.token met ∧ v = met.join (.saying
      (info.take n))
  | .recvInfo => (c.kind = .portAccept ∨ c.kind = .termAccept) ∧ Met h c.kind c.token v
  | .dialing _ => ∃ met told, Met h c.kind c.token met ∧ Told h c.kind told ∧ v = met.join told
  | .relay _ _ _ => ∃ met before up down, Met h c.kind c.token met ∧ Before h c.kind before ∧
      v = (met.join before).join (.relaying up down)
  | .serving => c.kind = .sockAccept ∧ Met h c.kind c.token v
  | .ended => v = .empty ∨ Spoke h c.kind c.token v

def Pc.mute : Pc → Bool
  | .absent | .ready | .connecting _ | .accepting => true
  | _ => false

inductive Turns (h : Host) (σ : Process) (j : Nat) : Action → Client → View → Prop where
  | rests {a} : Turns h σ j a (σ.client j) .empty
  | quiet {a c} (pc : (σ.client j).pc.mute = true) (next : c.pc.mute = true)
      (client : (∃ fd, c.pc = .connecting fd) → c.kind.listener = false) : Turns h σ j a c .empty
  | leaves {a es} (runs : (σ.client j).pc.runs = true) (hears : Hears h σ j es) :
      Turns h σ j a {σ.client j with pc := .ended} (viewOf j es)
  | connected {a fd pc} (here : (σ.client j).pc = .connecting fd)
      (next : pc = if (σ.client j).kind.connects then Pc.sendMessage 0 else .sendAccept 0) :
      Turns h σ j a {σ.client j with baseFd := fd, pc := pc} .empty
  | reached {a lfd} (pc : (σ.client j).pc = .dialing lfd) :
      Turns h σ j a {σ.client j with pc := .relay lfd lfd (some lfd)} .empty
  | sends {n bytes sent} (piece : (σ.client j).piece = some (bytes,sent)) (room : sent + n ≤ bytes.length) :
      Turns h σ j (.send j n) {σ.client j with pc := (σ.client j).pc.advance n} (.saying ((bytes.drop sent).take n))
  | speaks {a pc es} (spoken : Speaks h σ j a pc es) : Turns h σ j a {σ.client j with pc := pc} (viewOf j es)
  | gives {a es} (ready : Encrypted h σ j a es) (kind : (σ.client j).kind = .sockAccept) :
      Turns h σ j a {σ.client j with baseFd := -1, pc := .serving} (viewOf j es)
  | dials {a lfd info target} (pc : (σ.client j).pc = .recvInfo) (kind : (σ.client j).kind = .portAccept)
      (size : info.length = 19) (allowed : portAccept h.order h.config.addrList info = some target) :
      Turns h σ j a {σ.client j with pc := .dialing lfd} {View.hearing info with targets := [target]}
  | shell {a pfd info} (pc : (σ.client j).pc = .recvInfo) (kind : (σ.client j).kind = .termAccept) :
      Turns h σ j a {σ.client j with pc := .relay pfd pfd (some pfd)} (.hearing info)
  | relays {a ifd ofd own} (up down : Bytes) (pc : (σ.client j).pc = .relay ifd ofd own) :
      Turns h σ j a (σ.client j) (.relaying up down)

section turns
variable {h : Host} {σ : Process} {i j : Nat} {a : Action} {out : Out} {es : List Event}

theorem hearsOther (hears : Hears h σ i es) (other : j ≠ i) : viewOf j es = .empty := by
  cases hears <;> simp [viewOf,Event.view,Ne.symm other]

theorem encryptedOther (ready : Encrypted h σ i a es) (other : j ≠ i) : viewOf j es = .empty :=
  hearsOther (encryptedHears ready) other

theorem speaksOther {pc : Pc} (spoken : Speaks h σ i a pc es) (other : j ≠ i) : viewOf j es = .empty := by
  cases spoken with
  | sealed pc positive agreed => simp [viewOf,Event.view,Ne.symm other]
  | begins ready next => exact encryptedOther ready other
  | _ => rfl

theorem turnsOther (client : out.1.client j = σ.client j) (view : viewOf j out.2 = .empty) :
    Turns h σ j a (out.1.client j) (viewOf j out.2) := by
  rw [client,view]
  exact .rests

theorem closeView {fd : Int} : viewOf j (close i fd out).2 = viewOf j out.2 := by
  rw [close,viewOfAppend,viewOne]
  exact joinEmpty

theorem closeValidView {fd : Int} : viewOf j (closeValid i fd out).2 = viewOf j out.2 := by
  unfold closeValid
  split
  · exact closeView
  · rfl

theorem unrefView : viewOf j (unref i out).2 = viewOf j out.2 := by
  simp only [unref,closeValidView]

theorem turnsLeaves (client : out.1.client = σ.client) (runs : (σ.client i).pc.runs = true)
    (hears : Hears h σ i es) (view : ∀ j, viewOf j out.2 = viewOf j es) :
    Turns h σ j a ((unref i out).1.client j) (viewOf j (unref i out).2) := by
  rw [unrefView,view,unrefClient,client]
  by_cases mine : j = i
  · subst mine
    rw [Function.update_self]
    exact .leaves runs hears
  · rw [Function.update_of_ne mine,hearsOther hears mine]
    exact .rests

theorem turnsOne {c : Client} (client : out.1.client = Function.update σ.client i c)
    (mine : Turns h σ i a c (viewOf i out.2)) (quiet : ∀ j, j ≠ i → viewOf j out.2 = .empty) (j : Nat) :
    Turns h σ j a (out.1.client j) (viewOf j out.2) := by
  by_cases same : j = i
  · subst same
    rw [client,Function.update_self]
    exact mine
  · exact turnsOther (by rw [client,Function.update_of_ne same]) (quiet j same)

theorem turnsGoes (shaped : Shaped σ) (goes : Goes h σ a out) (j : Nat) :
    Turns h σ j a (out.1.client j) (viewOf j out.2) := by
  have absent := shaped.fresh σ.count (Nat.le_refl _)
  cases goes with
  | @spawns kind token top =>
    exact turnsOne (i := σ.count) rfl (.quiet (by rw [absent]; rfl) rfl (by rintro ⟨_,is⟩; contradiction))
      (fun _ _ => rfl) j
  | @leaves a i es runs alone hears => exact turnsLeaves rfl runs hears (fun _ => rfl)
  | @fails a i fd pc valid free =>
    exact turnsLeaves rfl (by simp [pc,Pc.runs]) .nothing (fun _ => closeView)
  | @connecting a i fd pc client valid free =>
    have mute : (σ.client i).pc.mute = true := by simp [pc,Pc.mute]
    exact turnsOne (i := i) rfl (.quiet (c := {σ.client i with pc := .connecting fd}) mute rfl (fun _ => client))
      (fun _ _ => rfl) j
  | @listening a i fd pc listens valid free =>
    exact turnsOne (i := i) rfl (.quiet (by simp [pc,Pc.mute]) rfl (by rintro ⟨_,is⟩; contradiction))
        (fun _ _ => rfl) j
  | @loses a i fd extra => exact turnsLeaves rfl (extraRuns extra) .nothing (fun _ => closeView)
  | @connected a i fd pc here next =>
    refine turnsOne (i := i) rfl (.connected here ?_) (fun _ _ => rfl) j
    rw [next]
    cases (σ.client i).kind <;> rfl
  | @reached a i lfd pc => exact turnsOne (i := i) rfl (.reached pc) (fun _ _ => rfl) j
  | @sends i n bytes sent k piece positive room valid =>
    refine turnsOne (i := i) rfl ?_ (fun j other => by simp [viewOf,Event.view,Ne.symm other]) j
    simpa [viewOf,Event.view] using Turns.sends piece room
  | @speaks a i pc es spoken =>
    exact turnsOne (i := i) rfl (.speaks spoken) (fun j other => speaksOther spoken other) j
  | @gives a i es ready kind =>
    have same : ∀ j, viewOf j (es ++ [.descriptor
        (.given i (σ.client i).baseFd (σ.table.fds (σ.client i).baseFd))]) =
        viewOf j es := by
      intro j
      rw [viewOfAppend,viewOne]
      exact joinEmpty
    refine turnsOne (i := i) rfl ?_ (fun j other => (same j).trans (encryptedOther ready other)) j
    rw [same]
    exact .gives ready kind
  | @dials a i lfd info target pc kind size allowed valid free =>
    refine turnsOne (i := i) rfl ?_ (fun j other => by simp [viewOf,Event.view,acquire,Ne.symm other]) j
    have is : viewOf i (.received i info :: .dialled i target :: (acquire σ i lfd).2) =
        {View.hearing info with targets := [target]} := by
      simp [viewOf,Event.view,acquire,View.join,View.hearing,View.empty]
    rw [is]
    exact .dials pc kind size allowed
  | @shell a i pfd info pc kind valid free =>
    refine turnsOne (i := i) rfl ?_ (fun j other => by simp [viewOf,Event.view,acquire,Ne.symm other]) j
    have is : viewOf i (.received i info :: (acquire σ i pfd).2) = .hearing info := by
      simp [viewOf,Event.view,acquire]
    rw [is]
    exact .shell pc kind
  | @noShell a i pfd info pc kind valid free =>
    have hears : Hears h σ i [.received i info] := .refused (.inr pc)
    refine turnsLeaves rfl (by simp [pc,Pc.runs]) hears (fun j => ?_)
    rw [closeView]
    simp [viewOf,Event.view,acquire]
  | @relays a i ifd ofd own k data toBase pc valid =>
    by_cases mine : j = i
    · subst mine
      rw [viewOne]
      cases toBase with
      | true => simpa [Event.view] using Turns.relays (h := h) (a := a) data [] pc
      | false => simpa [Event.view] using Turns.relays (h := h) (a := a) [] data pc
    · exact turnsOther rfl (by simp [viewOf,Event.view,Ne.symm mine])
  | @accepts a i fd pc valid free =>
    exact turnsOne (i := σ.count) rfl (.quiet (by rw [absent]; rfl) rfl (by rintro ⟨_,is⟩; contradiction))
      (fun _ _ => rfl) j
  | @drops a i fd pc valid free => exact turnsOther rfl rfl
  | opens valid free => exact turnsOther rfl rfl
  | closes on => exact turnsOther rfl rfl

end turns

section spoken
variable {h : Host} {k : Kind} {own : Token} {v met w : View} {req iv iv' : Bytes} {tx rx : List CryptoInfo}

theorem sealedSome (h : Host) : ∃ iv tx, Sealed h iv tx := by
  cases key : h.key with
  | none => exact ⟨_,_,.plain key⟩
  | some k => exact ⟨List.replicate 8 0,_,.keyed key rfl⟩

theorem requestKind (request : Request h k own req) : k.connects = true ∨ k.accepts = true := by
  cases request with
  | connect kind token => exact .inl kind
  | accept kind => exact .inr kind

theorem wholeSealed (request : Request h k own req) (sent : Sealed h iv tx) :
    ∃ rest, Whole h k own (req ++ iv ++ rest) := by
  have plain : k = .sockConnect ∨ k.accepts = true → ∃ rest, Whole h k own (req ++ iv ++ rest) :=
    fun kind => ⟨[],by rw [List.append_nil]; exact .plain request sent kind⟩
  rcases requestKind request with kind | kind
  · have which : k = .portConnect ∨ k = .sockConnect ∨ k = .termConnect := by
      cases k <;> first | decide | contradiction
    rcases which with is | is | is
    · exact ⟨_,.full request sent (.port is)⟩
    · exact plain (.inl is)
    · exact ⟨_,.full request sent (@Info.term _ _ ⟨0,0⟩ is)⟩
  · exact plain (.inr kind)

theorem wholeRequest (request : Request h k own req) : ∃ rest, Whole h k own (req ++ rest) := by
  obtain ⟨iv,tx,sent⟩ := sealedSome h
  obtain ⟨rest,whole⟩ := wholeSealed request sent
  exact ⟨iv ++ rest,by rwa [← List.append_assoc]⟩

theorem plannedHeader (kind : k.connects = true) : ∃ rest, Planned h k own (message 1 .connect [] ++ rest) := by
  cases token : h.token with
  | none => exact ⟨[],by rw [List.append_nil]; exact .noToken kind token⟩
  | some t =>
    obtain ⟨rest,whole⟩ := wholeRequest (.connect (h := h) kind token)
    exact ⟨t.bytes ++ rest,.whole whole⟩

theorem spokeSaying {said : Bytes} (begun : ∃ planned, Planned h k own planned ∧ said <+: planned) :
    Spoke h k own (.saying said) where
  said := .inl ⟨rfl,begun⟩
  tx ci mem := by simp [View.saying,View.empty] at mem
  rx ci mem := by simp [View.saying,View.empty] at mem
  targets t mem := by simp [View.saying,View.empty] at mem
  down _ := .inl rfl

theorem spokeSent {key : Key} (bytes : Bytes) (rx : List CryptoInfo) (request : Request h k own req)
    (agreed : h.key = some key) (size : iv.length = 8)
    (got : ∀ ci ∈ rx, ∃ iv key, h.key = some key ∧ iv.length = 8 ∧ ci = cryptoInfo key iv ∧ iv <+: bytes) :
    Spoke h k own {View.empty with said := req ++ iv, heard := bytes, tx := [cryptoInfo key iv], rx := rx} where
  said := by
    obtain ⟨rest,whole⟩ := wholeSealed request (.keyed agreed size)
    exact .inl ⟨rfl,_,.whole whole,List.prefix_append _ _⟩
  tx ci mem := ⟨req,iv,key,request,agreed,size,List.mem_singleton.mp mem,List.prefix_rfl⟩
  rx := got
  targets t mem := by simp [View.empty] at mem
  down _ := .inl rfl

structure Rest (h : Host) (k : Kind) (own : Token) (w : View) : Prop where
  sealed : w.tx = [] ∧ w.rx = []
  said : ∀ req iv tx, Request h k own req → Sealed h iv tx → ∃ rest, Whole h k own (req ++ iv ++ rest) ∧
    (w.up = [] ∧ w.said <+: rest ∨ w.said = rest ++ w.up)
  targets : ∀ t ∈ w.targets, k = .portAccept ∧ ∃ info, info.length = 19 ∧
    portAccept h.order h.config.addrList info = some t ∧ w.heard = info ++ w.down
  down : k.connects = true → w.down = [] ∨ w.heard = w.down

theorem spokeMet (met : Met h k own v) (rest : Rest h k own w) : Spoke h k own (v.join w) := by
  obtain ⟨noTx,noRx⟩ := rest.sealed
  cases met with
  | @both req iv iv' tx rx request sent got =>
    refine ⟨?_,?_,?_,?_,?_⟩
    · obtain ⟨rest,whole,said⟩ := rest.said req iv tx request sent
      rcases said with ⟨none',front⟩ | all
      · exact .inl ⟨none',_,.whole whole,(List.prefix_append_right_inj _).mpr front⟩
      · exact .inr ⟨_,whole,by simp [View.join,View.empty,all]⟩
    · intro ci mem
      replace mem : ci ∈ tx := by simpa [View.join,View.empty,noTx] using mem
      cases sent with
      | plain none' => simp at mem
      | keyed agreed size =>
        exact ⟨req,iv,_,request,agreed,size,List.mem_singleton.mp mem,List.prefix_append _ _⟩
    · intro ci mem
      replace mem : ci ∈ rx := by simpa [View.join,View.empty,noRx] using mem
      cases got with
      | plain none' => simp at mem
      | keyed agreed size => exact ⟨iv',_,agreed,size,List.mem_singleton.mp mem,List.prefix_append _ _⟩
    · intro t mem
      obtain ⟨kind,info,size,allowed,heard⟩ := rest.targets t (by simpa [View.join,View.empty] using mem)
      exact ⟨kind,iv',rx,info,got,size,allowed,by simp [View.join,View.empty,heard]⟩
    · intro kind
      rcases rest.down kind with none' | all
      · exact .inl (by simpa [View.join,View.empty] using none')
      · exact .inr ⟨iv',rx,got,by simp [View.join,View.empty,all]⟩

theorem restHearing (bytes : Bytes) : Rest h k own (.hearing bytes) where
  sealed := ⟨rfl,rfl⟩
  said req iv tx request sent := by
    obtain ⟨rest,whole⟩ := wholeSealed request sent
    exact ⟨rest,whole,.inl ⟨rfl,List.nil_prefix⟩⟩
  targets t mem := by simp [View.hearing,View.empty] at mem
  down _ := .inl rfl

theorem restInfo {info : Bytes} (is : Info h k info) (n : Nat) : Rest h k own (.saying (info.take n)) where
  sealed := ⟨rfl,rfl⟩
  said req iv tx request sent := ⟨info,.full request sent is,.inl ⟨rfl,List.take_prefix n info⟩⟩
  targets t mem := by simp [View.saying,View.empty] at mem
  down _ := .inl rfl

theorem restTold (told : Told h k w) : Rest h k own w := by
  cases told with
  | @port info target kind size allowed =>
    refine ⟨⟨rfl,rfl⟩,?_,?_,fun _ => .inl rfl⟩
    · intro req iv tx request sent
      obtain ⟨rest,whole⟩ := wholeSealed request sent
      exact ⟨rest,whole,.inl ⟨rfl,List.nil_prefix⟩⟩
    · intro t mem
      cases List.mem_singleton.mp mem
      exact ⟨kind,info,size,allowed,(List.append_nil _).symm⟩

theorem restRelay {before : View} (is : Before h k before) (up down : Bytes) :
    Rest h k own (before.join (.relaying up down)) := by
  cases is with
  | @info info is =>
    refine ⟨⟨rfl,rfl⟩,fun req iv tx request sent => ⟨info,.full request sent is,.inr rfl⟩,
        ?_,fun _ => .inr rfl⟩
    intro t mem
    simp [View.join,View.saying,View.relaying,View.empty] at mem
  | told is =>
    cases is with
    | @port info target kind size allowed =>
      refine ⟨⟨rfl,rfl⟩,?_,?_,?_⟩
      · intro req iv tx request sent
        exact ⟨[],by rw [List.append_nil]; exact .plain request sent (.inr (by rw [kind]; rfl)),.inr rfl⟩
      · intro t mem
        cases List.mem_singleton.mp mem
        exact ⟨kind,info,size,allowed,rfl⟩
      · intro connects
        rw [kind] at connects
        contradiction
  | @shell info kind =>
    refine ⟨⟨rfl,rfl⟩,?_,?_,?_⟩
    · intro req iv tx request sent
      exact ⟨[],by rw [List.append_nil]; exact .plain request sent (.inr (by rw [kind]; rfl)),.inr rfl⟩
    · intro t mem
      simp [View.join,View.hearing,View.relaying,View.empty] at mem
    · intro connects
      rw [kind] at connects
      contradiction
  | sock kind =>
    refine ⟨⟨rfl,rfl⟩,?_,?_,fun _ => .inr rfl⟩
    · intro req iv tx request sent
      exact ⟨[],by rw [List.append_nil]; exact .plain request sent (.inl kind),.inr rfl⟩
    · intro t mem
      rw [emptyJoin] at mem
      simp [View.relaying,View.empty] at mem

theorem standsSpoke {c : Client} (stands : Stands h c v) : v = .empty ∨ Spoke h c.kind c.token v := by
  have front : ∀ {req rest said : Bytes}, said <+: req → Planned h c.kind c.token (req ++ rest) →
      ∃ planned, Planned h c.kind c.token planned ∧ said <+: planned :=
    fun front planned => ⟨_,planned,front.trans (List.prefix_append _ _)⟩
  unfold Stands at stands
  cases pc : c.pc <;> simp only [pc] at stands
  case connecting fd => exact .inl stands.1
  case sendMessage n =>
    obtain ⟨kind,rfl⟩ := stands
    obtain ⟨rest,planned⟩ := plannedHeader (h := h) kind
    exact .inr (spokeSaying (front (List.take_prefix _ _) planned))
  case sendToken t n =>
    obtain ⟨kind,token,rfl⟩ := stands
    obtain ⟨rest,whole⟩ := wholeRequest (.connect (h := h) kind token)
    have shorter : message 1 .connect (t.bytes.take n) <+: message 1 .connect t.bytes :=
      (List.prefix_append_right_inj [1,Command.connect.code]).mpr (List.take_prefix _ _)
    exact .inr (spokeSaying (front shorter (.whole whole)))
  case sendAccept n =>
    obtain ⟨kind,rfl⟩ := stands
    obtain ⟨rest,whole⟩ := wholeRequest (.accept (h := h) kind)
    exact .inr (spokeSaying (front (List.take_prefix _ _) (.whole whole)))
  case sendIv iv n =>
    obtain ⟨size,keyed,req,request,rfl⟩ := stands
    obtain ⟨key,agreed⟩ := Option.isSome_iff_exists.mp keyed
    obtain ⟨rest,whole⟩ := wholeSealed request (.keyed agreed size)
    exact .inr (spokeSaying (front ((List.prefix_append_right_inj req).mpr (List.take_prefix n iv)) (.whole whole)))
  case recvIv =>
    obtain ⟨req,iv,key,request,agreed,size,rfl⟩ := stands
    exact .inr (spokeSent [] [] request agreed size (by simp))
  case sendInfo info n =>
    obtain ⟨is,met,both,rfl⟩ := stands
    exact .inr (spokeMet both (restInfo is n))
  case recvInfo =>
    have alone := spokeMet stands.2 (restHearing [])
    rw [show View.hearing [] = .empty from rfl,joinEmpty] at alone
    exact .inr alone
  case dialing lfd =>
    obtain ⟨met,told,both,is,rfl⟩ := stands
    exact .inr (spokeMet both (restTold is))
  case relay ifd ofd own =>
    obtain ⟨met,before,up,down,both,is,rfl⟩ := stands
    rw [joinAssoc]
    exact .inr (spokeMet both (restRelay is up down))
  case serving =>
    have alone := spokeMet stands.2 (restHearing [])
    rw [show View.hearing [] = .empty from rfl,joinEmpty] at alone
    exact .inr alone
  case ended => exact stands
  all_goals exact .inl stands

end spoken

def SentWhole (σ : Process) : Action → Prop
  | .sendReturn i res _ => match (σ.client i).piece with
      | some (bytes,sent) => 0 < res → sent = bytes.length
      | none => True
  | _ => True

instance (σ : Process) (a : Action) : Decidable (SentWhole σ a) := by
  unfold SentWhole
  split
  · split <;> infer_instance
  · infer_instance

section stands
variable {h : Host} {σ : Process} {j : Nat} {a : Action} {es : List Event} {c : Client} {v w : View}

theorem sentWhole {res : Int} {r : Results} {bytes : Bytes} {sent : Nat} (complete : SentWhole σ (.sendReturn j res r))
    (positive : 0 < res) (piece : (σ.client j).piece = some (bytes,sent)) : sent = bytes.length := by
  simp only [SentWhole,piece] at complete
  exact complete positive

theorem takeOn (l : Bytes) (sent n : Nat) : l.take sent ++ (l.drop sent).take n = l.take (sent + n) :=
  List.take_add.symm

theorem requestOut {res : Int} {r : Results} (complete : SentWhole σ (.sendReturn j res r)) (positive : 0 < res)
    (pc : (∃ t n, (σ.client j).pc = .sendToken t n) ∨ ∃ n, (σ.client j).pc = .sendAccept n)
    (stands : Stands h (σ.client j) v) :
    ∃ req, Request h (σ.client j).kind (σ.client j).token req ∧ v = .saying req := by
  rcases pc with ⟨t,n,pc⟩ | ⟨n,pc⟩
  · have piece : (σ.client j).piece = some (t.bytes,n) := by simp only [Client.piece,pc]
    have all := sentWhole complete positive piece
    simp only [Stands,pc] at stands
    obtain ⟨kind,token,rfl⟩ := stands
    rw [all,List.take_length]
    exact ⟨_,.connect kind token,rfl⟩
  · have piece : (σ.client j).piece = some (message 1 .accept (σ.client j).token.bytes,n) := by
      simp only [Client.piece,pc]
    have all := sentWhole complete positive piece
    simp only [Stands,pc] at stands
    obtain ⟨kind,rfl⟩ := stands
    rw [all,List.take_length]
    exact ⟨_,.accept kind,rfl⟩

theorem encryptedMet (complete : SentWhole σ a) (ready : Encrypted h σ j a es) (stands : Stands h (σ.client j) v) :
    Met h (σ.client j).kind (σ.client j).token (v.join (viewOf j es)) := by
  cases ready with
  | plain pc positive open' =>
    obtain ⟨req,request,rfl⟩ := requestOut complete positive pc stands
    have both := Met.both request (.plain open') (.plain open')
    rw [List.append_nil] at both
    rw [show viewOf j [] = .empty from rfl,joinEmpty]
    exact both
  | keyed pc size agreed =>
    simp only [Stands,pc] at stands
    obtain ⟨req,iv,key,request,agreed',size',rfl⟩ := stands
    have both := Met.both request (.keyed agreed' size') (.keyed agreed size)
    simpa [viewOf,Event.view,View.join,View.saying,View.hearing,View.empty] using both

theorem standsSends {n : Nat} {bytes : Bytes} {sent : Nat} (piece : (σ.client j).piece = some (bytes,sent))
    (stands : Stands h (σ.client j) v) :
    Stands h {σ.client j with pc := (σ.client j).pc.advance n} (v.join (.saying ((bytes.drop sent).take n))) := by
  cases pc : (σ.client j).pc <;> simp only [Client.piece,pc] at piece <;> try contradiction
  all_goals cases Option.some.inj piece
  all_goals simp only [Stands,pc] at stands
  case sendMessage =>
    obtain ⟨kind,rfl⟩ := stands
    exact ⟨kind,by rw [sayingMore,takeOn]⟩
  case sendToken t =>
    obtain ⟨kind,token,rfl⟩ := stands
    refine ⟨kind,token,?_⟩
    rw [sayingMore,← takeOn]
    rfl
  case sendAccept =>
    obtain ⟨kind,rfl⟩ := stands
    exact ⟨kind,by rw [sayingMore,takeOn]⟩
  case sendIv =>
    obtain ⟨size,keyed,req,request,rfl⟩ := stands
    exact ⟨size,keyed,req,request,by rw [sayingMore,List.append_assoc,takeOn]⟩
  case sendInfo =>
    obtain ⟨is,met,both,rfl⟩ := stands
    exact ⟨is,met,both,by rw [joinAssoc,sayingMore,takeOn]⟩

theorem standsLeaves (hears : Hears h σ j es) (stands : Stands h (σ.client j) v) :
    Stands h {σ.client j with pc := .ended} (v.join (viewOf j es)) := by
  have sealedBefore : (σ.client j).pc = .recvIv → ∃ req iv key,
      Request h (σ.client j).kind (σ.client j).token req ∧ h.key = some key ∧ iv.length = 8 ∧
        v = {View.saying (req ++ iv) with tx := [cryptoInfo key iv]} := by
    intro pc
    simpa only [Stands,pc] using stands
  cases hears with
  | nothing =>
    rw [show viewOf j [] = .empty from rfl,joinEmpty]
    have spoke := standsSpoke stands
    exact spoke
  | @refused bytes pc =>
    have is : viewOf j [.received j bytes] = .hearing bytes := by simp [viewOf,Event.view]
    rw [is]
    rcases pc with pc | pc
    · obtain ⟨req,iv,key,request,agreed,size,rfl⟩ := sealedBefore pc
      have spoke := spokeSent bytes [] request agreed size (by simp)
      refine .inr ?_
      simpa [View.join,View.saying,View.hearing,View.empty] using spoke
    · simp only [Stands,pc] at stands
      exact .inr (spokeMet stands.2 (restHearing bytes))
  | @keyed iv' key' pc size' agreed' =>
    obtain ⟨req,iv,key,request,agreed,size,rfl⟩ := sealedBefore pc
    have spoke := spokeSent iv' [cryptoInfo key' iv'] request agreed size (fun ci mem =>
      ⟨iv',key',agreed',size',List.mem_singleton.mp mem,List.prefix_rfl⟩)
    refine .inr ?_
    simpa [viewOf,Event.view,View.join,View.saying,View.hearing,View.empty] using spoke

theorem standsBegins {pc : Pc} (next : Begins h (σ.client j) pc)
    (met : Met h (σ.client j).kind (σ.client j).token v) : Stands h {σ.client j with pc := pc} v := by
  cases next with
  | port kind => exact ⟨.port kind,v,met,joinEmpty.symm⟩
  | term kind => exact ⟨.term kind,v,met,joinEmpty.symm⟩
  | sock kind => exact ⟨v,.empty,[],[],met,.sock kind,by rw [joinEmpty]; exact joinEmpty.symm⟩
  | accept kind => exact ⟨kind,met⟩

theorem standsSpeaks {pc : Pc} (complete : SentWhole σ a) (spoken : Speaks h σ j a pc es)
    (stands : Stands h (σ.client j) v) : Stands h {σ.client j with pc := pc} (v.join (viewOf j es)) := by
  cases spoken with
  | @token n res r t pc positive token =>
    have piece : (σ.client j).piece = some (message 1 .connect [],n) := by simp only [Client.piece,pc]
    have all := sentWhole complete positive piece
    simp only [Stands,pc] at stands
    obtain ⟨kind,rfl⟩ := stands
    refine ⟨kind,token,?_⟩
    rw [all,List.take_length]
    exact joinEmpty
  | @seals res r iv key pc positive agreed size =>
    obtain ⟨req,request,rfl⟩ := requestOut complete positive pc stands
    exact ⟨size,by rw [agreed]; rfl,req,request,by simp [viewOf,View.join,View.saying,View.empty]⟩
  | @sealed iv n res r key pc positive agreed =>
    have piece : (σ.client j).piece = some (iv,n) := by simp only [Client.piece,pc]
    have all := sentWhole complete positive piece
    simp only [Stands,pc] at stands
    obtain ⟨size,keyed,req,request,rfl⟩ := stands
    refine ⟨req,iv,key,request,agreed,size,?_⟩
    rw [all,List.take_length]
    simp [viewOf,Event.view,View.join,View.saying,View.empty]
  | begins ready next => exact standsBegins next (encryptedMet complete ready stands)
  | @informed info n res r pc positive =>
    have piece : (σ.client j).piece = some (info,n) := by simp only [Client.piece,pc]
    have all := sentWhole complete positive piece
    simp only [Stands,pc] at stands
    obtain ⟨is,met,both,rfl⟩ := stands
    refine ⟨met,_,[],[],both,.info is,?_⟩
    rw [all,List.take_length]
    rfl

theorem standsTurns (complete : SentWhole σ a) (turns : Turns h σ j a c w) (stands : Stands h (σ.client j) v) :
    Stands h c (v.join w) := by
  cases turns with
  | rests => rwa [joinEmpty]
  | quiet pc next client =>
    have none' : v = .empty := by
      cases place : (σ.client j).pc <;> simp_all [Stands,Pc.mute]
    subst none'
    rw [joinEmpty]
    cases place : c.pc <;> simp_all [Stands,Pc.mute]
  | leaves runs hears => exact standsLeaves hears stands
  | connected here next =>
    simp only [Stands,here] at stands
    obtain ⟨rfl,client⟩ := stands
    rw [joinEmpty]
    subst next
    cases kind : (σ.client j).kind <;> simp_all [Stands,Kind.connects,Kind.accepts,
        Kind.listener,View.saying,View.empty]
  | reached pc =>
    simp only [Stands,pc] at stands
    obtain ⟨met,told,both,is,rfl⟩ := stands
    exact ⟨met,told,[],[],both,.told is,rfl⟩
  | sends piece room => exact standsSends piece stands
  | speaks spoken => exact standsSpeaks complete spoken stands
  | gives ready kind => exact ⟨kind,encryptedMet complete ready stands⟩
  | dials pc kind size allowed =>
    simp only [Stands,pc] at stands
    exact ⟨v,_,stands.2,.port kind size allowed,rfl⟩
  | shell pc kind =>
    simp only [Stands,pc] at stands
    exact ⟨v,_,[],[],stands.2,.shell kind,joinEmpty.symm⟩
  | relays up down pc =>
    simp only [Stands,pc] at stands ⊢
    obtain ⟨met,before,up',down',both,is,rfl⟩ := stands
    exact ⟨met,before,up' ++ up,down' ++ down,both,is,by rw [joinAssoc,relayingMore]⟩

end stands

section runs
variable {h : Host} {ok : Process → Action → Prop} {σ : Process} {log : Log Process Event}

theorem standsRun (complete : ∀ σ a, ok σ a → SentWhole σ a) (run : Run (machine h) ok σ log) (j : Nat) :
    Stands h (σ.client j) (view j log) := by
  have start : Stands h (init.client j) (view j []) := by
    show view j [] = .empty
    rfl
  refine runInvariant (P := fun σ log => Stands h (σ.client j) (view j log)) start ?_ run
  intro s log a s' es run allowed taken stands
  rw [viewNext]
  exact standsTurns (complete _ _ allowed) (turnsGoes (shapedRun run) (stepGoes taken) j) stands

theorem spokeRun (complete : ∀ σ a, ok σ a → SentWhole σ a) (run : Run (machine h) ok σ log) (j : Nat) :
    view j log = .empty ∨ Spoke h (σ.client j).kind (σ.client j).token (view j log) :=
  standsSpoke (standsRun complete run j)

end runs

end HevFsh.ClientTask
