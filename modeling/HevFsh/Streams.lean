import HevFsh.Conversation

/-! The server over its sockets. Every connection is a stream of bytes: a recv with
MSG_WAITALL takes its two or sixteen bytes from the front of it, and a relay moves
what is left, some bytes at a time, to the other socket. -/
namespace HevFsh.Streams
open SearchTree Protocol SessionManager Transitions SessionTask

/- `arrived` is all that a connection's client has sent so far, `read` how much of it the
server has taken; `pipe` is what a relay has read and not yet written. -/
structure Net where
  server : Server
  arrived : Sid → Bytes
  read : Sid → Nat
  pipe : Sid → Bool → Bytes

inductive Call where
  | arrive (c : Sid) (data : Bytes)
  | message (i : Sid) (random : Token)
  | token (i : Sid) (random : Token)
  | load (i : Sid) (toRemote : Bool) (n : Nat)
  | store (i : Sid) (toRemote : Bool) (n : Nat)
  | serve (a : Action)
  deriving DecidableEq, Repr

def fed : Action → Bool
  | .recvMessage _ (some _) _ | .recvToken _ (some _) _ | .relay _ _ _ => true
  | _ => false

def Net.unread (ν : Net) (c : Sid) : Bytes := (ν.arrived c).drop (ν.read c)

def Net.recv (ν : Net) (fd : Int) (size : Nat) : Option (Sid × Bytes) :=
  match ν.server.fds fd with
  | none => none
  | some c => if size ≤ (ν.unread c).length then some (c,(ν.unread c).take size) else none

def Net.took (ν : Net) (c : Sid) (n : Nat) : Net :=
  {ν with read := Function.update ν.read c (ν.read c + n)}

def Net.setPipe (ν : Net) (i : Sid) (toRemote : Bool) (data : Bytes) : Net :=
  {ν with pipe := Function.update ν.pipe i (Function.update (ν.pipe i) toRemote data)}

def Net.setServer (ν : Net) (σ : Server) : Net := {ν with server := σ}

def header : Bytes → Option (UInt8 × UInt8)
  | [ver,cmd] => some (ver,cmd)
  | _ => none

def msgToken (bytes : Bytes) : Option Token :=
  if size : bytes.length = 16 then some ⟨bytes,size⟩ else none

def Net.action (ν : Net) : Call → Option (Net × Action)
  | .arrive _ _ | .load _ _ _ => none
  | .message i random => do
      let (c,bytes) ← ν.recv (ν.server.session i).clientFd 2
      let msg ← header bytes
      some (ν.took c 2,.recvMessage i (some msg) random)
  | .token i random => do
      let (c,bytes) ← ν.recv (ν.server.session i).clientFd 16
      let t ← msgToken bytes
      some (ν.took c 16,.recvToken i (some t) random)
  | .store i toRemote n =>
      let data := ν.pipe i toRemote
      if 0 < n ∧ n ≤ data.length then
        some (ν.setPipe i toRemote (data.drop n),.relay i toRemote (data.take n))
      else none
  | .serve a => if fed a then none else some (ν,a)

def step (cfg : Config) (ν : Net) : Call → Option (Net × List Event)
  | .arrive c data => some ({ν with arrived := Function.update ν.arrived c (ν.arrived c ++ data)},[])
  | .load i toRemote n => match ν.server.pc i with
      | .relay clientFd remoteFd => do
          let (c,bytes) ← ν.recv (if toRemote then clientFd else remoteFd) n
          some ((ν.took c n).setPipe i toRemote (ν.pipe i toRemote ++ bytes),[])
      | _ => none
  | call => do
      let (ν',a) ← ν.action call
      let (σ,es) ← SessionTask.step cfg ν.server a
      some (ν'.setServer σ,es)

def init (cfg : Config) : Net where
  server := SessionTask.init cfg
  arrived _ := []
  read _ := 0
  pipe _ _ := []

def machine (cfg : Config) : Machine Net Call Event := ⟨init cfg,step cfg⟩

def Calm (ν : Net) (call : Call) : Prop :=
  match ν.action call with
  | none => True
  | some (_,a) => Undisturbed ν.server a

instance (ν : Net) (call : Call) : Decidable (Calm ν call) := by
  unfold Calm
  split <;> infer_instance

def served (log : Log Net Event) : Log Server Event := log.map (fun e => (e.1.server,e.2))

section steps
variable {cfg : Config} {ν ν' : Net} {log : Log Net Event} {call : Call} {es : List Event}

inductive Flows (cfg : Config) (ν : Net) : Call → Net → List Event → Prop where
  | arrive {c data} : Flows cfg ν (.arrive c data)
      {ν with arrived := Function.update ν.arrived c (ν.arrived c ++ data)} []
  | load {i toRemote n clientFd remoteFd c bytes rest} (pc : ν.server.pc i = .relay clientFd remoteFd)
      (valid : ν.server.fds (if toRemote = true then clientFd else remoteFd) = some c)
      (size : bytes.length = n) (unread : ν.unread c = bytes ++ rest) :
      Flows cfg ν (.load i toRemote n)
        ((ν.took c n).setPipe i toRemote (ν.pipe i toRemote ++ bytes)) []
  | message {i random c ver cmd rest σ es} (valid : ν.server.fds (ν.server.session i).clientFd = some c)
      (unread : ν.unread c = ver :: cmd :: rest)
      (taken : SessionTask.step cfg ν.server (.recvMessage i (some (ver,cmd)) random) = some (σ,es)) :
      Flows cfg ν (.message i random) ((ν.took c 2).setServer σ) es
  | token {i random c t rest σ es} (valid : ν.server.fds (ν.server.session i).clientFd = some c)
      (unread : ν.unread c = t.bytes ++ rest)
      (taken : SessionTask.step cfg ν.server (.recvToken i (some t) random) = some (σ,es)) :
      Flows cfg ν (.token i random) ((ν.took c 16).setServer σ) es
  | store {i toRemote n σ es} (inside : n ≤ (ν.pipe i toRemote).length)
      (taken : SessionTask.step cfg ν.server (.relay i toRemote ((ν.pipe i toRemote).take n)) =
        some (σ,es)) :
      Flows cfg ν (.store i toRemote n)
        ((ν.setPipe i toRemote ((ν.pipe i toRemote).drop n)).setServer σ) es
  | serve {a σ es} (dry : fed a = false) (taken : SessionTask.step cfg ν.server a = some (σ,es)) :
      Flows cfg ν (.serve a) (ν.setServer σ) es

theorem recvSome {fd : Int} {size : Nat} {c : Sid} {bytes : Bytes} (h : ν.recv fd size = some (c,bytes)) :
    ν.server.fds fd = some c ∧ bytes.length = size ∧ ∃ rest, ν.unread c = bytes ++ rest := by
  simp only [Net.recv] at h
  split at h <;> try contradiction
  rename_i c' valid
  split at h <;> try contradiction
  rename_i enough
  cases Option.some.inj h
  exact ⟨valid,by simpa using enough,_,(List.take_append_drop size _).symm⟩

theorem headerSome {bytes : Bytes} {msg} (h : header bytes = some msg) : bytes = [msg.1,msg.2] := by
  unfold header at h
  split at h <;> try contradiction
  cases Option.some.inj h
  rfl

theorem msgTokenSome {bytes : Bytes} {t} (h : msgToken bytes = some t) : bytes = t.bytes := by
  unfold msgToken at h
  split at h <;> try contradiction
  cases Option.some.inj h
  rfl

theorem stepFlows (h : step cfg ν call = some (ν',es)) : Flows cfg ν call ν' es := by
  cases call with
  | arrive c data =>
    cases Option.some.inj h
    exact .arrive
  | load i toRemote n =>
    simp only [step] at h
    split at h <;> try contradiction
    rename_i clientFd remoteFd pc
    obtain ⟨⟨c,bytes⟩,came,h⟩ := Option.bind_eq_some_iff.mp h
    obtain ⟨valid,size,rest,unread⟩ := recvSome came
    cases Option.some.inj h
    exact .load pc valid size unread
  | message i random =>
    obtain ⟨⟨ν₀,a⟩,act,served⟩ := Option.bind_eq_some_iff.mp h
    obtain ⟨⟨c,bytes⟩,came,act'⟩ := Option.bind_eq_some_iff.mp act
    obtain ⟨msg,is,act''⟩ := Option.bind_eq_some_iff.mp act'
    obtain ⟨valid,_,rest,unread⟩ := recvSome came
    obtain ⟨⟨σ,es'⟩,taken,last⟩ := Option.bind_eq_some_iff.mp served
    cases Option.some.inj act''
    cases Option.some.inj last
    exact .message valid (by rw [unread,headerSome is]; rfl) taken
  | token i random =>
    obtain ⟨⟨ν₀,a⟩,act,served⟩ := Option.bind_eq_some_iff.mp h
    obtain ⟨⟨c,bytes⟩,came,act'⟩ := Option.bind_eq_some_iff.mp act
    obtain ⟨t,is,act''⟩ := Option.bind_eq_some_iff.mp act'
    obtain ⟨valid,_,rest,unread⟩ := recvSome came
    obtain ⟨⟨σ,es'⟩,taken,last⟩ := Option.bind_eq_some_iff.mp served
    cases Option.some.inj act''
    cases Option.some.inj last
    exact .token valid (by rw [unread,msgTokenSome is]) taken
  | store i toRemote n =>
    obtain ⟨⟨ν₀,a⟩,act,served⟩ := Option.bind_eq_some_iff.mp h
    obtain ⟨⟨σ,es'⟩,taken,last⟩ := Option.bind_eq_some_iff.mp served
    simp only [Net.action] at act
    split at act <;> try contradiction
    rename_i fits
    cases Option.some.inj act
    cases Option.some.inj last
    exact .store fits.2 taken
  | serve a =>
    obtain ⟨⟨ν₀,a'⟩,act,served⟩ := Option.bind_eq_some_iff.mp h
    obtain ⟨⟨σ,es'⟩,taken,last⟩ := Option.bind_eq_some_iff.mp served
    simp only [Net.action] at act
    split at act <;> try contradiction
    rename_i dry
    cases Option.some.inj act
    cases Option.some.inj last
    exact .serve (by simpa using dry) taken

theorem stepServes (h : step cfg ν call = some (ν',es)) :
    (ν'.server = ν.server ∧ es = []) ∨
      ∃ a, (Calm ν call → Undisturbed ν.server a) ∧
        SessionTask.step cfg ν.server a = some (ν'.server,es) := by
  cases call with
  | arrive c data =>
    cases Option.some.inj h
    exact .inl ⟨rfl,rfl⟩
  | load i toRemote n =>
    cases stepFlows h
    exact .inl ⟨rfl,rfl⟩
  | _ =>
    obtain ⟨⟨ν₀,a⟩,act,h⟩ := Option.bind_eq_some_iff.mp h
    obtain ⟨⟨σ,es'⟩,taken,h⟩ := Option.bind_eq_some_iff.mp h
    cases Option.some.inj h
    exact .inr ⟨a,fun calm => by rwa [Calm,act] at calm,taken⟩

def Net.taken (ν : Net) (c : Sid) : Bytes := (ν.arrived c).take (ν.read c)

structure Accounted (ν : Net) (L : Log Server Event) : Prop where
  bound : ∀ c, ν.read c ≤ (ν.arrived c).length
  own : ∀ c, (∀ s, (c,s) ∉ pairs L) → ν.taken c = handled c L ++ passed c true L ++ ν.pipe c true
  given : ∀ i s, (i,s) ∈ pairs L → ν.taken i = handled i L ++ passed s false L ++ ν.pipe s false
  back : ∀ s, (ν.server.session s).type ≠ .splice → passed s false L = [] ∧ ν.pipe s false = []
  forth : ∀ s, serving (ν.server.session s).type = true → passed s true L = [] ∧ ν.pipe s true = []

end steps

section accounts
variable {cfg : Config} {ν : Net} {L : Log Server Event} {σ : Server} {a : Action} {es : List Event}
  {c i : Sid}

theorem takeMore {l : Bytes} {r : Nat} {bytes rest : Bytes} (unread : l.drop r = bytes ++ rest) :
    l.take (r + bytes.length) = l.take r ++ bytes := by
  rw [List.take_add,unread,List.take_left]

theorem takenTook (bytes : Bytes) {rest : Bytes} (unread : ν.unread c = bytes ++ rest) (k : Sid) :
    (ν.took c bytes.length).taken k = ν.taken k ++ if k = c then bytes else [] := by
  by_cases same : k = c
  · subst same
    simpa [Net.taken,Net.took] using takeMore unread
  · simp [Net.taken,Net.took,same]

theorem boundTook (bytes : Bytes) {rest : Bytes} (bound : ∀ c, ν.read c ≤ (ν.arrived c).length)
    (unread : ν.unread c = bytes ++ rest) (k : Sid) :
    (ν.took c bytes.length).read k ≤ ((ν.took c bytes.length).arrived k).length := by
  by_cases same : k = c
  · subst same
    have size := congrArg List.length unread
    have old := bound k
    simp only [Net.unread,List.length_drop,List.length_append] at size
    simp only [Net.took,Function.update_self]
    omega
  · simpa [Net.took,same] using bound k

theorem takenServing (reg : Registry σ) {σ'} (taken : SessionTask.step cfg σ a = some (σ',es))
    (some' : a.taken c ≠ []) : (σ.session c).live = true ∧ serving (σ.session c).type = true := by
  have fits := reg.fits c
  cases a with
  | recvMessage i msg random =>
    cases msg with
    | none => exact absurd rfl some'
    | some msg =>
      have same : i = c := by
        by_contra apart
        exact some' (by simp [Action.taken,apart])
      subst same
      simp only [SessionTask.step] at taken
      split at taken <;> try contradiction
      rename_i pc
      rw [pc] at fits
      exact ⟨registryLive reg (by simp [pc,Pc.runs]),fits⟩
  | recvToken i mt random =>
    have same : i = c := by
      by_contra apart
      cases mt <;> exact some' (by simp [Action.taken,apart])
    subst same
    have reads := recvTokenReads taken
    obtain ⟨ver,pc⟩ | pc | pc := readsTokenCases reads
    all_goals
      rw [pc] at fits
      refine ⟨registryLive reg (by simp [pc,Pc.runs]),?_⟩
      first | exact fits | (simp only [Fits,decide_eq_true_eq] at fits; simp [fits,serving])
  | _ => exact absurd rfl some'

theorem readsOwn {σ'} (reg : Registry σ) (owned : Owned σ) (valid : σ.fds (σ.session i).clientFd = some c)
    (taken : SessionTask.step cfg σ a = some (σ',es)) (some' : a.taken i ≠ []) : c = i := by
  obtain ⟨live,_⟩ := takenServing reg taken some'
  rw [(owned.client i live).2] at valid
  exact (Option.some.inj valid).symm

theorem dryTaken (dry : fed a = false) : a.taken c = [] := by
  cases a with
  | recvMessage i msg random => cases msg with
    | none => rfl
    | some msg => contradiction
  | recvToken i mt random => cases mt with
    | none => rfl
    | some t => contradiction
  | _ => rfl

theorem accountedArrives (c : Sid) (data : Bytes) (inv : Accounted ν L) :
    Accounted {ν with arrived := Function.update ν.arrived c (ν.arrived c ++ data)} L := by
  have reads : ∀ k, Net.taken {ν with arrived := Function.update ν.arrived c (ν.arrived c ++ data)} k =
      ν.taken k := by
    intro k
    by_cases same : k = c
    · subst same
      simp [Net.taken,List.take_append_of_le_length (inv.bound k)]
    · simp [Net.taken,same]
  refine ⟨fun k => ?_,fun k free => ?_,fun i s mem => ?_,inv.back,inv.forth⟩
  · by_cases same : k = c
    · subst same
      have bound := inv.bound k
      simp
      omega
    · simpa [same] using inv.bound k
  · rw [reads]; exact inv.own k free
  · rw [reads]; exact inv.given i s mem

theorem servingBefore (reg : Registry σ) {σ'} (move : Moves cfg σ a σ' es)
    (serves : serving (σ'.session c).type = true) : serving (σ.session c).type = true := by
  rcases typeMoves reg move c with same | moved
  · rw [← same]; exact serves
  · generalize (σ'.session c).type = next at moved serves
    generalize (σ.session c).type = old at moved
    cases moved <;> first | rfl | contradiction

theorem pairedNew (reg : Registry σ) {σ' s} (move : Moves cfg σ a σ' es)
    (new : (i,s) ∈ es.filterMap Event.pair) :
    (σ.pc i).runs = true ∧ serving (σ.session i).type = true ∧ (σ.session s).type = .connect := by
  obtain ⟨e,inside,is⟩ := List.mem_filterMap.mp new
  cases e <;> simp only [Event.pair,reduceCtorEq,Option.some.injEq,Prod.mk.injEq] at is
  obtain ⟨rfl,rfl⟩ := is
  cases movesLogs move inside with
  | plain is => contradiction
  | matched pass left found next logged =>
    obtain ⟨runs,serves⟩ := acceptPassPlace reg pass
    exact ⟨runs,serves,(acceptFinds serves found).2.2.1⟩

theorem accountedServes {ν' : Net} (reg : Registry ν.server) (once : PairedOnce ν.server L)
    (inv : Accounted ν L) (taken : SessionTask.step cfg ν.server a = some (ν'.server,es))
    (apart : ∀ j toRemote data, a ≠ .relay j toRemote data)
    (bound : ∀ c, ν'.read c ≤ (ν'.arrived c).length) (pipe : ν'.pipe = ν.pipe)
    (reads : ∀ c, ν'.taken c = ν.taken c ++ a.taken c) :
    Accounted ν' (L ++ es.map (ν.server,·)) := by
  have move := stepMoves taken
  have handles : ∀ c, handled c (L ++ es.map (ν.server,·)) = handled c L ++ a.taken c := fun c => by
    rw [handledNext,takenMoves move]
  have passes : ∀ s r, passed s r (L ++ es.map (ν.server,·)) = passed s r L := by
    intro s r
    rw [passedNext]
    cases putsMoves move with
    | nothing mute other => rw [(muteNothing mute).2.2.2,List.append_nil]
    | speaks pc valid is logged => simp [logged,Event.passed]
    | relays pc valid is same logged => exact absurd is (apart _ _ _)
  -- a giver is gone, and one to be runs until now
  have own : ∀ c, (∀ s, (c,s) ∉ pairs L) → ν'.taken c =
      handled c (L ++ es.map (ν.server,·)) ++ passed c true L ++ ν.pipe c true := by
    intro c free
    rw [reads,handles,inv.own c free]
    by_cases none' : a.taken c = []
    · simp [none']
    · obtain ⟨_,serves⟩ := takenServing reg taken none'
      obtain ⟨nothing,empty⟩ := inv.forth c serves
      simp [nothing,empty]
  refine ⟨bound,?_,?_,?_,?_⟩
  · intro c free
    rw [passes,pipe]
    exact own c (fun s mem => free s (pairsMono mem))
  · intro i s mem
    rw [passes,pipe]
    rw [pairsNext] at mem
    rcases List.mem_append.mp mem with old | new
    · have none' : a.taken i = [] := by
        by_contra some'
        have live := (takenServing reg taken some').1
        rw [(once.ending _ old).2.1] at live
        contradiction
      rw [reads,handles,none',List.append_nil,List.append_nil]
      exact inv.given i s old
    · obtain ⟨runs,serves,connect⟩ := pairedNew reg move new
      have free : ∀ s, (i,s) ∉ pairs L := by
        intro s old
        have dead := (once.ending _ old).2.1
        rw [reg.running,runs] at dead
        contradiction
      obtain ⟨nothing,empty⟩ := inv.forth i serves
      obtain ⟨nothing',empty'⟩ := inv.back s (by simp [connect])
      rw [own i free,nothing,empty,nothing',empty']
  · intro s other
    rw [passes,pipe]
    refine inv.back s (fun splice => other (spliceKept reg move splice).1)
  · intro s serves
    rw [passes,pipe]
    exact inv.forth s (servingBefore reg move serves)

theorem partners (once : PairedOnce σ L) {i' s s'} (first : (i,s) ∈ pairs L) (second : (i',s') ∈ pairs L) :
    i = i' ↔ s = s' := by
  constructor
  · rintro rfl
    exact congrArg Prod.snd (List.inj_on_of_nodup_map once.givers first second rfl)
  · rintro rfl
    exact congrArg Prod.fst (List.inj_on_of_nodup_map once.takers first second rfl)

theorem loadSource {cl rm toRemote} (reg : Registry σ) (owned : Owned σ) (inv : Relaying σ L)
    (held : RelayHeld σ i) (pc : σ.pc i = .relay cl rm)
    (valid : σ.fds (if toRemote = true then cl else rm) = some c) :
    if toRemote = true then c = i else (c,i) ∈ pairs L := by
  have other : σ.fds (if (!toRemote) = true then rm else cl) = some c := by
    cases toRemote <;> simpa using valid
  have target := relayTarget reg owned inv held pc other
  cases toRemote <;> simpa using target

theorem accountedLoads {toRemote n cl rm} {bytes rest : Bytes} (reg : Registry ν.server)
    (owned : Owned ν.server) (once : PairedOnce ν.server L) (relaying : Relaying ν.server L)
    (held : RelayHeld ν.server i) (inv : Accounted ν L) (pc : ν.server.pc i = .relay cl rm)
    (valid : ν.server.fds (if toRemote = true then cl else rm) = some c) (size : bytes.length = n)
    (unread : ν.unread c = bytes ++ rest) :
    Accounted ((ν.took c n).setPipe i toRemote (ν.pipe i toRemote ++ bytes)) L := by
  subst size
  have source := loadSource reg owned relaying held pc valid
  have type := (relayPlace reg pc).2
  have busy : serving (ν.server.session i).type = false := by
    rcases type with is | is <;> simp [is,serving]
  have reads : ∀ k, ((ν.took c bytes.length).setPipe i toRemote (ν.pipe i toRemote ++ bytes)).taken k =
      ν.taken k ++ if k = c then bytes else [] := fun k => takenTook bytes unread k
  have pipes : ∀ j r, ((ν.took c bytes.length).setPipe i toRemote (ν.pipe i toRemote ++ bytes)).pipe j r =
      ν.pipe j r ++ if j = i ∧ r = toRemote then bytes else [] := by
    intro j r
    by_cases same : j = i
    · subst same
      by_cases dir : r = toRemote
      · subst dir; simp [Net.setPipe]
      · simp [Net.setPipe,Net.took,dir]
    · simp [Net.setPipe,Net.took,same]
  refine ⟨boundTook bytes inv.bound unread,?_,?_,?_,?_⟩
  · intro k free
    rw [reads,pipes,inv.own k free]
    cases toRemote with
    | true =>
      simp only [if_true] at source
      simp [source]
    | false =>
      simp only [Bool.false_eq_true,if_false] at source
      have apart : k ≠ c := by
        rintro rfl
        exact free i source
      simp [apart]
  · intro j s mem
    rw [reads,pipes,inv.given j s mem]
    cases toRemote with
    | true =>
      simp only [if_true] at source
      have apart : j ≠ c := by
        rintro rfl
        have serves := relaying.givers _ mem
        rw [source,busy] at serves
        contradiction
      simp [apart]
    | false =>
      simp only [Bool.false_eq_true,if_false] at source
      have which : j = c ↔ s = i := partners once mem source
      simp [which]
  · intro s other
    obtain ⟨nothing,empty⟩ := inv.back s other
    refine ⟨nothing,?_⟩
    rw [pipes,empty]
    cases toRemote with
    | true => simp
    | false =>
      simp only [Bool.false_eq_true,if_false] at source
      have apart : s ≠ i := by
        rintro rfl
        exact other (once.ending _ source).2.2
      simp [apart]
  · intro s serves
    obtain ⟨nothing,empty⟩ := inv.forth s serves
    have apart : s ≠ i := by
      rintro rfl
      have same : serving (ν.server.session s).type = true := serves
      rw [busy] at same
      contradiction
    exact ⟨nothing,by rw [pipes,empty]; simp [apart]⟩

theorem accountedStores {ν' : Net} {toRemote n} (reg : Registry ν.server) (owned : Owned ν.server)
    (relaying : Relaying ν.server L) (held : RelayHeld ν.server i) (inv : Accounted ν L)
    (inside : n ≤ (ν.pipe i toRemote).length)
    (taken : SessionTask.step cfg ν.server (.relay i toRemote ((ν.pipe i toRemote).take n)) =
      some (σ,es))
    (is : ν' = (ν.setPipe i toRemote ((ν.pipe i toRemote).drop n)).setServer σ) :
    Accounted ν' (L ++ es.map (ν.server,·)) := by
  have move := stepMoves taken
  cases putsMoves move with
  | nothing mute other => exact absurd rfl (other _ _ _)
  | speaks pc valid is logged => contradiction
  | @relays j cl rm toRemote' data conn pc valid relay same logged =>
    cases relay
    subst same
    have target := relayTarget reg owned relaying held pc valid
    have busy : serving (ν.server.session i).type = false := by
      rcases (relayPlace reg pc).2 with is | is <;> simp [is,serving]
    have dir : decide (conn ≠ i) = toRemote := by
      cases toRemote with
      | true =>
        simp only [if_true] at target
        have apart : conn ≠ i := by
          rintro rfl
          have serves := relaying.givers _ target
          rw [busy] at serves
          contradiction
        simp [apart]
      | false =>
        simp only [Bool.false_eq_true,if_false] at target
        simp [target]
    have joined : ∀ s r, passed s r (L ++ es.map (ν.server,·)) ++ ν'.pipe s r =
        passed s r L ++ ν.pipe s r := by
      intro s r
      rw [passedNext,logged,is]
      by_cases self : s = i
      · subst self
        by_cases dir' : r = toRemote
        · subst dir'
          simp [Event.passed,Net.setServer,Net.setPipe,dir]
        · have other : decide (conn ≠ s) ≠ r := by rw [dir]; exact Ne.symm dir'
          have silent : ∀ data, (Event.relayed s conn data).passed s r = [] := by
            intro data
            simp only [Event.passed,other,and_false,if_false]
          simp [silent,Net.setServer,Net.setPipe,dir']
      · simp [Event.passed,Net.setServer,Net.setPipe,self,Ne.symm self]
    have handles : ∀ c, handled c (L ++ es.map (ν.server,·)) = handled c L := by
      intro c
      rw [handledNext,logged]
      simp [Event.taken]
    have paired : pairs (L ++ es.map (ν.server,·)) = pairs L := by
      rw [pairsNext,logged]
      simp [Event.pair]
    have reads : ∀ c, ν'.taken c = ν.taken c := fun c => by rw [is]; rfl
    have types : ν'.server = ν.server := by rw [is]; rfl
    refine ⟨?_,?_,?_,?_,?_⟩
    · rw [is]; exact inv.bound
    · intro c free
      rw [reads,handles,List.append_assoc,joined,← List.append_assoc]
      exact inv.own c (paired ▸ free)
    · intro i s mem
      rw [reads,handles,List.append_assoc,joined,← List.append_assoc]
      exact inv.given i s (paired ▸ mem)
    · intro s other
      obtain ⟨nothing,empty⟩ := inv.back s (types ▸ other)
      simpa [nothing,empty] using joined s false
    · intro s serves
      obtain ⟨nothing,empty⟩ := inv.forth s (types ▸ serves)
      simpa [nothing,empty] using joined s true

end accounts

section runs
variable {cfg : Config} {ok : Net → Call → Prop} {ν : Net} {log : Log Net Event}

theorem servedRun {ok' : Server → Action → Prop} (run : Run (machine cfg) ok ν log)
    (allowed : ∀ ν call a, ok ν call → (Calm ν call → Undisturbed ν.server a) → ok' ν.server a) :
    Run (SessionTask.machine cfg) ok' ν.server (served log) := by
  refine runProject Net.server rfl (fun fine taken => ?_) run
  rcases stepServes taken with silent | ⟨a,calm,taken'⟩
  · exact .inl silent
  · exact .inr ⟨a,allowed _ _ a fine calm,taken'⟩

theorem servedAny (run : Run (machine cfg) ok ν log) :
    Run (SessionTask.machine cfg) (fun _ _ => True) ν.server (served log) :=
  servedRun run (fun _ _ _ _ _ => trivial)

theorem servedCalm (run : Run (machine cfg) Calm ν log) :
    Run (SessionTask.machine cfg) Undisturbed ν.server (served log) :=
  servedRun run (fun _ _ _ fine calm => calm fine)

theorem servedNext {es : List Event} :
    served (log ++ es.map (ν,·)) = served log ++ es.map (ν.server,·) := by
  simp [served]

theorem accountedRun (run : Run (machine cfg) ok ν log) : Accounted ν (served log) := by
  refine runInvariant (P := fun ν log => Accounted ν (served log)) ?_ ?_ run
  · refine ⟨?_,?_,?_,?_,?_⟩
    all_goals simp [machine,init,served,Net.taken,handled,passed,pairs]
  · intro ν log call ν' es run calm taken inv
    have below := servedAny run
    have reg := registryRun below
    have owned := ownedRun below
    have once := pairedOnceRun below
    rw [servedNext]
    cases stepFlows taken with
    | @arrive c data => simpa using accountedArrives c data inv
    | load pc valid size unread =>
      simpa using accountedLoads reg owned once (relayingRun below) (relayHeldRun below _) inv pc valid
        size unread
    | @message i random c ver cmd rest σ es valid unread taken =>
      have own : c = i := readsOwn reg owned valid taken (by simp [Action.taken])
      refine accountedServes reg once inv taken (by simp) ?_ rfl ?_
      · exact boundTook [ver,cmd] inv.bound unread
      · intro k
        rw [← own]
        refine (takenTook [ver,cmd] unread k).trans ?_
        simp [Action.taken,eq_comm]
    | @token i random c t rest σ es valid unread taken =>
      have some' : t.bytes ≠ [] := by
        intro none'
        have size := t.size
        simp [none'] at size
      have own : c = i := readsOwn reg owned valid taken (by simpa [Action.taken] using some')
      refine accountedServes reg once inv taken (by simp) ?_ rfl ?_
      · have bound := boundTook t.bytes inv.bound unread
        rw [t.size] at bound
        exact bound
      · intro k
        have reads := takenTook t.bytes unread k
        rw [t.size] at reads
        rw [← own]
        refine reads.trans ?_
        simp [Action.taken,eq_comm]
    | store inside taken =>
      exact accountedStores reg owned (relayingRun below) (relayHeldRun below _) inv inside taken rfl
    | @serve a σ es dry taken =>
      refine accountedServes reg once inv taken (fun j r data is => ?_) inv.bound rfl (fun k => ?_)
      · rw [is] at dry
        contradiction
      · rw [dryTaken dry,List.append_nil]
        rfl

theorem arrivedTaken (c : Sid) : ν.arrived c = ν.taken c ++ ν.unread c :=
  (List.take_append_drop _ _).symm

/- What a client sent is what the handlers read of it, in order, then what a relay has
passed on or holds, then what is unread; nothing is skipped, read twice or another's. -/
theorem bytesAccounted (cfg : Config) (ν : Net) (log : Log Net Event)
    (run : Run (machine cfg) (fun _ _ => True) ν log) :
    Run (SessionTask.machine cfg) (fun _ _ => True) ν.server (served log) ∧
    ∀ c, ∃ s toRemote, ν.arrived c = handled c (served log) ++ passed s toRemote (served log) ++
        ν.pipe s toRemote ++ ν.unread c ∧
      (if toRemote = true then s = c ∧ ∀ j, (c,j) ∉ pairs (served log) else (c,s) ∈ pairs (served log)) := by
  have accounts := accountedRun run
  refine ⟨servedAny run,fun c => ?_⟩
  by_cases gives : ∃ s, (c,s) ∈ pairs (served log)
  · obtain ⟨s,mem⟩ := gives
    exact ⟨s,false,by rw [arrivedTaken,accounts.given c s mem],by simpa using mem⟩
  · have free : ∀ j, (c,j) ∉ pairs (served log) := fun j mem => gives ⟨j,mem⟩
    exact ⟨c,true,by rw [arrivedTaken,accounts.own c free],by simpa using free⟩

structure Paired (ν : Net) (L : Log Server Event) (i s : Sid) : Prop where
  toAcceptor : ∃ said, written i L = spoken i L ++ said ∧
    ν.arrived s = handled s L ++ said ++ ν.pipe s true ++ ν.unread s
  toConnector : ∃ said, written s L = spoken s L ++ said ∧
    ν.arrived i = handled i L ++ said ++ ν.pipe s false ++ ν.unread i

theorem pairedRun (run : Run (machine cfg) Calm ν log) {i s : Sid} (paired : (i,s) ∈ pairs (served log)) :
    Paired ν (served log) i s := by
  have below := servedCalm run
  have accounts := accountedRun run
  have ordered := orderedRun (fun _ _ h => h) below
  have relaying := relayingRun below
  obtain ⟨forth,back⟩ := relayedPassed below paired
  have taker : ∀ j, (s,j) ∉ pairs (served log) := by
    intro j mem
    have serves := relaying.givers _ mem
    rw [((pairedOnceRun below).ending _ paired).2.2] at serves
    contradiction
  refine ⟨⟨_,ordered.splits i,?_⟩,⟨_,ordered.splits s,?_⟩⟩
  · rw [arrivedTaken,accounts.own s taker,forth]
  · rw [arrivedTaken,accounts.given i s paired,back]

theorem pairedLate (run : Run (machine cfg) Calm ν log) {i s c : Sid} (paired : (i,s) ∈ pairs (served log))
    (which : c = i ∨ c = s) : ¬ Unserved ν.server (served log) c := by
  intro early
  rcases which with rfl | rfl
  · exact early.free s paired
  · have type := ((pairedOnceRun (servedCalm run)).ending _ paired).2.2
    rw [early.type] at type
    contradiction

theorem pairedFront (run : Run (machine cfg) Calm ν log) {i s c : Sid} (paired : (i,s) ∈ pairs (served log))
    (which : c = i ∨ c = s) : handled c (served log) <+: ν.arrived c := by
  obtain ⟨⟨said,_,whole⟩,⟨said',_,whole'⟩⟩ := pairedRun run paired
  rcases which with rfl | rfl
  · exact ⟨_,by rw [whole',List.append_assoc,List.append_assoc]⟩
  · exact ⟨_,by rw [whole,List.append_assoc,List.append_assoc]⟩

theorem pairedOpened (run : Run (machine cfg) Calm ν log) {i s c : Sid} (paired : (i,s) ∈ pairs (served log))
    (which : c = i ∨ c = s) : 2 ≤ (ν.arrived c).length := by
  have late := pairedLate run paired which
  have size := (pairedFront run paired which).length_le
  cases openingRun (fun _ _ h => h) (servedCalm run) c with
  | silent none' quiet early place => exact absurd early late
  | asks two peer' quiet early place => exact absurd early late
  | asked all peer' quiet place =>
    rw [all] at size
    simp at size
    omega
  | other reads else' =>
    rw [reads] at size
    simp at size
    omega

theorem pairedPeer (run : Run (machine cfg) Calm ν log) {i s c : Sid}
    (paired : (i,s) ∈ pairs (served log)) (which : c = i ∨ c = s) {v b rest}
    (stream : ν.arrived c = v :: b :: rest) (peer : PeerByte b) :
    spoken c (served log) = [] ∧ ∃ t : Token, handled c (served log) = v :: b :: t.bytes := by
  have late := pairedLate run paired which
  have front := pairedFront run paired which
  rw [stream] at front
  cases openingRun (fun _ _ h => h) (servedCalm run) c with
  | silent none' quiet early place => exact absurd early late
  | asks two peer' quiet early place => exact absurd early late
  | @asked v' b' t all peer' quiet place =>
    rw [all,List.cons_prefix_cons,List.cons_prefix_cons] at front
    obtain ⟨rfl,rfl,_⟩ := front
    exact ⟨quiet.1,t,all⟩
  | @other v' b' rest' reads else' =>
    rw [reads,List.cons_prefix_cons,List.cons_prefix_cons] at front
    obtain ⟨rfl,rfl,_⟩ := front
    exact absurd peer else'

theorem connectorAcross (run : Run (machine cfg) Calm ν log) {i s : Sid} (paired : (i,s) ∈ pairs (served log))
    {v v' : UInt8} {fromConnector fromAcceptor : Bytes}
    (connects : ν.arrived s = v :: Command.connect.code :: fromConnector)
    (accepts : ν.arrived i = v' :: Command.accept.code :: fromAcceptor) :
    ∃ t : Token, fromConnector = t.bytes ++ (written i (served log) ++ ν.pipe s true ++ ν.unread s) := by
  obtain ⟨_,t,asks⟩ := pairedPeer run paired (.inr rfl) connects (.inl rfl)
  obtain ⟨quiet,_,_⟩ := pairedPeer run paired (.inl rfl) accepts (.inr rfl)
  obtain ⟨⟨said,put,whole⟩,_⟩ := pairedRun run paired
  rw [quiet,List.nil_append] at put
  rw [connects,asks,← put] at whole
  exact ⟨t,by simpa using whole⟩

theorem acceptorAcross (run : Run (machine cfg) Calm ν log) {i s : Sid} (paired : (i,s) ∈ pairs (served log))
    {v v' : UInt8} {fromConnector fromAcceptor : Bytes}
    (connects : ν.arrived s = v :: Command.connect.code :: fromConnector)
    (accepts : ν.arrived i = v' :: Command.accept.code :: fromAcceptor) :
    ∃ t : Token, fromAcceptor = t.bytes ++ (written s (served log) ++ ν.pipe s false ++ ν.unread i) := by
  obtain ⟨quiet,_,_⟩ := pairedPeer run paired (.inr rfl) connects (.inl rfl)
  obtain ⟨_,t,asks⟩ := pairedPeer run paired (.inl rfl) accepts (.inr rfl)
  obtain ⟨_,⟨said,put,whole⟩⟩ := pairedRun run paired
  rw [quiet,List.nil_append] at put
  rw [accepts,asks,← put] at whole
  exact ⟨t,by simpa using whole⟩

/- Between two paired clients the server is a pipe: all that one sends behind its CONNECT
or ACCEPT and its token has been written to the other, is in the relay or is unread,
in this order, and nothing else is ever written to either. -/
theorem relayTransparent (cfg : Config) (ν : Net) (log : Log Net Event)
    (run : Run (machine cfg) Calm ν log) (i s : Sid) (paired : (i,s) ∈ pairs (served log))
    (v v' : UInt8) (fromConnector fromAcceptor : Bytes)
    (connects : ν.arrived s = v :: Command.connect.code :: fromConnector)
    (accepts : ν.arrived i = v' :: Command.accept.code :: fromAcceptor) :
    (∃ t : Token, fromConnector =
      t.bytes ++ (written i (served log) ++ ν.pipe s true ++ ν.unread s)) ∧
    ∃ t : Token, fromAcceptor =
      t.bytes ++ (written s (served log) ++ ν.pipe s false ++ ν.unread i) :=
  ⟨connectorAcross run paired connects accepts,acceptorAcross run paired connects accepts⟩

def relayedPair : List Call :=
  let t := SessionTask.tokenOf 7
  [.serve (.accept 5),.arrive 0 ([2,0] ++ t.bytes),.message 0 .zero,.token 0 .zero,.serve (.lock 0),
    .serve (.send 0 18),.serve (.sendReturn 0 18),
    .serve (.accept 6),.arrive 1 ([1,3] ++ t.bytes ++ [104,105]),.message 1 .zero,.token 1 .zero,
    .serve (.lock 1),.serve (.send 1 18),.serve (.sendReturn 1 18),
    .serve (.accept 7),.arrive 2 ([1,4] ++ t.bytes ++ [111]),.message 2 .zero,.token 2 .zero,
    .serve (.wake 1 9),.load 1 true 2,.store 1 true 1,.load 1 false 1,.store 1 false 1]

theorem relayTransparentPair : ∃ ν log, Run (machine (plainConfig 120 none)) Calm ν log ∧
    ∃ t : Token, (SessionTask.tokenOf 7).bytes ++ [104,105] =
      t.bytes ++ (written 2 (served log) ++ ν.pipe 1 true ++ ν.unread 1) := by
  obtain ⟨ν,log,run,shows⟩ := replayReaches (machine (plainConfig 120 none)) Calm relayedPair
    (fun (ν,log) => (2,1) ∈ pairs (served log) ∧
      ν.arrived 1 = 1 :: Command.connect.code :: ((SessionTask.tokenOf 7).bytes ++ [104,105]) ∧
      ν.arrived 2 = 1 :: Command.accept.code :: ((SessionTask.tokenOf 7).bytes ++ [111])) (by decide +kernel)
  obtain ⟨paired,connects,accepts⟩ := of_decide_eq_true shows
  exact ⟨ν,log,run,(relayTransparent _ ν log run 2 1 paired 1 1 _ _ connects accepts).1⟩

theorem bytesAccountedPair : ∃ ν log, Run (machine (plainConfig 120 none)) (fun _ _ => True) ν log ∧
    (2,1) ∈ pairs (served log) ∧
    ∃ s toRemote, ν.arrived 2 = handled 2 (served log) ++ passed s toRemote (served log) ++
      ν.pipe s toRemote ++ ν.unread 2 := by
  obtain ⟨ν,log,run,shows⟩ := replayReaches (machine (plainConfig 120 none)) (fun _ _ => True) relayedPair
    (fun (_,log) => (2,1) ∈ pairs (served log)) (by decide +kernel)
  obtain ⟨s,toRemote,whole,_⟩ := (bytesAccounted _ ν log run).2 2
  exact ⟨ν,log,run,of_decide_eq_true shows,s,toRemote,whole⟩

end runs

end HevFsh.Streams
