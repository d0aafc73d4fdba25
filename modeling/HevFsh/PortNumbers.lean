import HevFsh.PortTarget
import HevFsh.PairText

/-! The port texts of a client's command line, and what the ports that atoi makes of them
are used for in the end: compared with a message, sent in one, or bound. -/
namespace HevFsh.PortNumbers
open Protocol HostOrder Inet CText WireFormat Config CommandLine PortPolicy PortTarget

def parseSockaddr (N : InetPton) (order : ByteOrder) (address : Text) (port : UInt32) : Option Target :=
  let number := ntohs order (htons order port.toUInt16)
  match N.v4 address with
  | some a => some (.v4 a number)
  | none => (N.v6 address).map (fun a => .v6 a number)

def getLocalSockaddr (N : InetPton) (order : ByteOrder) (config : Config) : Option Target :=
  parseSockaddr N order (config.localAddress.getD []) config.localPort

/- What hev_fsh_client_factory_get has a port connector bind: without a local port it takes
the standard input and output instead. -/
def portBinds (N : InetPton) (order : ByteOrder) (config : Config) : Option Target :=
  if config.localPort = 0 then none else getLocalSockaddr N order config

def targetPort : Target → UInt16
  | .v4 _ port => port
  | .v6 _ port => port

def startsLoop (s : Nat) : Text → List Text
  | [] => []
  | c::rest =>
      if c = comma then startsLoop 0 rest
      else if s = 0 then (c::rest) :: startsLoop 1 rest
      else startsLoop s rest

def starts (str : Text) : List Text := startsLoop 0 str

def portOf (str : Text) : Option Text := (parseAddr str).bind (fun q => q.port.map (textAt q.b))

def fieldsOf (str : Text) : List Text :=
  match parseAddrPair str with
  | none => []
  | some (b,ps) => ps.map (textAt b)

def listenPort (str : Text) : Option Text := if colon ∉ str then some str else portOf str

def elementNodes (N : InetPton) (order : ByteOrder) (action : Int) (e : Text) : List AddrListNode :=
  (setAddrList N order configNew e action).2.addrList

inductive Use where
  | compared (list : List AddrListNode) (node : AddrListNode)
  | sent (bytes : Bytes)
  | bound (socket : Option Target)

def Use.Is (order : ByteOrder) (k : Nat) : Use → Prop
  | .compared list node => node ∈ list ∧
      ∀ m : PortMessage, (load16 order (m.high,m.low)).toUInt32 = node.port ↔ m.port.toNat = k
  | .sent bytes => ∃ m : PortMessage, bytes = m.bytes ∧ m.port.toNat = k
  | .bound socket => ∀ target, socket = some target → (targetPort target).toNat = k

def listUses (N : InetPton) (order : ByteOrder) (action : Int)
    (list : List AddrListNode) (str : Text) : List (Text × Use) :=
  (starts str).flatMap (fun e => (portOf e).toList.flatMap (fun t =>
    (elementNodes N order action e).map (fun n => (t,.compared list n))))

def pairUses (N : InetPton) (order : ByteOrder) (done : Config) : List Text → List (Text × Use)
  | [_,port,_,remotePort] => [(port,.bound (portBinds N order done)),(remotePort,.sent (portConnect N order done))]
  | [port,_,remotePort] => [(port,.bound (portBinds N order done)),(remotePort,.sent (portConnect N order done))]
  | [_,remotePort] => [(remotePort,.sent (portConnect N order done))]
  | _ => []

def pairPorts : List Text → List Text
  | [_,port,_,remotePort] => [port,remotePort]
  | [port,_,remotePort] => [port,remotePort]
  | [_,remotePort] => [remotePort]
  | _ => []

def portTexts (f p x : Bool) (t₁ w b : Option Text) : List Text :=
  if f then if p then (starts ((w.or b).getD [])).filterMap portOf else []
  else if p then pairPorts (fieldsOf (t₁.getD []))
  else if x then (listenPort (t₁.getD [])).toList
  else []

def uses (N : InetPton) (order : ByteOrder) (f p x : Bool)
    (t₁ w b : Option Text) (done : Config) : List (Text × Use) :=
  if f then
    if p then listUses N order (if w.isSome then 1 else 0) done.addrList ((w.or b).getD []) else []
  else if p then pairUses N order done (fieldsOf (t₁.getD []))
  else if x then (listenPort (t₁.getD [])).toList.map (fun t => (t,.bound (getLocalSockaddr N order done)))
  else []

structure Numeral (t : Text) : Prop where
  some' : t ≠ []
  digits : ∀ c ∈ t, isdigit c = true
  small : decValue t ≤ 65535

/- A finished command line has numerals for ports, and they are the ports that are used;
no node is in the list for anything else. -/
def PortsExact (N : InetPton) (order : ByteOrder) (config : Config) (f p x : Bool)
    (t₁ t₂ w b u : Option Text) : Prop :=
  ∀ done, parseClient N order config f p x t₁ t₂ w b u = (0,done) →
    (∀ t ∈ portTexts f p x t₁ w b, Numeral t) ∧
    (∀ use ∈ uses N order f p x t₁ w b done, use.2.Is order (decValue use.1)) ∧
    ∀ n ∈ done.addrList, n ∈ config.addrList ∨ n.type = 0 ∨
      ∃ t, (t,Use.compared done.addrList n) ∈ uses N order f p x t₁ w b done

def Faulty (N : InetPton) (e : Text) : Prop :=
  match parseAddr e with
  | some ⟨b,some addr,some _,_⟩ => N.v4 (textAt b addr) = none ∧ N.v6 (textAt b addr) = none
  | _ => True

def Refuses (N : InetPton) (f p x : Bool) (t₁ t₂ w b : Option Text) : Prop :=
  match (if !f && (p || x) then t₂ else t₁).bind parseAddr with
  | none => True
  | some parsed =>
      if f then p = true ∧ ((w.isSome ∧ b.isSome) ∨ ∃ e ∈ starts ((w.or b).getD []), Faulty N e)
      else parsed.token = none ∨
        (p = true ∧ ((fieldsOf (t₁.getD [])).length < 2 ∨ 4 < (fieldsOf (t₁.getD [])).length)) ∨
        (p = false ∧ x = true ∧ colon ∈ t₁.getD [] ∧ ∀ q, parseAddr (t₁.getD []) = some q →
            q.addr = none ∨ q.port = none)

section elements
variable {N : InetPton} {order : ByteOrder} {config : Config} {action : Int} {e str t : Text}

theorem setFaulty (faulty : Faulty N e) : setAddrList N order config e action = (-1,config) := by
  revert faulty
  unfold Faulty setAddrList
  rcases parseAddr e with _ | ⟨b,_ | addr,_ | port,token⟩
  · exact fun _ => rfl
  · exact fun _ => rfl
  · exact fun _ => rfl
  · exact fun _ => rfl
  · rintro ⟨not4,not6⟩
    simp [not4,not6]

theorem setNodes (fine : ¬ Faulty N e) : ∃ t, portOf e = some t ∧
    setAddrList N order config e action =
      (0,{ config with addrList := elementNodes N order action e ++ config.addrList }) ∧
    ∀ n ∈ elementNodes N order action e, n.port = (htons order (uint16 (atoi t))).toUInt32 := by
  unfold Faulty at fine
  unfold elementNodes setAddrList portOf
  cases parsed : parseAddr e with
  | none => simp [parsed] at fine
  | some q =>
    obtain ⟨b,addr,port,token⟩ := q
    cases addr with
    | none => simp [parsed] at fine
    | some addr =>
      cases port with
      | none => simp [parsed] at fine
      | some port =>
        refine ⟨textAt b port,rfl,?_⟩
        simp only [parsed] at fine ⊢
        cases four : N.v4 (textAt b addr) with
        | some a => simp [addrListAdd,configNew]
        | none =>
          cases six : N.v6 (textAt b addr) with
          | none => simp [four,six] at fine
          | some a =>
            by_cases mapped : a.isV4Mapped = true
            · simp [addrListAdd,configNew,mapped]
            · simp [addrListAdd,configNew,mapped]

theorem loopFaulty {s : Nat} (faulty : ∃ e ∈ startsLoop s str, Faulty N e) :
    (parseSetAddrListLoop N order action s config str).1 = -1 := by
  induction str generalizing s config with
  | nil => simp [startsLoop] at faulty
  | cons c str ih =>
    unfold startsLoop at faulty
    rw [parseSetAddrListLoop]
    by_cases isComma : c = comma
    · rw [if_pos isComma] at faulty ⊢
      exact ih faulty
    rw [if_neg isComma] at faulty ⊢
    by_cases first : s = 0
    · rw [if_pos first] at faulty ⊢
      obtain ⟨e,mem,bad⟩ := faulty
      by_cases here : Faulty N (c::str)
      · simp [setFaulty here]
      · have later : ∃ e ∈ startsLoop 1 str, Faulty N e := by
          rcases List.mem_cons.mp mem with rfl | later
          · exact absurd bad here
          · exact ⟨e,later,bad⟩
        obtain ⟨t,-,sets,-⟩ := @setNodes N order config action _ here
        rw [sets]
        exact ih later
    · rw [if_neg first] at faulty ⊢
      exact ih faulty

theorem loopNodes {s : Nat} (fine : ∀ e ∈ startsLoop s str, ¬ Faulty N e) :
    parseSetAddrListLoop N order action s config str = (0,{ config with
      addrList := (startsLoop s str).reverse.flatMap (elementNodes N order action) ++ config.addrList }) := by
  induction str generalizing s config with
  | nil => simp [parseSetAddrListLoop,startsLoop]
  | cons c str ih =>
    unfold startsLoop at fine ⊢
    rw [parseSetAddrListLoop]
    by_cases isComma : c = comma
    · rw [if_pos isComma] at fine ⊢
      rw [ih fine,if_pos isComma]
    rw [if_neg isComma] at fine ⊢
    by_cases first : s = 0
    · rw [if_pos first] at fine ⊢
      obtain ⟨t,-,sets,-⟩ := @setNodes N order config action _ (fine _ List.mem_cons_self)
      rw [sets]
      simp only [if_neg isComma,if_pos first]
      rw [if_neg (by decide),ih (fun e mem => fine e (List.mem_cons_of_mem _ mem))]
      simp
    · rw [if_neg first] at fine ⊢
      rw [ih fine,if_neg isComma,if_neg first]

end elements

section numerals
variable {order : ByteOrder} {t : Text}

theorem numeralAtoi (numeral : Numeral t) : atoi t = decValue t := by
  have small := numeral.small
  exact atoiDigits numeral.digits (by omega)

theorem numeral16 (numeral : Numeral t) : (uint16 (atoi t)).toNat = decValue t := by
  have small := numeral.small
  rw [numeralAtoi numeral,uint16,UInt16.toNat_ofNat']
  omega

theorem numeral32 (numeral : Numeral t) : (uint32 (atoi t)).toUInt16.toNat = decValue t := by
  have small := numeral.small
  rw [numeralAtoi numeral,uint32,UInt32.toNat_toUInt16,UInt32.toNat_ofNat']
  omega

end numerals

section clients
variable {N : InetPton} {order : ByteOrder} {config done : Config} {action : Int} {str t : Text}

theorem pairStored : parseSetAddrPair config str = PairText.storeTexts config (fieldsOf str) := by
  rw [PairText.setStores]
  unfold fieldsOf
  cases parseAddrPair str with
  | none => rfl
  | some q => rfl

theorem boundPort {target : Target} (bound : getLocalSockaddr N order done = some target) :
    targetPort target = done.localPort.toUInt16 := by
  unfold getLocalSockaddr parseSockaddr at bound
  rw [ntohsHtons] at bound
  split at bound
  · cases Option.some.inj bound
    rfl
  · obtain ⟨a,-,rfl⟩ := Option.map_eq_some_iff.mp bound
    rfl

theorem boundIs (numeral : Numeral t) (port : done.localPort = uint32 (atoi t)) :
    (Use.bound (getLocalSockaddr N order done)).Is order (decValue t) := by
  intro target bound
  rw [boundPort bound,port,numeral32 numeral]

theorem bindsIs (numeral : Numeral t) (port : done.localPort = uint32 (atoi t)) :
    (Use.bound (portBinds N order done)).Is order (decValue t) := by
  intro target bound
  unfold portBinds at bound
  split at bound
  · contradiction
  · exact boundIs numeral port target bound

theorem sentIs (numeral : Numeral t) (port : done.remotePort = uint32 (atoi t)) :
    (Use.sent (portConnect N order done)).Is order (decValue t) := by
  refine ⟨_,infoSent N order (done.remoteAddress.getD []) done.remotePort,?_⟩
  rw [port,← numeral32 numeral]
  unfold sent
  split
  · rw [PortMessage.port,joinParts]
  · split
    · rw [PortMessage.port,joinParts]
    · rw [PortMessage.port,joinParts]

theorem pairIs {fields : List Text} (stores : PairText.storeTexts config fields = (0,done))
    (numerals : ∀ t ∈ pairPorts fields, Numeral t) (mode : Mode) :
    ∀ use ∈ pairUses N order (setMode done mode) fields, use.2.Is order (decValue use.1) := by
  obtain _ | ⟨a,_ | ⟨b,_ | ⟨c,_ | ⟨d,_ | ⟨e,fields⟩⟩⟩⟩⟩ := fields
  · simp [pairUses]
  · simp [pairUses]
  · cases (Prod.mk.inj stores).2
    have remote := numerals b (by simp [pairPorts])
    intro use mem
    cases List.mem_singleton.mp mem
    exact sentIs remote rfl
  · cases (Prod.mk.inj stores).2
    have port := numerals a (by simp [pairPorts])
    have remote := numerals c (by simp [pairPorts])
    intro use mem
    rcases List.mem_pair.mp mem with rfl | rfl
    · exact bindsIs port rfl
    · exact sentIs remote rfl
  · cases (Prod.mk.inj stores).2
    have port := numerals b (by simp [pairPorts])
    have remote := numerals d (by simp [pairPorts])
    intro use mem
    rcases List.mem_pair.mp mem with rfl | rfl
    · exact bindsIs port rfl
    · exact sentIs remote rfl
  · simp [pairUses]

theorem listIs {list : List AddrListNode} (fine : ∀ e ∈ starts str, ¬ Faulty N e)
    (kept : ∀ e ∈ starts str, ∀ n ∈ elementNodes N order action e, n ∈ list)
    (numerals : ∀ t ∈ (starts str).filterMap portOf, Numeral t) :
    ∀ use ∈ listUses N order action list str, use.2.Is order (decValue use.1) := by
  intro use mem
  obtain ⟨e,inside,mem⟩ := List.mem_flatMap.mp mem
  obtain ⟨t,text,mem⟩ := List.mem_flatMap.mp mem
  obtain ⟨n,node,rfl⟩ := List.mem_map.mp mem
  have port : portOf e = some t := by simpa using text
  obtain ⟨t',port',-,ports⟩ := @setNodes N order configNew action e (fine e inside)
  rw [port] at port'
  cases Option.some.inj port'
  refine ⟨kept e inside n node,fun m => ?_⟩
  have numeral := numerals t (List.mem_filterMap.mpr ⟨e,inside,port⟩)
  rw [ports n node,portMatches,← numeral16 numeral,UInt16.toNat_inj]
  exact eq_comm

theorem listCovers {list : List AddrListNode} (fine : ∀ e ∈ starts str, ¬ Faulty N e) {n : AddrListNode}
    (mem : n ∈ (starts str).reverse.flatMap (elementNodes N order action)) :
    ∃ t, (t,Use.compared list n) ∈ listUses N order action list str := by
  obtain ⟨e,inside,node⟩ := List.mem_flatMap.mp mem
  rw [List.mem_reverse] at inside
  obtain ⟨t,port,-,-⟩ := @setNodes N order configNew action e (fine e inside)
  refine ⟨t,List.mem_flatMap.mpr ⟨e,inside,List.mem_flatMap.mpr ⟨t,by simp [port],?_⟩⟩⟩
  exact List.mem_map.mpr ⟨n,node,rfl⟩

def Serves (order : ByteOrder) (config done : Config) (used : List (Text × Use)) : Prop :=
  (∀ use ∈ used, use.2.Is order (decValue use.1)) ∧
    ∀ n ∈ done.addrList, n ∈ config.addrList ∨ n.type = 0 ∨ ∃ t, (t,Use.compared done.addrList n) ∈ used

theorem listServes (fine : ∀ e ∈ starts str, ¬ Faulty N e) {last : Int}
    (is : done.addrList = (starts str).reverse.flatMap (elementNodes N order action) ++
      ⟨0,last,.zero,0⟩ :: config.addrList)
    (numerals : ∀ t ∈ (starts str).filterMap portOf, Numeral t) :
    Serves order config done (listUses N order action done.addrList str) := by
  refine ⟨listIs fine ?_ numerals,fun n mem => ?_⟩
  · intro e inside n node
    rw [is]
    exact List.mem_append_left _ (List.mem_flatMap.mpr ⟨e,List.mem_reverse.mpr inside,node⟩)
  · rw [is] at mem
    rcases List.mem_append.mp mem with node | old
    · exact .inr (.inr (listCovers fine node))
    · rcases List.mem_cons.mp old with rfl | old
      · exact .inr (.inl rfl)
      · exact .inl old

theorem listTakes (fine : ∀ e ∈ starts str, ¬ Faulty N e) (last : Int) : ∃ done,
    parseSetAddrList N order (addrListAdd config 0 [] 0 last) str action = (0,done) ∧ done.addrList =
      (starts str).reverse.flatMap (elementNodes N order action) ++ ⟨0,last,.zero,0⟩ :: config.addrList :=
  ⟨_,loopNodes fine,rfl⟩

theorem listRefused (faulty : ∃ e ∈ starts str, Faulty N e) : (parseSetAddrList N order config str action).1 = -1 :=
  loopFaulty faulty

variable {f p x : Bool} {t₁ t₂ w b u : Option Text}

theorem forwarderTakes (one : ¬ (w.isSome ∧ b.isSome)) (fine : ∀ e ∈ starts ((w.or b).getD []), ¬ Faulty N e) :
    ∃ done last, parsePortForwarder N order config w b = (0,done) ∧ done.addrList =
      (starts ((w.or b).getD [])).reverse.flatMap (elementNodes N order (if w.isSome then 1 else 0)) ++
        ⟨0,last,.zero,0⟩ :: config.addrList := by
  cases w with
  | some str =>
    cases b with
    | some str' => simp at one
    | none =>
      obtain ⟨done,takes,is⟩ := @listTakes N order config 1 str fine 0
      exact ⟨done,0,takes,is⟩
  | none =>
    cases b with
    | some str =>
      obtain ⟨done,takes,is⟩ := @listTakes N order config 0 str fine 1
      exact ⟨done,1,takes,is⟩
    | none => exact ⟨_,1,rfl,rfl⟩

theorem forwarderRefuses (fault : (w.isSome ∧ b.isSome) ∨ ∃ e ∈ starts ((w.or b).getD []), Faulty N e) :
    (parsePortForwarder N order config w b).1 = -1 := by
  cases w with
  | some str =>
    cases b with
    | some str' => rfl
    | none => exact listRefused (fault.resolve_left (by simp))
  | none =>
    cases b with
    | some str => exact listRefused (fault.resolve_left (by simp))
    | none => simp [starts,startsLoop] at fault

theorem pairRefuses (count : (fieldsOf str).length < 2 ∨ 4 < (fieldsOf str).length) :
    (parseSetAddrPair config str).1 = -1 := by
  rw [pairStored]
  revert count
  generalize fieldsOf str = fields
  obtain _ | ⟨a,_ | ⟨b,_ | ⟨c,_ | ⟨d,_ | ⟨e,fields⟩⟩⟩⟩⟩ := fields
  all_goals simp [PairText.storeTexts]

theorem listenRefuses (ported : colon ∈ str) (missing : ∀ q, parseAddr str = some q →
    q.addr = none ∨ q.port = none) :
    (parseSetAddr config str).1 = -1 := by
  unfold parseSetAddr
  rw [if_neg (not_not.mpr ported)]
  rcases parsed : parseAddr str with _ | ⟨b,_ | addr,_ | port,token⟩
  · rfl
  · rfl
  · rfl
  · rfl
  · simpa using missing _ parsed

theorem listenTakes (fine : ¬ (colon ∈ str ∧ ∀ q, parseAddr str = some q → q.addr = none ∨ q.port = none)) :
    ∃ done t, parseSetAddr config str = (0,done) ∧ listenPort str = some t ∧ done.localPort = uint32 (atoi t) ∧
      done.addrList = config.addrList := by
  unfold parseSetAddr listenPort portOf
  by_cases ported : colon ∈ str
  · simp only [not_not.mpr ported,if_false]
    rcases parsed : parseAddr str with _ | ⟨b,_ | addr,_ | port,token⟩
    · exact absurd ⟨ported,by simp [parsed]⟩ fine
    · exact absurd ⟨ported,by simp [parsed]⟩ fine
    · exact absurd ⟨ported,by simp [parsed]⟩ fine
    · exact absurd ⟨ported,by simp [parsed]⟩ fine
    · exact ⟨_,_,rfl,rfl,rfl,rfl⟩
  · simp only [ported,not_false_iff,if_true]
    exact ⟨_,_,rfl,rfl,rfl,rfl⟩

theorem storesList {fields : List Text} (stores : PairText.storeTexts config fields = (0,done)) :
    done.addrList = config.addrList := by
  obtain _ | ⟨a,_ | ⟨b,_ | ⟨c,_ | ⟨d,_ | ⟨e,fields⟩⟩⟩⟩⟩ := fields
  · simp [PairText.storeTexts] at stores
  · simp [PairText.storeTexts] at stores
  · rw [← (Prod.mk.inj stores).2]
  · rw [← (Prod.mk.inj stores).2]
  · rw [← (Prod.mk.inj stores).2]
  · simp [PairText.storeTexts] at stores

theorem clientRefuses (refuses : Refuses N f p x t₁ t₂ w b) :
    (parseClient N order config f p x t₁ t₂ w b u).1 = -1 := by
  unfold Refuses at refuses
  unfold parseClient
  cases server : (if !f && (p || x) then t₂ else t₁).bind parseAddr with
  | none => simp only [server]
  | some parsed =>
    simp only [server] at refuses ⊢
    cases f with
    | true =>
      simp only [if_true] at refuses ⊢
      rw [if_pos refuses.1,forwarderRefuses refuses.2]
      rfl
    | false =>
      simp only [Bool.false_eq_true,if_false] at refuses ⊢
      by_cases tokenless : parsed.token = none
      · simp [setServer,tokenless]
      rw [if_neg (by simpa [setServer] using tokenless)]
      rcases refuses with none' | ⟨rfl,count⟩ | ⟨rfl,rfl,ported,missing⟩
      · exact absurd none' tokenless
      · simp only [Bool.not_false,Bool.true_or,Bool.and_self,if_true,pairRefuses count]
        rfl
      · simp only [Bool.not_false,Bool.or_true,Bool.and_self,Bool.false_eq_true,if_false,if_true,
          listenRefuses ported missing]
        rfl

theorem clientTakes (takes : ¬ Refuses N f p x t₁ t₂ w b) :
    ∃ done, parseClient N order config f p x t₁ t₂ w b u = (0,done) ∧
    ((∀ t ∈ portTexts f p x t₁ w b, Numeral t) →
    Serves order config done (uses N order f p x t₁ w b done)) := by
  unfold Refuses at takes
  unfold parseClient
  cases server : (if !f && (p || x) then t₂ else t₁).bind parseAddr with
  | none =>
    simp only [server] at takes
    exact absurd trivial takes
  | some parsed =>
    simp only [server] at takes ⊢
    cases f with
    | true =>
      simp only [if_true] at takes ⊢
      cases p with
      | true =>
        simp only [true_and,not_or,not_exists,not_and] at takes
        obtain ⟨done,last,sets,is⟩ := @forwarderTakes N order (setServer config parsed) w b (by simpa using takes.1)
          (fun e mem => takes.2 e mem)
        rw [if_pos rfl,sets]
        exact ⟨_,rfl,fun numerals => listServes (fun e mem => takes.2 e mem) is numerals⟩
      | false =>
        cases x with
        | true => exact ⟨_,rfl,fun _ => ⟨by simp [uses],fun n mem => .inl mem⟩⟩
        | false => exact ⟨_,rfl,fun _ => ⟨by simp [uses],fun n mem => .inl mem⟩⟩
    | false =>
      simp only [Bool.false_eq_true,if_false,not_or] at takes ⊢
      rw [if_neg (by simpa [setServer] using takes.1)]
      cases p with
      | true =>
        simp only [true_and,not_or,not_lt] at takes
        obtain ⟨done,stores⟩ := @PairText.storesSome (setServer config parsed) _ takes.2.1.1 takes.2.1.2
        simp only [Bool.not_false,Bool.true_or,Bool.and_self,if_true,pairStored,stores]
        refine ⟨_,rfl,fun numerals => ⟨pairIs stores numerals _,fun n mem => .inl ?_⟩⟩
        have same : done.addrList = (setServer config parsed).addrList := storesList stores
        have mem' : n ∈ done.addrList := mem
        rwa [same] at mem'
      | false =>
        cases x with
        | true =>
          obtain ⟨done,t,sets,text,port,same⟩ := @listenTakes (setServer config parsed) (t₁.getD []) (by
            simpa using takes.2.2)
          simp only [Bool.not_false,Bool.or_true,Bool.and_self,Bool.false_eq_true,if_false,if_true,sets]
          refine ⟨_,rfl,fun numerals => ⟨?_,fun n mem => .inl ?_⟩⟩
          · have numeral := numerals t (by simp [portTexts,text])
            intro use mem
            simp only [uses,Bool.false_eq_true,if_false,if_true,text,Option.toList_some,List.map_cons,List.map_nil,
              List.mem_singleton] at mem
            rw [mem]
            exact boundIs numeral port
          · have mem' : n ∈ done.addrList := mem
            rwa [same] at mem'
        | false => exact ⟨_,rfl,fun _ => ⟨by simp [uses],fun n mem => .inl mem⟩⟩

theorem portsExact (N : InetPton) (order : ByteOrder) (config : Config) (f p x : Bool) (t₁ t₂ w b u : Option Text) :
    PortsExact N order config f p x t₁ t₂ w b u ↔
      Refuses N f p x t₁ t₂ w b ∨ ∀ t ∈ portTexts f p x t₁ w b, Numeral t := by
  constructor
  · intro exact'
    by_cases refuses : Refuses N f p x t₁ t₂ w b
    · exact .inl refuses
    · obtain ⟨done,parses,-⟩ := @clientTakes N order config f p x t₁ t₂ w b u refuses
      exact .inr (exact' done parses).1
  · intro condition done parses
    by_cases refuses : Refuses N f p x t₁ t₂ w b
    · have fails := @clientRefuses N order config f p x t₁ t₂ w b u refuses
      rw [parses] at fails
      contradiction
    · have numerals := condition.resolve_left refuses
      obtain ⟨done',parses',serves⟩ := @clientTakes N order config f p x t₁ t₂ w b u refuses
      rw [parses] at parses'
      cases (Prod.mk.inj parses').2
      exact ⟨numerals,serves numerals⟩

/- -f -p -w 1.2.3.4:65616 h, which opens port 80. -/
theorem portAliased : ¬ ∀ (N : InetPton) (order : ByteOrder) (config : Config) (f p x : Bool)
    (t₁ t₂ w b u : Option Text),
    PortsExact N order config f p x t₁ t₂ w b u := by
  intro always
  have opened : parseClient inetPton .little configNew true true false (some [104]) none
      (some [49,46,50,46,51,46,52,58,54,53,54,49,54]) none none =
        (0,(parseClient inetPton .little configNew true true false (some [104]) none
          (some [49,46,50,46,51,46,52,58,54,53,54,49,54]) none none).2) := by decide +kernel
  have numeral := (always inetPton .little configNew true true false (some [104]) none
    (some [49,46,50,46,51,46,52,58,54,53,54,49,54]) none none _ opened).1 [54,53,54,49,54] (by decide +kernel)
  exact absurd numeral.small (by decide)

end clients

end HevFsh.PortNumbers
