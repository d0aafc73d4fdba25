import HevFsh.AddrList
import HevFsh.WireFormat

/-! The port forwarder from the text of its policy to the address it dials:
hev_fsh_client_port_accept_task_entry on the list that parse_client has built. -/
namespace HevFsh.PortPolicy
open Protocol HostOrder Inet CText WireFormat Config CommandLine

inductive Target where
  | v4 (addr : In4Addr) (port : UInt16)
  | v6 (addr : In6Addr) (port : UInt16)
  deriving DecidableEq

/- From the bytes that were received to the socket address; `none` is quit. -/
def portAccept (order : ByteOrder) (list : List AddrListNode) (received : Bytes) : Option Target :=
  match PortInfo.load order received with
  | none => none
  | some mpinfo =>
      if addrListContains mpinfo.type.toNat mpinfo.addr.bytes mpinfo.port.toUInt32 list = 0 then none
      else if mpinfo.type = 4 then some (.v4 mpinfo.addr.first4 (ntohs order mpinfo.port))
      else if mpinfo.type = 6 then some (.v6 mpinfo.addr (ntohs order mpinfo.port))
      else none

structure PortMessage where
  type : UInt8
  high : UInt8
  low : UInt8
  addr : In6Addr
  deriving DecidableEq

def PortMessage.bytes (m : PortMessage) : Bytes := m.type :: m.high :: m.low :: m.addr.bytes

def PortMessage.port (m : PortMessage) : UInt16 := join m.high m.low

def PortMessage.address (m : PortMessage) : Option In6Addr :=
  if m.type = 4 then some m.addr.first4.mapped
  else if m.type = 6 then some m.addr
  else none

def PortMessage.target (m : PortMessage) : Option Target :=
  if m.type = 4 then some (.v4 m.addr.first4 m.port)
  else if m.type = 6 then some (.v6 m.addr m.port)
  else none

def Named (N : InetPton) (es : List (Option Element)) (m : PortMessage) : Prop :=
  ∃ e, some e ∈ es ∧ ∃ a, e.address N = some a ∧ m.address = some a ∧ decValue e.port = m.port.toNat

section checking
variable {N : InetPton} {order : ByteOrder} {action : Int} {m : PortMessage} {e : Element}

theorem acceptMessage (order : ByteOrder) (list : List AddrListNode) (m : PortMessage) :
    portAccept order list m.bytes =
      if addrListContains m.type.toNat m.addr.bytes (load16 order (m.high,m.low)).toUInt32 list = 0 then none
      else m.target := by
  have loads : PortInfo.load order m.bytes = some ⟨m.type,load16 order (m.high,m.low),m.addr⟩ := by
    simp [PortInfo.load,PortMessage.bytes,m.addr.size]
  have port : ntohs order (load16 order (m.high,m.low)) = m.port := by
    rw [ntohs,storeLoad]
    rfl
  unfold portAccept PortMessage.target
  rw [loads]
  simp only [port]

theorem portLoads (m : PortMessage) : m.port = load16 .big (m.high,m.low) := rfl

theorem portMatches (order : ByteOrder) (v : UInt16) (m : PortMessage) :
    (load16 order (m.high,m.low)).toUInt32 = (htons order v).toUInt32 ↔ v = m.port := by
  constructor
  · intro same
    have value := congrArg (ntohs order) (UInt16.toUInt32_inj.mp same)
    rw [ntohsHtons,ntohs,storeLoad] at value
    exact value.symm
  · rintro rfl
    have stored : store16 .big m.port = (m.high,m.low) := by
      rw [portLoads,storeLoad]
    rw [htons,stored]

abbrev hits (order : ByteOrder) (m : PortMessage) (n : AddrListNode) : Prop :=
  Hits m.type.toNat m.addr.bytes (load16 order (m.high,m.low)).toUInt32 n

theorem typeNumber (t k : UInt8) : (t.toNat : Int) = k.toNat ↔ t = k := by
  rw [Int.natCast_inj,UInt8.toNat_inj]

theorem hits4 (order : ByteOrder) (action : Int) (m : PortMessage) (a : In4Addr) (v : UInt16) :
    hits order m ⟨4,action,memcpy16 4 a.bytes,(htons order v).toUInt32⟩ ↔
      m.type = 4 ∧ v = m.port ∧ m.addr.first4 = a := by
  have copied : (memcpy16 4 a.bytes).bytes.take 4 = a.bytes := by
    have whole : a.bytes.take 4 = a.bytes := List.take_of_length_le (Nat.le_of_eq a.size)
    simp [memcpy16,a.size,List.take_take,whole]
  have same : memcmp (m.addr.bytes.take 4) a.bytes = 0 ↔ m.addr.first4 = a := by
    rw [memcmpZero (by simp [m.addr.size,a.size])]
    cases a
    simp [In6Addr.first4]
  have type : (m.type.toNat : Int) = 4 ↔ m.type = 4 := typeNumber m.type 4
  unfold hits Hits
  rw [portMatches,type]
  refine and_congr_right (fun four => and_congr_right (fun _ => ?_))
  rw [addrMatches,if_pos (type.mpr four),copied,decide_eq_true_iff]
  exact same

theorem hits6 (order : ByteOrder) (action : Int) (m : PortMessage) (a : In6Addr) (v : UInt16) :
    hits order m ⟨6,action,memcpy16 16 a.bytes,(htons order v).toUInt32⟩ ↔
      m.type = 6 ∧ v = m.port ∧ m.addr = a := by
  have whole : a.bytes.take 16 = a.bytes := List.take_of_length_le (Nat.le_of_eq a.size)
  have whole' : m.addr.bytes.take 16 = m.addr.bytes := List.take_of_length_le (Nat.le_of_eq m.addr.size)
  have copied : (memcpy16 16 a.bytes).bytes.take 16 = a.bytes := by
    simp [memcpy16,a.size,whole]
  have same : memcmp m.addr.bytes a.bytes = 0 ↔ m.addr = a := by
    rw [memcmpZero (m.addr.size.trans a.size.symm)]
    cases m.addr
    cases a
    simp
  have type : (m.type.toNat : Int) = 6 ↔ m.type = 6 := typeNumber m.type 6
  unfold hits Hits
  rw [portMatches,type]
  refine and_congr_right (fun six => and_congr_right (fun _ => ?_))
  have number : (m.type.toNat : Int) = 6 := type.mpr six
  rw [addrMatches,if_neg (by omega),if_pos number,copied,whole',decide_eq_true_iff]
  exact same

theorem addressIff (m : PortMessage) (a : In6Addr) :
    m.address = some a ↔ (m.type = 4 ∧ m.addr.first4.mapped = a) ∨ (m.type = 6 ∧ m.addr = a) := by
  unfold PortMessage.address
  split
  · rename_i is
    simp [is]
  · split
    · rename_i notFour is
      simp [is]
    · rename_i notFour notSix
      simp [notFour,notSix]

theorem hitsNodes (order : ByteOrder) (action : Int) (m : PortMessage) (e : Element) :
    (∃ n ∈ e.nodes N order action, hits order m n) ↔
      (∃ a, e.address N = some a ∧ m.address = some a) ∧ e.number = m.port := by
  have other : m.type = 6 → m.type ≠ 4 := fun six four => by
    rw [six] at four
    contradiction
  unfold Element.nodes Element.address
  cases four : N.v4 e.addr with
  | some a =>
    simp only [List.mem_cons,List.not_mem_nil,or_false,exists_eq_or_imp,exists_eq_left,hits4,hits6,
      Option.some.injEq,exists_eq_left',addressIff,mappedInjective]
    tauto
  | none =>
    cases six : N.v6 e.addr with
    | none => simp
    | some a =>
      simp only [Option.some.injEq,exists_eq_left',addressIff,mappedIff]
      split
      · rename_i mapped
        simp only [List.mem_cons,List.not_mem_nil,or_false,exists_eq_or_imp,exists_eq_left,hits4,hits6,mapped,
          eq_comm (a := a.last4)]
        tauto
      · rename_i mapped
        simp only [List.mem_cons,List.not_mem_nil,or_false,exists_eq_left,hits6,mapped]
        tauto

theorem hitsList (order : ByteOrder) (action : Int) (m : PortMessage) {es : List (Option Element)}
    (ported : ∀ e, some e ∈ es → e.Port) :
    (∃ n ∈ listNodes N order action es, hits order m n) ↔ Named N es m := by
  have number : ∀ e, some e ∈ es → (e.number = m.port ↔ decValue e.port = m.port.toNat) := by
    intro e mem
    have small := (ported e mem).small
    rw [← UInt16.toNat_inj,Element.number,UInt16.toNat_ofNat_of_lt' (Nat.lt_of_le_of_lt small (by decide))]
  have each : (∃ n ∈ listNodes N order action es, hits order m n) ↔
      ∃ e, some e ∈ es ∧ ∃ n ∈ e.nodes N order action, hits order m n := by
    clear ported number
    induction es with
    | nil => simp [listNodes]
    | cons e es ih =>
      cases e with
      | none =>
        rw [listNodes,ih]
        simp
      | some e =>
        simp only [listNodes,List.mem_append,or_and_right,exists_or,ih,List.mem_cons,Option.some.injEq,
          exists_eq_left]
        exact or_comm
  rw [each]
  unfold Named
  refine exists_congr (fun e => and_congr_right (fun mem => ?_))
  rw [hitsNodes,number e mem]
  constructor
  · rintro ⟨⟨a,is,address⟩,port⟩
    exact ⟨a,is,address,port⟩
  · rintro ⟨a,is,address,port⟩
    exact ⟨⟨a,is,address⟩,port⟩

theorem nodesTyped {n : AddrListNode} (mem : n ∈ e.nodes N order action) : n.type ≠ 0 ∧ n.action = action := by
  unfold Element.nodes at mem
  cases four : N.v4 e.addr with
  | some a =>
    rw [four] at mem
    rcases List.mem_pair.mp mem with rfl | rfl <;> simp
  | none =>
    cases six : N.v6 e.addr with
    | none => simp [four,six] at mem
    | some a =>
      rw [four,six] at mem
      simp only at mem
      split at mem
      · rcases List.mem_pair.mp mem with rfl | rfl <;> simp
      · cases List.mem_singleton.mp mem
        simp

theorem listTyped {es : List (Option Element)} :
    ∀ n ∈ listNodes N order action es, n.type ≠ 0 ∧ n.action = action := by
  induction es with
  | nil => simp [listNodes]
  | cons e es ih =>
    intro n mem
    cases e with
    | none => exact ih n mem
    | some e =>
      rcases List.mem_append.mp mem with later | here
      · exact ih n later
      · exact nodesTyped here

structure Enforces (order : ByteOrder) (list : List AddrListNode) (allowed : PortMessage → Prop) : Prop where
  dials : ∀ m : PortMessage, (portAccept order list m.bytes).isSome ↔ (m.type = 4 ∨ m.type = 6) ∧ allowed m
  exactly : ∀ (m : PortMessage) (t : Target), portAccept order list m.bytes = some t → m.target = some t

theorem targetSome (m : PortMessage) : m.target.isSome ↔ m.type = 4 ∨ m.type = 6 := by
  unfold PortMessage.target
  split
  · rename_i four
    simp [four]
  · split
    · rename_i six
      simp [six]
    · rename_i notFour notSix
      simp [notFour,notSix]

theorem acceptEnforces {list : List AddrListNode} {allowed : PortMessage → Prop}
    (checks : ∀ m : PortMessage,
      addrListContains m.type.toNat m.addr.bytes (load16 order (m.high,m.low)).toUInt32 list ≠ 0 ↔ allowed m) :
    Enforces order list allowed where
  dials := by
    intro m
    rw [acceptMessage,← targetSome,← checks m]
    split
    · rename_i refused
      simp [refused]
    · rename_i passed
      simp [passed]
  exactly := by
    intro m t dialled
    rw [acceptMessage] at dialled
    split at dialled <;> try contradiction
    exact dialled

theorem listChecks {es : List (Option Element)} (ported : ∀ e, some e ∈ es → e.Port)
    (last : Int) (m : PortMessage) :
    addrListContains m.type.toNat m.addr.bytes (load16 order (m.high,m.low)).toUInt32
        (listNodes N order action es ++ [⟨0,last,.zero,0⟩]) ≠ 0 ↔
      (Named N es m ∧ action ≠ 0) ∨ (¬ Named N es m ∧ last ≠ 0) := by
  rw [containsList listTyped rfl,← hitsList order action m ported]
  split
  · rename_i named
    simp [hits,named]
  · rename_i free
    simp [hits,free]

end checking

section client
variable {N : InetPton} {order : ByteOrder} {config : Config} {sa : Text} {x : Bool} {t₂ w b u : Option Text}

theorem catchAll (config : Config) (fresh : config.addrList = []) (last : Int) :
    (addrListAdd config 0 [] 0 last).addrList = [⟨0,last,.zero,0⟩] := by
  simp [addrListAdd,fresh]

theorem clientForwards (server : (parseAddr sa).isSome) : ∃ config' : Config, config'.addrList = config.addrList ∧
    parseClient N order config true true x (some sa) t₂ w b u =
      match parsePortForwarder N order config' w b with
      | (res,config'') => if res < 0 then (-1,config'') else (0,setMode config'' .forwarderPort) := by
  obtain ⟨parsed,is⟩ := Option.isSome_iff_exists.mp server
  refine ⟨setServer config parsed,rfl,?_⟩
  simp only [parseClient,Bool.not_true,Bool.false_and,Bool.false_eq_true,if_false,if_true,Option.bind_some,is]

structure PortPolicy (N : InetPton) (order : ByteOrder) (config : Config) (sa : Text) (x : Bool) (t₂ u : Option Text)
    (es : List (Option Element)) : Prop where
  white : (∀ e, some e ∈ es → e.Literal N) →
    ∃ config', parseClient N order config true true x (some sa) t₂ (some (listText es)) none u = (0,config') ∧
      Enforces order config'.addrList (Named N es)
  black : (∀ e, some e ∈ es → e.Literal N) →
    ∃ config', parseClient N order config true true x (some sa) t₂ none (some (listText es)) u = (0,config') ∧
      Enforces order config'.addrList (fun m => ¬ Named N es m)
  neither : ∃ config', parseClient N order config true true x (some sa) t₂ none none u = (0,config') ∧
    Enforces order config'.addrList (fun _ => True)
  refused : (∃ e, some e ∈ es ∧ e.NoLiteral N) →
    (parseClient N order config true true x (some sa) t₂ (some (listText es)) none u).1 = -1 ∧
    (parseClient N order config true true x (some sa) t₂ none (some (listText es)) u).1 = -1

theorem listEnforces (fresh : config.addrList = []) {es : List (Option Element)}
    (ported : ∀ e, some e ∈ es → e.Port)
    (action last : Int) {allowed : PortMessage → Prop}
    (means : ∀ m, (Named N es m ∧ action ≠ 0) ∨ (¬ Named N es m ∧ last ≠ 0) ↔ allowed m) :
    Enforces order (listNodes N order action es ++ (addrListAdd config 0 [] 0 last).addrList) allowed := by
  rw [catchAll config fresh]
  exact acceptEnforces (fun m => (listChecks ported last m).trans (means m))

theorem whiteEnforced (fresh : config.addrList = []) (server : (parseAddr sa).isSome) {es : List (Option Element)}
    (each : ∀ e, some e ∈ es → e.Port ∧ e.Literal N) :
    ∃ config', parseClient N order config true true x (some sa) t₂ (some (listText es)) none u = (0,config') ∧
      Enforces order config'.addrList (Named N es) := by
  obtain ⟨config',same,client⟩ := @clientForwards N order config sa x t₂ (some (listText es)) none u server
  rw [client,parsePortForwarder,parseLiterals each]
  exact ⟨_,rfl,listEnforces (same.trans fresh) (fun e mem => (each e mem).1) 1 0 (by simp)⟩

theorem blackEnforced (fresh : config.addrList = []) (server : (parseAddr sa).isSome) {es : List (Option Element)}
    (each : ∀ e, some e ∈ es → e.Port ∧ e.Literal N) :
    ∃ config', parseClient N order config true true x (some sa) t₂ none (some (listText es)) u = (0,config') ∧
      Enforces order config'.addrList (fun m => ¬ Named N es m) := by
  obtain ⟨config',same,client⟩ := @clientForwards N order config sa x t₂ none (some (listText es)) u server
  rw [client,parsePortForwarder,parseLiterals each]
  exact ⟨_,rfl,listEnforces (same.trans fresh) (fun e mem => (each e mem).1) 0 1 (by simp)⟩

theorem openEnforced (fresh : config.addrList = []) (server : (parseAddr sa).isSome) :
    ∃ config', parseClient N order config true true x (some sa) t₂ none none u = (0,config') ∧
      Enforces order config'.addrList (fun _ => True) := by
  obtain ⟨config',same,client⟩ := @clientForwards N order config sa x t₂ none none u server
  rw [client,parsePortForwarder]
  refine ⟨_,rfl,acceptEnforces (fun m => ?_)⟩
  have list : (setMode (addrListAdd config' 0 [] 0 1) .forwarderPort).addrList = [⟨0,1,.zero,0⟩] :=
    catchAll config' (same.trans fresh) 1
  rw [list]
  simp [addrListContains]

theorem clientList (server : (parseAddr sa).isSome) {es : List (Option Element)} {res : Int}
    (outcome : res = 0 ∨ res = -1)
    (parses : ∀ config action, (parseSetAddrList N order config (listText es) action).1 = res) :
    (parseClient N order config true true x (some sa) t₂ (some (listText es)) none u).1 = res ∧
      (parseClient N order config true true x (some sa) t₂ none (some (listText es)) u).1 = res := by
  constructor
  · obtain ⟨config',-,client⟩ := @clientForwards N order config sa x t₂ (some (listText es)) none u server
    rw [client,parsePortForwarder]
    simp only [parses]
    rcases outcome with rfl | rfl <;> rfl
  · obtain ⟨config',-,client⟩ := @clientForwards N order config sa x t₂ none (some (listText es)) u server
    rw [client,parsePortForwarder]
    simp only [parses]
    rcases outcome with rfl | rfl <;> rfl

theorem portPolicyHolds (N : InetPton) (order : ByteOrder) (config : Config) (fresh : config.addrList = [])
    (sa : Text) (server : (parseAddr sa).isSome) (x : Bool) (t₂ u : Option Text) (es : List (Option Element))
    (listed : ∀ e, some e ∈ es → e.Port ∧ (e.Literal N ∨ e.NoLiteral N)) :
    PortPolicy N order config sa x t₂ u es ↔
      ((∃ e, some e ∈ es ∧ e.NoLiteral N) → ∃ e, some e ∈ es ∧ e.NoLiteral N ∧ ¬ e.Trailed N) := by
  constructor
  · intro policy bad
    refine Classical.byContradiction (fun all => ?_)
    have taken : ∀ e, some e ∈ es → e.Port ∧ Taken N e := by
      intro e mem
      obtain ⟨port,kind⟩ := listed e mem
      refine ⟨port,kind.imp id (fun none' => ⟨none',?_⟩)⟩
      exact Classical.byContradiction (fun other => all ⟨e,mem,none',other⟩)
    have passes := (@clientList N order config sa x t₂ u server es 0 (.inl rfl) (fun _ _ => parseTaken taken)).1
    rw [(policy.refused bad).1] at passes
    contradiction
  · intro refuses
    constructor
    · exact fun literals => whiteEnforced fresh server (fun e mem => ⟨(listed e mem).1,literals e mem⟩)
    · exact fun literals => blackEnforced fresh server (fun e mem => ⟨(listed e mem).1,literals e mem⟩)
    · exact openEnforced fresh server
    · intro bad
      obtain ⟨e,mem,none',other⟩ := refuses bad
      have missed : ¬ Taken N e := by
        rintro (literal | trailed)
        · rcases literal with four | ⟨-,six⟩
          · simp [none'.not4] at four
          · simp [none'.not6] at six
        · exact other trailed.2
      exact clientList server (.inr rfl) (fun _ _ => parseRefused listed ⟨e,mem,missed⟩)

def mixedList : List (Option Element) :=
  [some ⟨false,[49,46,50,46,51,46,52],[56,48]⟩,none,some ⟨true,[58,58,49],[56,48,56,48]⟩]

theorem portPolicyHoldsMixed : PortPolicy inetPton .little configNew [104] false none none mixedList := by
  have literals : ∀ e, some e ∈ mixedList → e.Port ∧ e.Literal inetPton := by
    intro e mem
    simp only [mixedList,List.mem_cons,Option.some.injEq,List.not_mem_nil,or_false,reduceCtorEq,false_or] at mem
    rcases mem with rfl | rfl
    · exact ⟨⟨by decide +kernel,by decide +kernel,by decide +kernel⟩,.inl (by decide +kernel)⟩
    · exact ⟨⟨by decide +kernel,by decide +kernel,by decide +kernel⟩,.inr ⟨rfl,by decide +kernel⟩⟩
  have listed := fun e mem => (literals e mem).imp id (fun is => Or.inl (b := e.NoLiteral inetPton) is)
  refine (portPolicyHolds inetPton .little configNew rfl [104] (by decide +kernel) false
      none none mixedList listed).mpr ?_
  rintro ⟨e,mem,none'⟩
  rcases (literals e mem).2 with four | ⟨-,six⟩
  · simp [none'.not4] at four
  · simp [none'.not6] at six

def trailedList : List (Option Element) := [some ⟨false,[91,58,58,49,93,120],[56,48]⟩]

theorem trailedTaken : ¬ ∀ (N : InetPton) (order : ByteOrder) (config : Config), config.addrList = [] →
    ∀ sa : Text, (parseAddr sa).isSome → ∀ (x : Bool) (t₂ u : Option Text) (es : List (Option Element)),
      (∀ e, some e ∈ es → e.Port ∧ (e.Literal N ∨ e.NoLiteral N)) →
      PortPolicy N order config sa x t₂ u es := by
  intro always
  have port : (⟨false,[91,58,58,49,93,120],[56,48]⟩ : Element).Port := ⟨by decide +kernel,
      by decide +kernel,by decide +kernel⟩
  have none' : (⟨false,[91,58,58,49,93,120],[56,48]⟩ : Element).NoLiteral inetPton :=
    ⟨by decide +kernel,by decide +kernel,by decide +kernel,by decide +kernel⟩
  have policy := always inetPton .little configNew rfl [104] (by decide +kernel) false none none trailedList
    (fun e mem => by cases Option.some.inj (List.mem_singleton.mp mem); exact ⟨port,.inr none'⟩)
  have refused := (policy.refused ⟨_,List.mem_singleton.mpr rfl,none'⟩).1
  revert refused
  decide +kernel

end client

end HevFsh.PortPolicy
