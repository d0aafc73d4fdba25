import HevFsh.Protocol
import HevFsh.Inet
import HevFsh.HostOrder

/-! The part of hev-fsh-config that the command line fills in, with the address list
of the port forwarder. A pointer to text is an optional text. -/
namespace HevFsh.Config
open Protocol Inet CText

inductive Mode where
  | none
  | server
  | forwarderTerm | forwarderPort | forwarderSock
  | connectorTerm | connectorPort | connectorSock
  deriving DecidableEq, Repr

structure AddrListNode where
  type : Int
  action : Int
  addr : In6Addr
  port : UInt32
  deriving DecidableEq

structure Config where
  mode : Mode
  serverAddress : Option Text
  serverPort : Option Text
  token : Option Text
  user : Option Text
  addrList : List AddrListNode
  localAddress : Option Text
  localPort : UInt32
  remoteAddress : Option Text
  remotePort : UInt32
  deriving DecidableEq

def loopback : Text := [49,50,55,46,48,46,48,46,49]

def anyAddress : Text := [48,46,48,46,48,46,48]

def configNew : Config where
  mode := .none
  serverAddress := none
  serverPort := some [54,51,51,57]
  token := none
  user := none
  addrList := []
  localAddress := some loopback
  localPort := 0
  remoteAddress := none
  remotePort := 0

def setMode (config : Config) (val : Mode) : Config :=
  { config with mode := val, serverAddress := match config.serverAddress with
      | some address => some address
      | none => if val = .server then some anyAddress else some loopback }

def memcpy16 (n : Nat) (src : Bytes) : In6Addr :=
  ⟨(src.take n ++ List.replicate 16 0).take 16,by simp⟩

def addrListAdd (config : Config) (type : Int) (addr : Bytes) (port : UInt32) (action : Int) : Config :=
  let copied := if type = 4 then memcpy16 4 addr else if type = 6 then memcpy16 16 addr else .zero
  { config with addrList := ⟨type,action,copied,port⟩ :: config.addrList }

def addrMatches (type : Int) (addr : Bytes) (iter : AddrListNode) : Bool :=
  if type = 4 then memcmp (addr.take 4) (iter.addr.bytes.take 4) = 0
  else if type = 6 then memcmp (addr.take 16) (iter.addr.bytes.take 16) = 0
  else false

def addrListContains (type : Int) (addr : Bytes) (port : UInt32) : List AddrListNode → Int
  | [] => 0
  | iter::next =>
      if iter.type = 0 then iter.action
      else if type = iter.type ∧ port = iter.port ∧ addrMatches type addr iter then iter.action
      else addrListContains type addr port next

section search
variable {type action : Int} {addr : Bytes} {port : UInt32} {nodes : List AddrListNode}

def Hits (type : Int) (addr : Bytes) (port : UInt32) (iter : AddrListNode) : Prop :=
  type = iter.type ∧ port = iter.port ∧ addrMatches type addr iter

instance (type : Int) (addr : Bytes) (port : UInt32) (iter : AddrListNode) : Decidable (Hits type addr port iter) := by
  unfold Hits; infer_instance

theorem containsList {last : AddrListNode} (typed : ∀ n ∈ nodes, n.type ≠ 0 ∧ n.action = action)
    (catchAll : last.type = 0) : addrListContains type addr port (nodes ++ [last]) =
      if ∃ n ∈ nodes, Hits type addr port n then action else last.action := by
  induction nodes with
  | nil => simp [addrListContains,catchAll]
  | cons n nodes ih =>
    have rest := ih (fun m mem => typed m (List.mem_cons_of_mem _ mem))
    obtain ⟨real,same⟩ := typed n List.mem_cons_self
    rw [List.cons_append,addrListContains,if_neg real,rest]
    by_cases hit : Hits type addr port n
    · have found : ∃ m ∈ n :: nodes, Hits type addr port m := ⟨n,List.mem_cons_self,hit⟩
      rw [if_pos found]
      unfold Hits at hit
      rw [if_pos hit,same]
    · simp only [List.mem_cons,exists_eq_or_imp,hit,false_or]
      unfold Hits at hit
      rw [if_neg hit]

end search

end HevFsh.Config
