import HevFsh.Protocol
import HevFsh.HostOrder
import HevFsh.Inet

/-! The packed structs of hev-fsh-protocol.h as they go over the wire, from a host of
one byte order to a host of the same or the other one. -/
namespace HevFsh.WireFormat
open Protocol HostOrder Inet

structure TermInfo where
  rows : UInt16
  columns : UInt16
  deriving DecidableEq

structure PortInfo where
  type : UInt8
  port : UInt16
  addr : In6Addr
  deriving DecidableEq

def bytes16 (order : ByteOrder) (v : UInt16) : Bytes := [(store16 order v).1,(store16 order v).2]

def TermInfo.store (order : ByteOrder) (m : TermInfo) : Bytes := bytes16 order m.rows ++ bytes16 order m.columns

def TermInfo.load (order : ByteOrder) : Bytes → Option TermInfo
  | [a,b,c,d] => some ⟨load16 order (a,b),load16 order (c,d)⟩
  | _ => none

def PortInfo.store (order : ByteOrder) (m : PortInfo) : Bytes := m.type :: bytes16 order m.port ++ m.addr.bytes

def PortInfo.load (order : ByteOrder) : Bytes → Option PortInfo
  | type::a::b::addr => if size : addr.length = 16 then some ⟨type,load16 order (a,b),⟨addr,size⟩⟩ else none
  | _ => none

inductive Value where
  | message (ver cmd : UInt8)
  | token (token : Token)
  | window (rows columns : UInt16)
  | target (type : UInt8) (port : UInt16) (addr : In6Addr)
  deriving DecidableEq

inductive Kind where
  | message | token | termInfo | portInfo
  deriving DecidableEq, Repr

def Value.kind : Value → Kind
  | .message _ _ => .message
  | .token _ => .token
  | .window _ _ => .termInfo
  | .target _ _ _ => .portInfo

def send (order : ByteOrder) : Value → Bytes
  | .message ver cmd => [ver,cmd]
  | .token token => token.bytes
  | .window rows columns => TermInfo.store order ⟨rows,columns⟩
  | .target type port addr => PortInfo.store order ⟨type,htons order port,addr⟩

def receive (order : ByteOrder) : Kind → Bytes → Option Value
  | .message,[ver,cmd] => some (.message ver cmd)
  | .message,_ => none
  | .token,bs => if size : bs.length = 16 then some (.token ⟨bs,size⟩) else none
  | .termInfo,bs => (TermInfo.load order bs).map (fun m => .window m.rows m.columns)
  | .portInfo,bs => (PortInfo.load order bs).map (fun m => .target m.type (ntohs order m.port) m.addr)

theorem termInfoWire (s r : ByteOrder) (m : TermInfo) :
    TermInfo.load r (m.store s) = some ⟨load16 r (store16 s m.rows),load16 r (store16 s m.columns)⟩ := rfl

theorem portInfoWire (s r : ByteOrder) (m : PortInfo) :
    PortInfo.load r (m.store s) = some ⟨m.type,load16 r (store16 s m.port),m.addr⟩ := by
  simp [PortInfo.load,PortInfo.store,bytes16,m.addr.size]

theorem windowReceived (s r : ByteOrder) (rows columns : UInt16) :
    receive r .termInfo (send s (.window rows columns)) = some (.window rows columns) ↔
      s = r ∨ (high rows = low rows ∧ high columns = low columns) := by
  have wire : receive r .termInfo (send s (.window rows columns)) =
      some (.window (load16 r (store16 s rows)) (load16 r (store16 s columns))) := by
    simp only [receive,send,termInfoWire,Option.map_some]
  rw [wire,Option.some.injEq,Value.window.injEq]
  by_cases same : s = r
  · subst same
    simp
  · rw [loadOther same,loadOther same,or_iff_right same]

theorem targetReceived (s r : ByteOrder) (type : UInt8) (port : UInt16) (addr : In6Addr) :
    receive r .portInfo (send s (.target type port addr)) = some (.target type port addr) := by
  simp only [receive,send,portInfoWire,Option.map_some,storeHtons,ntohs,storeLoad,loadStore]

def Value.symmetric : Value → Prop
  | .window rows columns => high rows = low rows ∧ high columns = low columns
  | _ => True

theorem wireUndone (s r : ByteOrder) (v : Value) :
    receive r v.kind (send s v) = some v ↔ s = r ∨ v.symmetric := by
  cases v with
  | message ver cmd => simp [Value.kind,receive,send,Value.symmetric]
  | token token => simp [Value.kind,receive,send,Value.symmetric,token.size]
  | window rows columns => exact windowReceived s r rows columns
  | target type port addr => simp [Value.kind,targetReceived,Value.symmetric]

theorem windowTurned : ¬ ∀ s r v, receive r (Value.kind v) (send s v) = some v := by
  intro always
  have read := always .little .big (.window 24 80)
  revert read
  decide

end HevFsh.WireFormat
