import HevFsh.PortPolicy

/-! The port connector: the address text and port that parse_set_addr_pair stores, the
message hev_fsh_client_port_connect_task_entry makes of them, and what a forwarder
dials for it. -/
namespace HevFsh.PortTarget
open Protocol HostOrder Inet CText WireFormat Config CommandLine PortPolicy

def portInfo (N : InetPton) (order : ByteOrder) (addr : Text) (port : UInt32) : PortInfo :=
  let nport := htons order port.toUInt16
  match N.v4 addr with
  | some a => ⟨4,nport,In6Addr.zero.setFirst4 a⟩
  | none =>
      let dirty := In6Addr.zero.setFirst4 (N.left4 addr In6Addr.zero.first4)
      match N.v6 addr with
      | some a => ⟨6,nport,a⟩
      | none => ⟨6,nport,N.left6 addr dirty⟩

def portConnect (N : InetPton) (order : ByteOrder) (config : Config) : Bytes :=
  (portInfo N order (config.remoteAddress.getD []) config.remotePort).store order

def leftover (N : InetPton) (addr : Text) : In6Addr :=
  N.left6 addr (In6Addr.zero.setFirst4 (N.left4 addr In6Addr.zero.first4))

def Denotes (N : InetPton) (addr : Text) (port : Nat) : Target → Prop
  | .v4 a p => N.v4 addr = some a ∧ p.toNat = port
  | .v6 a p => N.v4 addr = none ∧ N.v6 addr = some a ∧ p.toNat = port

structure TargetKept (N : InetPton) (addr : Text) (port : Nat) (dialled : Option Target) : Prop where
  dials : ∀ t, dialled = some t → Denotes N addr port t
  refuses : N.v4 addr = none → N.v6 addr = none → dialled = none

section targets
variable {N : InetPton} {s r : ByteOrder} {list : List AddrListNode} {addr : Text} {port : UInt32}

def sent (N : InetPton) (addr : Text) (port : UInt32) : PortMessage :=
  let number := port.toUInt16
  match N.v4 addr with
  | some a => ⟨4,high number,low number,In6Addr.zero.setFirst4 a⟩
  | none => match N.v6 addr with
      | some a => ⟨6,high number,low number,a⟩
      | none => ⟨6,high number,low number,leftover N addr⟩

theorem infoSent (N : InetPton) (order : ByteOrder) (addr : Text) (port : UInt32) :
    (portInfo N order addr port).store order = (sent N addr port).bytes := by
  have number : bytes16 order (htons order port.toUInt16) = [high port.toUInt16,low port.toUInt16] := by
    rw [bytes16,storeHtons]
    rfl
  unfold portInfo sent
  cases N.v4 addr with
  | some a => simp [PortInfo.store,PortMessage.bytes,number]
  | none =>
    cases N.v6 addr with
    | some a => simp [PortInfo.store,PortMessage.bytes,number]
    | none => simp [PortInfo.store,PortMessage.bytes,number,leftover]

theorem sentPort (small : port.toNat ≤ 65535) (m : PortMessage) (front : m.high = high port.toUInt16)
    (back : m.low = low port.toUInt16) : m.port.toNat = port.toNat := by
  rw [PortMessage.port,front,back,joinParts]
  simp
  omega

theorem firstSet (a : In4Addr) : (In6Addr.zero.setFirst4 a).first4 = a := by
  cases a with
  | mk bytes size => simp [In6Addr.setFirst4,In6Addr.first4,← size]

theorem pairStores {config : Config} {str : Text} (ok : (parseSetAddrPair config str).1 = 0) :
    ∃ addr, (parseSetAddrPair config str).2.remoteAddress = some addr := by
  revert ok
  unfold parseSetAddrPair
  cases parseAddrPair str with
  | none => intro ok; contradiction
  | some found =>
    obtain ⟨b,ps⟩ := found
    match ps with
    | [] => intro ok; contradiction
    | [_] => intro ok; contradiction
    | [_,_] => exact fun _ => ⟨_,rfl⟩
    | [_,_,_] => exact fun _ => ⟨_,rfl⟩
    | [_,_,_,_] => exact fun _ => ⟨_,rfl⟩
    | _::_::_::_::_::_ => intro ok; contradiction

theorem literalKept (small : port.toNat ≤ 65535) (literal : (N.v4 addr).isSome ∨ (N.v6 addr).isSome) :
    TargetKept N addr port.toNat (portAccept r list (sent N addr port).bytes) where
  dials := by
    intro t dialled
    rw [acceptMessage] at dialled
    split at dialled <;> try contradiction
    unfold sent at dialled
    cases four : N.v4 addr with
    | some a =>
      simp only [four,PortMessage.target,if_true] at dialled
      cases Option.some.inj dialled
      exact ⟨by rw [firstSet]; exact four,sentPort small _ rfl rfl⟩
    | none =>
      cases six : N.v6 addr with
      | some a =>
        simp only [four,six,PortMessage.target] at dialled
        rw [if_neg (by decide),if_true] at dialled
        cases Option.some.inj dialled
        exact ⟨four,six,sentPort small _ rfl rfl⟩
      | none => simp [four,six] at literal
  refuses := by
    intro not4 not6
    simp [not4,not6] at literal

theorem leftoverRefused (not4 : N.v4 addr = none) (not6 : N.v6 addr = none) :
    portAccept r list (sent N addr port).bytes = none ↔
      addrListContains 6 (leftover N addr).bytes (htons r port.toUInt16).toUInt32 list = 0 := by
  have message : sent N addr port = ⟨6,high port.toUInt16,low port.toUInt16,leftover N addr⟩ := by
    simp only [sent,not4,not6]
  have loads : load16 r (high port.toUInt16,low port.toUInt16) = htons r port.toUInt16 := rfl
  rw [acceptMessage,message]
  simp only [loads]
  split
  · rename_i refused
    simpa using refused
  · rename_i passed
    simpa [PortMessage.target] using passed

theorem targetsKept (N : InetPton) (s r : ByteOrder) (config : Config) (str : Text)
    (ok : (parseSetAddrPair config str).1 = 0) (small : (parseSetAddrPair config str).2.remotePort.toNat ≤ 65535)
    (list : List AddrListNode) : ∃ addr port, (parseSetAddrPair config str).2.remoteAddress = some addr ∧
      (parseSetAddrPair config str).2.remotePort = port ∧
      (TargetKept N addr port.toNat (portAccept r list (portConnect N s (parseSetAddrPair config str).2)) ↔
        (N.v4 addr).isSome ∨ (N.v6 addr).isSome ∨
          addrListContains 6 (leftover N addr).bytes (htons r port.toUInt16).toUInt32 list = 0) := by
  obtain ⟨addr,stored⟩ := pairStores ok
  refine ⟨addr,_,stored,rfl,?_⟩
  have wire : portConnect N s (parseSetAddrPair config str).2 =
      (sent N addr (parseSetAddrPair config str).2.remotePort).bytes := by
    rw [portConnect,stored,Option.getD_some,infoSent]
  rw [wire]
  constructor
  · intro kept
    by_cases literal : (N.v4 addr).isSome ∨ (N.v6 addr).isSome
    · exact literal.imp id .inl
    · simp only [not_or,Option.not_isSome_iff_eq_none] at literal
      exact .inr (.inr ((leftoverRefused literal.1 literal.2).mp (kept.refuses literal.1 literal.2)))
  · intro condition
    by_cases literal : (N.v4 addr).isSome ∨ (N.v6 addr).isSome
    · exact literalKept small literal
    · simp only [not_or,Option.not_isSome_iff_eq_none] at literal
      have refused := (condition.resolve_left (by simp [literal.1])).resolve_left (by simp [literal.2])
      have nothing := (leftoverRefused literal.1 literal.2).mpr refused
      exact ⟨fun t dialled => by rw [nothing] at dialled; contradiction,fun _ _ => nothing⟩

def loopbackPair : Text := [49,50,55,46,48,46,48,46,49,58,56,48]

theorem targetsKeptLoopback : (parseSetAddrPair configNew loopbackPair).1 = 0 ∧
    (portAccept .big [⟨0,1,.zero,0⟩] (portConnect inetPton .little
    (parseSetAddrPair configNew loopbackPair).2)).isSome ∧
    ∃ addr port, (parseSetAddrPair configNew loopbackPair).2.remoteAddress = some addr ∧
      TargetKept inetPton addr port
        (portAccept .big [⟨0,1,.zero,0⟩] (portConnect inetPton .little
        (parseSetAddrPair configNew loopbackPair).2)) := by
  refine ⟨by decide +kernel,by decide +kernel,?_⟩
  obtain ⟨addr,port,stored,-,kept⟩ := targetsKept inetPton .little .big configNew loopbackPair
      (by decide +kernel) (by decide +kernel)
    [⟨0,1,.zero,0⟩]
  refine ⟨addr,_,stored,kept.mpr (.inl ?_)⟩
  have is : (parseSetAddrPair configNew loopbackPair).2.remoteAddress = some loopback := by decide +kernel
  rw [is] at stored
  cases Option.some.inj stored
  decide +kernel

def namePair : Text := [108,111,99,97,108,104,111,115,116,58,56,48]

theorem nameDialled : ¬ ∀ (N : InetPton) (s r : ByteOrder) (config : Config) (str addr : Text)
    (list : List AddrListNode),
    (parseSetAddrPair config str).1 = 0 → (parseSetAddrPair config str).2.remoteAddress = some addr →
      (parseSetAddrPair config str).2.remotePort.toNat ≤ 65535 →
      TargetKept N addr (parseSetAddrPair config str).2.remotePort.toNat
        (portAccept r list (portConnect N s (parseSetAddrPair config str).2)) := by
  intro always
  have kept := always inetPton .little .little configNew namePair [108,111,99,97,108,104,111,115,116]
    [⟨0,1,.zero,0⟩] (by decide +kernel) (by decide +kernel) (by decide +kernel)
  have refused := kept.refuses (by decide +kernel) (by decide +kernel)
  revert refused
  decide +kernel

end targets

end HevFsh.PortTarget
