import HevFsh.Custody
import HevFsh.PortTarget
import HevFsh.TokenText
import HevFsh.Transitions

/-! The client tasks of a process: connectors, acceptors and the listeners that start a
connector for every connection they take. A task runs from one blocking call to the
next; what the calls in between return comes with the return of the blocking one. -/
namespace HevFsh.ClientTask
open Protocol HostOrder Inet WireFormat PortPolicy PortTarget TokenText Transitions

structure Key where
  key : Bytes
  salt : Bytes
  deriving DecidableEq, Repr

structure CryptoInfo where
  iv : Bytes
  key : Bytes
  salt : Bytes
  recSeq : Bytes
  deriving DecidableEq, Repr

def cryptoInfo (key : Key) (iv : Bytes) : CryptoInfo := ⟨iv,key.key,key.salt,List.replicate 8 0⟩

structure Host where
  config : Config.Config
  key : Option Key
  inetPton : InetPton
  order : ByteOrder

inductive Kind where
  | portConnect | sockConnect | termConnect
  | portAccept | sockAccept | termAccept
  | portListen | sockListen
  deriving DecidableEq, Repr

/- The blocking call that a task is in. `own` is a number that is closed behind it. -/
inductive Pc where
  | absent
  | ready
  | connecting (fd : Int)
  | sendMessage (sent : Nat)
  | sendToken (token : Token) (sent : Nat)
  | sendAccept (sent : Nat)
  | sendIv (iv : Bytes) (sent : Nat)
  | recvIv
  | sendInfo (info : Bytes) (sent : Nat)
  | recvInfo
  | dialing (lfd : Int)
  | relay (ifd ofd : Int) (own : Option Int)
  | serving
  | accepting
  | ended
  deriving DecidableEq, Repr

/- `baseFd` is that of the base class, `fd` that of the port and sock connectors. -/
structure Client where
  kind : Kind
  token : Token
  baseFd : Int
  fd : Int
  pc : Pc
  deriving DecidableEq, Repr

structure Process where
  client : Nat → Client
  count : Nat
  table : Custody.Table Nat

/- `tls` and `ok` say that none of the setsockopt calls, and none of the other calls up
to the next blocking one, has failed; `fd` is what socket or forkpty gives. -/
structure Results where
  tls : Bool
  ok : Bool
  iv : Bytes
  window : TermInfo
  fd : Option Int
  deriving DecidableEq

inductive Action where
  | spawn (kind : Kind) (token : Token)
  | noSocket (i : Nat)
  | socket (i : Nat) (fd : Int) (cloexec : Bool)
  | listens (i : Nat) (fd : Int) (ok : Bool)
  | connectReturn (i : Nat) (res : Int)
  | send (i n : Nat)
  | sendReturn (i : Nat) (res : Int) (r : Results)
  | recvReturn (i : Nat) (bytes : Option Bytes) (r : Results)
  | relay (i : Nat) (toBase : Bool) (data : Bytes)
  | spliceReturn (i : Nat)
  | socksReturn (i : Nat)
  | accept (i : Nat) (fd : Int) (made : Bool)
  | opens (fd : Int)
  | closes (fd : Int)
  deriving DecidableEq

inductive Event where
  | descriptor (e : Custody.Event Nat)
  | connected (i : Nat) (k : Option Nat)
  | sent (i k : Nat) (bytes : Bytes)
  | received (i : Nat) (bytes : Bytes)
  | tx (i : Nat) (ci : CryptoInfo)
  | rx (i : Nat) (ci : CryptoInfo)
  | dialled (i : Nat) (target : Target)
  | relayed (i : Nat) (toBase : Bool) (k : Nat) (data : Bytes)
  deriving DecidableEq

abbrev Out := Process × List Event

def Process.become (σ : Process) (i : Nat) (c : Client) : Process :=
  {σ with client := Function.update σ.client i c}

def Process.goto (σ : Process) (i : Nat) (pc : Pc) : Process := σ.become i {σ.client i with pc := pc}

def acquire (σ : Process) (i : Nat) (fd : Int) : Out :=
  ({σ with table := σ.table.acquire (some i) fd},[.descriptor (.opened i fd σ.table.count)])

def close (i : Nat) (fd : Int) (out : Out) : Out :=
  ({out.1 with table := out.1.table.release fd},out.2 ++ [.descriptor (.closed i fd (out.1.table.fds fd))])

def closeValid (i : Nat) (fd : Int) (out : Out) : Out := if 0 ≤ fd then close i fd out else out

def Client.derivedFd (c : Client) : Int := match c.kind with
  | .portConnect | .sockConnect => c.fd
  | _ => -1

def unref (i : Nat) (out : Out) : Out :=
  let c := out.1.client i
  let out' := closeValid i c.baseFd (closeValid i c.derivedFd out)
  (out'.1.goto i .ended,out'.2)

/- The configured text as hev_fsh_protocol_token_from_string reads it. -/
def Host.token (h : Host) : Option Token := do
  let str ← h.config.token
  let (res,token) := tokenFromString .zero str
  if res = -1 then none else some token

def established (h : Host) (σ : Process) (i : Nat) (r : Results) (es : List Event) : Option Out :=
  let c := σ.client i
  match c.kind with
  | .portConnect => some (σ.goto i (.sendInfo (portConnect h.inetPton h.order h.config) 0),es)
  | .termConnect =>
      some (if r.ok then (σ.goto i (.sendInfo (r.window.store h.order) 0),es) else unref i (σ,es))
  | .sockConnect => some (σ.goto i (.relay c.fd c.fd none),es)
  | .portAccept | .termAccept => some (σ.goto i .recvInfo,es)
  | .sockAccept =>
      if r.ok then
        let σ' := {σ with table := σ.table.give c.baseFd}
        some (σ'.become i {c with baseFd := -1, pc := .serving},
          es ++ [.descriptor (.given i c.baseFd (σ.table.fds c.baseFd))])
      else some (unref i (σ,es))
  | .portListen | .sockListen => none

/- hev_fsh_client_base_encrypt up to its first send. -/
def encrypt (h : Host) (σ : Process) (i : Nat) (r : Results) : Option Out :=
  match h.key with
  | none => established h σ i r []
  | some _ => if r.iv.length = 8 then some (σ.goto i (.sendIv r.iv 0),[]) else none

def Client.locals (c : Client) : Int × Int :=
  if c.kind = .portConnect ∧ 0 ≤ c.fd then (c.fd,c.fd) else (0,1)

def sendReturn (h : Host) (σ : Process) (i : Nat) (res : Int) (r : Results) : Option Out :=
  let c := σ.client i
  match c.pc with
  | .sendMessage _ =>
      if res ≤ 0 then some (unref i (σ,[]))
      else match h.token with
        | none => some (unref i (σ,[]))
        | some token => some (σ.goto i (.sendToken token 0),[])
  | .sendToken _ _ | .sendAccept _ => if res ≤ 0 then some (unref i (σ,[])) else encrypt h σ i r
  | .sendIv iv _ =>
      if res ≤ 0 ∨ r.tls = false then some (unref i (σ,[]))
      else do
        let key ← h.key
        some (σ.goto i .recvIv,[.tx i (cryptoInfo key iv)])
  | .sendInfo _ _ =>
      if res ≤ 0 ∨ r.ok = false then some (unref i (σ,[]))
      else some (σ.goto i (.relay c.locals.1 c.locals.2 none),[])
  | _ => none

def Results.gives (σ : Process) (r : Results) : Bool := match r.fd with
  | none => true
  | some fd => 0 ≤ fd ∧ σ.table.fds fd = none

def recvInfo (h : Host) (σ : Process) (i : Nat) (info : Bytes) (r : Results) : Option Out :=
  match (σ.client i).kind,r.fd with
  | .portAccept,fd => match portAccept h.order h.config.addrList info with
      | none => some (unref i (σ,[.received i info]))
      | some target => match fd with
          | none => some (unref i (σ,[.received i info]))
          | some lfd =>
              let (σ₁,es) := acquire σ i lfd
              some (σ₁.goto i (.dialing lfd),.received i info :: .dialled i target :: es)
  | .termAccept,none => some (unref i (σ,[.received i info]))
  | .termAccept,some pfd =>
      let (σ₁,es) := acquire σ i pfd
      some (if r.ok then (σ₁.goto i (.relay pfd pfd (some pfd)),.received i info :: es)
        else unref i (close i pfd (σ₁,.received i info :: es)))
  | _,_ => none

def Kind.infoSize : Kind → Nat
  | .portAccept => 19
  | _ => 4

def recvReturn (h : Host) (σ : Process) (i : Nat) (bytes : Option Bytes) (r : Results) : Option Out :=
  match (σ.client i).pc,bytes with
  | .recvIv,none | .recvInfo,none => some (unref i (σ,[]))
  | .recvIv,some iv =>
      if iv.length ≠ 8 then none
      else if r.tls = false then some (unref i (σ,[.received i iv]))
      else do
        let key ← h.key
        established h σ i r [.received i iv,.rx i (cryptoInfo key iv)]
  | .recvInfo,some info =>
      if info.length = (σ.client i).kind.infoSize ∧ r.gives σ then recvInfo h σ i info r else none
  | _,_ => none

def connectReturn (σ : Process) (i : Nat) (res : Int) : Option Out :=
  let c := σ.client i
  match c.pc with
  | .connecting fd =>
      if res < 0 then some (unref i (close i fd (σ,[])))
      else
        let pc := match c.kind with
          | .portConnect | .sockConnect | .termConnect => Pc.sendMessage 0
          | _ => .sendAccept 0
        some (σ.become i {c with baseFd := fd, pc := pc},[.connected i (σ.table.fds fd)])
  | .dialing lfd =>
      if res < 0 then some (unref i (close i lfd (σ,[])))
      else some (σ.goto i (.relay lfd lfd (some lfd)),[])
  | _ => none

def Client.piece (c : Client) : Option (Bytes × Nat) := match c.pc with
  | .sendMessage sent => some (message 1 .connect [],sent)
  | .sendToken token sent => some (token.bytes,sent)
  | .sendAccept sent => some (message 1 .accept c.token.bytes,sent)
  | .sendIv iv sent => some (iv,sent)
  | .sendInfo info sent => some (info,sent)
  | _ => none

def Pc.advance (n : Nat) : Pc → Pc
  | .sendMessage sent => .sendMessage (sent + n)
  | .sendToken token sent => .sendToken token (sent + n)
  | .sendAccept sent => .sendAccept (sent + n)
  | .sendIv iv sent => .sendIv iv (sent + n)
  | .sendInfo info sent => .sendInfo info (sent + n)
  | pc => pc

def Kind.listener : Kind → Bool
  | .portListen | .sockListen => true
  | _ => false

def Kind.dispatch : Kind → Kind
  | .portListen => .portConnect
  | .sockListen => .sockConnect
  | kind => kind

def Process.add (σ : Process) (kind : Kind) (token : Token) (fd : Int) : Process :=
  {σ.become σ.count ⟨kind,token,-1,fd,.ready⟩ with count := σ.count + 1}

def step (h : Host) (σ : Process) : Action → Option Out
  | .spawn kind token => if kind = .sockConnect then none else some (σ.add kind token (-1),[])
  | .noSocket i => if (σ.client i).pc = .ready then some (unref i (σ,[])) else none
  | .socket i fd cloexec =>
      let c := σ.client i
      if c.pc = .ready ∧ c.kind.listener = false ∧ 0 ≤ fd ∧ σ.table.fds fd = none then
        let (σ₁,es) := acquire σ i fd
        some (if cloexec then (σ₁.goto i (.connecting fd),es) else unref i (close i fd (σ₁,es)))
      else none
  | .listens i fd ok =>
      let c := σ.client i
      if c.pc = .ready ∧ c.kind.listener = true ∧ 0 ≤ fd ∧ σ.table.fds fd = none then
        let (σ₁,es) := acquire σ i fd
        some (if ok then (σ₁.become i {c with baseFd := fd, pc := .accepting},es)
          else unref i (close i fd (σ₁,es)))
      else none
  | .connectReturn i res => connectReturn σ i res
  | .send i n => do
      let c := σ.client i
      let (bytes,sent) ← c.piece
      if 0 < n ∧ sent + n ≤ bytes.length then
        let k ← σ.table.fds c.baseFd
        some (σ.goto i (c.pc.advance n),[.sent i k ((bytes.drop sent).take n)])
      else none
  | .sendReturn i res r => sendReturn h σ i res r
  | .recvReturn i bytes r => recvReturn h σ i bytes r
  | .relay i toBase data => match (σ.client i).pc with
      | .relay _ ofd _ => do
          let k ← σ.table.fds (if toBase then (σ.client i).baseFd else ofd)
          some (σ,[.relayed i toBase k data])
      | _ => none
  | .spliceReturn i => match (σ.client i).pc with
      | .relay _ _ none => some (unref i (σ,[]))
      | .relay _ _ (some fd) => some (unref i (close i fd (σ,[])))
      | _ => none
  | .socksReturn i => if (σ.client i).pc = .serving then some (unref i (σ,[])) else none
  | .accept i fd made =>
      let c := σ.client i
      if c.pc = .accepting ∧ 0 ≤ fd ∧ σ.table.fds fd = none then
        some (if made then
          let (σ₁,es) := acquire σ σ.count fd
          (σ₁.add c.kind.dispatch .zero fd,es)
        else close i fd (acquire σ i fd))
      else none
  | .opens fd =>
      if 0 ≤ fd ∧ σ.table.fds fd = none then some ({σ with table := σ.table.acquire none fd},[])
      else none
  | .closes fd => do
      let _ ← σ.table.fds fd
      some ({σ with table := σ.table.release fd},[])

def stdTable : Custody.Table Nat := ((Custody.Table.empty.acquire none 0).acquire none 1).acquire none 2

def init : Process where
  client _ := ⟨.termConnect,.zero,-1,-1,.absent⟩
  count := 0
  table := stdTable

def machine (h : Host) : Machine Process Action Event := ⟨init,step h⟩

def Undisturbed (σ : Process) : Action → Prop
  | .closes fd => 2 < fd ∧ (σ.table.fds fd).bind σ.table.owner = none
  | _ => True

instance (σ : Process) (a : Action) : Decidable (Undisturbed σ a) := by
  unfold Undisturbed
  split <;> infer_instance

def Pc.runs : Pc → Bool
  | .absent | .ended => false
  | _ => true

def Pc.extra : Pc → List Int
  | .connecting fd | .dialing fd | .relay _ _ (some fd) => [fd]
  | _ => []

inductive Hears (h : Host) (σ : Process) (i : Nat) : List Event → Prop where
  | nothing : Hears h σ i []
  | refused {bytes} (pc : (σ.client i).pc = .recvIv ∨ (σ.client i).pc = .recvInfo) :
      Hears h σ i [.received i bytes]
  | keyed {iv key} (pc : (σ.client i).pc = .recvIv) (size : iv.length = 8) (agreed : h.key = some key) :
      Hears h σ i [.received i iv,.rx i (cryptoInfo key iv)]

inductive Encrypted (h : Host) (σ : Process) (i : Nat) : Action → List Event → Prop where
  | plain {res r} (pc : (∃ t n, (σ.client i).pc = .sendToken t n) ∨ ∃ n, (σ.client i).pc = .sendAccept n)
      (positive : 0 < res) (open' : h.key = none) : Encrypted h σ i (.sendReturn i res r) []
  | keyed {iv key r} (pc : (σ.client i).pc = .recvIv) (size : iv.length = 8) (agreed : h.key = some key) :
      Encrypted h σ i (.recvReturn i (some iv) r) [.received i iv,.rx i (cryptoInfo key iv)]

inductive Begins (h : Host) (c : Client) : Pc → Prop where
  | port (kind : c.kind = .portConnect) : Begins h c (.sendInfo (portConnect h.inetPton h.order h.config) 0)
  | term {window : TermInfo} (kind : c.kind = .termConnect) : Begins h c (.sendInfo (window.store h.order) 0)
  | sock (kind : c.kind = .sockConnect) : Begins h c (.relay c.fd c.fd none)
  | accept (kind : c.kind = .portAccept ∨ c.kind = .termAccept) : Begins h c .recvInfo

inductive Speaks (h : Host) (σ : Process) (i : Nat) : Action → Pc → List Event → Prop where
  | token {n res r t} (pc : (σ.client i).pc = .sendMessage n) (positive : 0 < res) (token : h.token = some t) :
      Speaks h σ i (.sendReturn i res r) (.sendToken t 0) []
  | seals {res r iv key} (pc : (∃ t n, (σ.client i).pc = .sendToken t n) ∨ ∃ n, (σ.client i).pc = .sendAccept n)
      (positive : 0 < res) (agreed : h.key = some key) (size : iv.length = 8) :
      Speaks h σ i (.sendReturn i res r) (.sendIv iv 0) []
  | sealed {iv n res r key} (pc : (σ.client i).pc = .sendIv iv n) (positive : 0 < res) (agreed : h.key = some key) :
      Speaks h σ i (.sendReturn i res r) .recvIv [.tx i (cryptoInfo key iv)]
  | begins {a pc es} (ready : Encrypted h σ i a es) (next : Begins h (σ.client i) pc) : Speaks h σ i a pc es
  | informed {info n res r} (pc : (σ.client i).pc = .sendInfo info n) (positive : 0 < res) :
      Speaks h σ i (.sendReturn i res r) (.relay (σ.client i).locals.1 (σ.client i).locals.2 none) []

inductive Goes (h : Host) (σ : Process) : Action → Out → Prop where
  | spawns {kind token} (top : kind ≠ .sockConnect) : Goes h σ (.spawn kind token) (σ.add kind token (-1),[])
  | leaves {a i es} (runs : (σ.client i).pc.runs = true) (alone : (σ.client i).pc.extra = [])
      (hears : Hears h σ i es) : Goes h σ a (unref i (σ,es))
  | fails {a i fd} (pc : (σ.client i).pc = .ready) (valid : 0 ≤ fd) (free : σ.table.fds fd = none) :
      Goes h σ a (unref i (close i fd (acquire σ i fd)))
  | connecting {a i fd} (pc : (σ.client i).pc = .ready) (client : (σ.client i).kind.listener = false)
      (valid : 0 ≤ fd) (free : σ.table.fds fd = none) :
      Goes h σ a ((acquire σ i fd).1.goto i (.connecting fd),(acquire σ i fd).2)
  | listening {a i fd} (pc : (σ.client i).pc = .ready) (listens : (σ.client i).kind.listener = true)
      (valid : 0 ≤ fd) (free : σ.table.fds fd = none) :
      Goes h σ a ((acquire σ i fd).1.become i {σ.client i with baseFd := fd, pc := .accepting},(acquire σ i fd).2)
  | loses {a i fd} (extra : (σ.client i).pc.extra = [fd]) : Goes h σ a (unref i (close i fd (σ,[])))
  | connected {a i fd pc} (here : (σ.client i).pc = .connecting fd)
      (next : pc = if (σ.client i).kind = .portConnect ∨ (σ.client i).kind = .sockConnect ∨
        (σ.client i).kind = .termConnect then Pc.sendMessage 0 else .sendAccept 0) :
      Goes h σ a (σ.become i {σ.client i with baseFd := fd, pc := pc},[.connected i (σ.table.fds fd)])
  | reached {a i lfd} (pc : (σ.client i).pc = .dialing lfd) : Goes h σ a (σ.goto i (.relay lfd lfd (some lfd)),[])
  | sends {i n bytes sent k} (piece : (σ.client i).piece = some (bytes,sent)) (positive : 0 < n)
      (room : sent + n ≤ bytes.length) (valid : σ.table.fds (σ.client i).baseFd = some k) :
      Goes h σ (.send i n) (σ.goto i ((σ.client i).pc.advance n),[.sent i k ((bytes.drop sent).take n)])
  | speaks {a i pc es} (spoken : Speaks h σ i a pc es) : Goes h σ a (σ.goto i pc,es)
  | gives {a i es} (ready : Encrypted h σ i a es) (kind : (σ.client i).kind = .sockAccept) :
      Goes h σ a ({σ with table := σ.table.give (σ.client i).baseFd}.become i
          {σ.client i with baseFd := -1, pc := .serving},
        es ++ [.descriptor (.given i (σ.client i).baseFd (σ.table.fds (σ.client i).baseFd))])
  | dials {a i lfd info target} (pc : (σ.client i).pc = .recvInfo) (kind : (σ.client i).kind = .portAccept)
      (size : info.length = 19) (allowed : portAccept h.order h.config.addrList info = some target)
      (valid : 0 ≤ lfd) (free : σ.table.fds lfd = none) :
      Goes h σ a ((acquire σ i lfd).1.goto i (.dialing lfd),
        .received i info :: .dialled i target :: (acquire σ i lfd).2)
  | shell {a i pfd info} (pc : (σ.client i).pc = .recvInfo) (kind : (σ.client i).kind = .termAccept)
      (valid : 0 ≤ pfd) (free : σ.table.fds pfd = none) :
      Goes h σ a ((acquire σ i pfd).1.goto i (.relay pfd pfd (some pfd)),.received i info :: (acquire σ i pfd).2)
  | noShell {a i pfd info} (pc : (σ.client i).pc = .recvInfo) (kind : (σ.client i).kind = .termAccept)
      (valid : 0 ≤ pfd) (free : σ.table.fds pfd = none) :
      Goes h σ a (unref i (close i pfd ((acquire σ i pfd).1,.received i info :: (acquire σ i pfd).2)))
  | relays {a i ifd ofd own k data} {toBase : Bool} (pc : (σ.client i).pc = .relay ifd ofd own)
      (valid : σ.table.fds (if toBase then (σ.client i).baseFd else ofd) = some k) :
      Goes h σ a (σ,[.relayed i toBase k data])
  | accepts {a i fd} (pc : (σ.client i).pc = .accepting) (valid : 0 ≤ fd) (free : σ.table.fds fd = none) :
      Goes h σ a ((acquire σ σ.count fd).1.add (σ.client i).kind.dispatch .zero fd,(acquire σ σ.count fd).2)
  | drops {a i fd} (pc : (σ.client i).pc = .accepting) (valid : 0 ≤ fd) (free : σ.table.fds fd = none) :
      Goes h σ a (close i fd (acquire σ i fd))
  | opens {fd} (valid : 0 ≤ fd) (free : σ.table.fds fd = none) :
      Goes h σ (.opens fd) ({σ with table := σ.table.acquire none fd},[])
  | closes {fd k} (on : σ.table.fds fd = some k) : Goes h σ (.closes fd) ({σ with table := σ.table.release fd},[])

section inversion
variable {h : Host} {σ : Process} {i : Nat} {a : Action} {r : Results} {es : List Event} {out : Out}

theorem encryptedHears (ready : Encrypted h σ i a es) : Hears h σ i es := by
  cases ready with
  | plain pc positive open' => exact .nothing
  | keyed pc size agreed => exact .keyed pc size agreed

theorem encryptedPlace (ready : Encrypted h σ i a es) :
    (σ.client i).pc.runs = true ∧ (σ.client i).pc.extra = [] := by
  cases ready with
  | plain pc positive open' =>
    rcases pc with ⟨t,n,pc⟩ | ⟨n,pc⟩ <;> simp [pc,Pc.runs,Pc.extra]
  | keyed pc size agreed => simp [pc,Pc.runs,Pc.extra]

theorem establishedGoes (ready : Encrypted h σ i a es) (taken : established h σ i r es = some out) :
    Goes h σ a out := by
  obtain ⟨runs,alone⟩ := encryptedPlace ready
  have leaving : Goes h σ a (unref i (σ,es)) := .leaves runs alone (encryptedHears ready)
  simp only [established] at taken
  split at taken <;> rename_i kind <;> try contradiction
  · cases Option.some.inj taken
    exact .speaks (.begins ready (.port kind))
  · split at taken <;> cases Option.some.inj taken
    · exact .speaks (.begins ready (.term kind))
    · exact leaving
  · cases Option.some.inj taken
    exact .speaks (.begins ready (.sock kind))
  · cases Option.some.inj taken
    exact .speaks (.begins ready (.accept (.inl kind)))
  · cases Option.some.inj taken
    exact .speaks (.begins ready (.accept (.inr kind)))
  · split at taken <;> cases Option.some.inj taken
    · exact .gives ready kind
    · exact leaving

theorem sendReturnGoes {res : Int} (taken : sendReturn h σ i res r = some out) :
    Goes h σ (.sendReturn i res r) out := by
  have leaving : (σ.client i).pc.runs = true → (σ.client i).pc.extra = [] →
      Goes h σ (.sendReturn i res r) (unref i (σ,[])) := fun runs alone => .leaves runs alone .nothing
  have encrypts : (∃ t n, (σ.client i).pc = .sendToken t n) ∨ (∃ n, (σ.client i).pc = .sendAccept n) →
      0 < res → encrypt h σ i r = some out → Goes h σ (.sendReturn i res r) out := by
    intro pc positive taken
    unfold encrypt at taken
    cases key : h.key with
    | none =>
      rw [key] at taken
      exact establishedGoes (.plain pc positive key) taken
    | some k =>
      simp only [key] at taken
      split at taken <;> try contradiction
      cases Option.some.inj taken
      exact .speaks (.seals pc positive key (by assumption))
  unfold sendReturn at taken
  cases pc : (σ.client i).pc <;> simp only [pc] at taken leaving encrypts <;> try contradiction
  case sendMessage n =>
    split at taken
    · cases Option.some.inj taken
      exact leaving rfl rfl
    · cases token : h.token with
      | none =>
        rw [token] at taken
        cases Option.some.inj taken
        exact leaving rfl rfl
      | some t =>
        rw [token] at taken
        cases Option.some.inj taken
        exact .speaks (.token pc (by omega) token)
  case sendToken t n =>
    split at taken
    · cases Option.some.inj taken
      exact leaving rfl rfl
    · exact encrypts (.inl ⟨t,n,rfl⟩) (by omega) taken
  case sendAccept n =>
    split at taken
    · cases Option.some.inj taken
      exact leaving rfl rfl
    · exact encrypts (.inr ⟨n,rfl⟩) (by omega) taken
  case sendIv iv n =>
    split at taken
    · cases Option.some.inj taken
      exact leaving rfl rfl
    · obtain ⟨key,is,taken⟩ := Option.bind_eq_some_iff.mp taken
      cases Option.some.inj taken
      exact .speaks (.sealed pc (by omega) is)
  case sendInfo info n =>
    split at taken <;> cases Option.some.inj taken
    · exact leaving rfl rfl
    · exact .speaks (.informed pc (by omega))

theorem recvInfoGoes {info : Bytes} (pc : (σ.client i).pc = .recvInfo)
    (size : info.length = (σ.client i).kind.infoSize) (gives : r.gives σ = true)
    (taken : recvInfo h σ i info r = some out) : Goes h σ a out := by
  have leaving : Goes h σ a (unref i (σ,[.received i info])) :=
    .leaves (by simp [pc,Pc.runs]) (by simp [pc,Pc.extra]) (.refused (.inr pc))
  have free : ∀ fd, r.fd = some fd → 0 ≤ fd ∧ σ.table.fds fd = none := by
    intro fd is
    simpa [Results.gives,is] using gives
  unfold recvInfo at taken
  cases kind : (σ.client i).kind <;> simp only [kind] at taken size <;> try contradiction
  case portAccept =>
    split at taken
    · cases Option.some.inj taken
      exact leaving
    · rename_i target allowed
      cases is : r.fd with
      | none =>
        rw [is] at taken
        cases Option.some.inj taken
        exact leaving
      | some lfd =>
        rw [is] at taken
        cases Option.some.inj taken
        obtain ⟨valid,none'⟩ := free lfd is
        exact .dials pc kind size allowed valid none'
  case termAccept =>
    cases is : r.fd with
    | none =>
      rw [is] at taken
      cases Option.some.inj taken
      exact leaving
    | some pfd =>
      rw [is] at taken
      obtain ⟨valid,none'⟩ := free pfd is
      cases Option.some.inj taken
      split
      · exact .shell pc kind valid none'
      · exact .noShell pc kind valid none'

theorem recvReturnGoes {bytes : Option Bytes} (taken : recvReturn h σ i bytes r = some out) :
    Goes h σ (.recvReturn i bytes r) out := by
  unfold recvReturn at taken
  cases pc : (σ.client i).pc <;> cases bytes <;> simp only [pc] at taken <;> try contradiction
  case recvIv.none =>
    cases Option.some.inj taken
    exact .leaves (by simp [pc,Pc.runs]) (by simp [pc,Pc.extra]) .nothing
  case recvInfo.none =>
    cases Option.some.inj taken
    exact .leaves (by simp [pc,Pc.runs]) (by simp [pc,Pc.extra]) .nothing
  case recvIv.some iv =>
    split at taken <;> try contradiction
    rename_i size
    split at taken
    · cases Option.some.inj taken
      exact .leaves (by simp [pc,Pc.runs]) (by simp [pc,Pc.extra]) (.refused (.inl pc))
    · obtain ⟨key,is,taken⟩ := Option.bind_eq_some_iff.mp taken
      exact establishedGoes (.keyed pc (by simpa using size) is) taken
  case recvInfo.some info =>
    split at taken <;> try contradiction
    rename_i fits
    exact recvInfoGoes pc fits.1 fits.2 taken

theorem connectReturnGoes {res : Int} (taken : connectReturn σ i res = some out) :
    Goes h σ (.connectReturn i res) out := by
  unfold connectReturn at taken
  cases pc : (σ.client i).pc <;> simp only [pc] at taken <;> try contradiction
  case connecting fd =>
    split at taken <;> cases Option.some.inj taken
    · exact .loses (by simp [pc,Pc.extra])
    · refine .connected pc ?_
      cases (σ.client i).kind <;> rfl
  case dialing lfd =>
    split at taken <;> cases Option.some.inj taken
    · exact .loses (by simp [pc,Pc.extra])
    · exact .reached pc

theorem stepGoes (taken : step h σ a = some out) : Goes h σ a out := by
  cases a <;> simp only [step] at taken
  case spawn kind token =>
    split at taken <;> try contradiction
    cases Option.some.inj taken
    exact .spawns (by assumption)
  case noSocket i =>
    split at taken <;> try contradiction
    cases Option.some.inj taken
    rename_i pc
    exact .leaves (by simp [pc,Pc.runs]) (by simp [pc,Pc.extra]) .nothing
  case socket i fd cloexec =>
    split at taken <;> try contradiction
    cases Option.some.inj taken
    rename_i is
    obtain ⟨pc,client,valid,free⟩ := is
    split
    · exact .connecting pc client valid free
    · exact .fails pc valid free
  case listens i fd ok =>
    split at taken <;> try contradiction
    cases Option.some.inj taken
    rename_i is
    obtain ⟨pc,kind,valid,free⟩ := is
    split
    · exact .listening pc kind valid free
    · exact .fails pc valid free
  case connectReturn i res => exact connectReturnGoes taken
  case send i n =>
    obtain ⟨⟨bytes,sent⟩,piece,taken⟩ := Option.bind_eq_some_iff.mp taken
    split at taken <;> try contradiction
    rename_i room
    obtain ⟨k,valid,taken⟩ := Option.bind_eq_some_iff.mp taken
    cases Option.some.inj taken
    exact .sends piece room.1 room.2 valid
  case sendReturn i res r => exact sendReturnGoes taken
  case recvReturn i bytes r => exact recvReturnGoes taken
  case relay i toBase data =>
    split at taken <;> try contradiction
    rename_i pc
    obtain ⟨k,valid,taken⟩ := Option.bind_eq_some_iff.mp taken
    cases Option.some.inj taken
    exact .relays pc valid
  case spliceReturn i =>
    split at taken <;> try contradiction
    all_goals rename_i pc
    all_goals cases Option.some.inj taken
    · exact .leaves (by simp [pc,Pc.runs]) (by simp [pc,Pc.extra]) .nothing
    · exact .loses (by simp [pc,Pc.extra])
  case socksReturn i =>
    split at taken <;> try contradiction
    cases Option.some.inj taken
    rename_i pc
    exact .leaves (by simp [pc,Pc.runs]) (by simp [pc,Pc.extra]) .nothing
  case accept i fd made =>
    split at taken <;> try contradiction
    cases Option.some.inj taken
    rename_i is
    obtain ⟨pc,valid,free⟩ := is
    split
    · exact .accepts pc valid free
    · exact .drops pc valid free
  case opens fd =>
    split at taken <;> try contradiction
    cases Option.some.inj taken
    rename_i is
    exact .opens is.1 is.2
  case closes fd =>
    obtain ⟨k,on,taken⟩ := Option.bind_eq_some_iff.mp taken
    cases Option.some.inj taken
    exact .closes on

end inversion

end HevFsh.ClientTask
