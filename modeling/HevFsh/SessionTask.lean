import HevFsh.Transitions
import HevFsh.SessionManager
import HevFsh.TokenManager
import Mathlib.Logic.Function.Basic

/-! The session tasks of hev-fsh-session over one server. A task runs from one
call that may block (recv, mutex lock, send, sleep, relay) to the next without
interruption; every such call is a point where other tasks may run. A call that
returns without blocking is the run in which the same task is scheduled next. -/
namespace HevFsh.SessionTask
open SearchTree Protocol SessionManager Transitions

inductive After where
  | login (ver : UInt8)
  | connect (mt : Token)
  | keepAlive
  deriving DecidableEq, Repr

/- One message under way to `target`, on the descriptor read from it. -/
structure Write where
  target : Sid
  fd : Int
  bytes : Bytes
  after : After
  deriving DecidableEq, Repr

inductive Pc where
  | absent
  | recvMessage
  | loginRecv (ver : UInt8)
  | connectRecv
  | acceptRecv
  | rejected (milliseconds : UInt32)
  | acceptWait (mt : Token) (timeout : UInt32)
  | writeLock (w : Write)
  | writeSend (w : Write) (sent : Nat)
  | spliceWait (timeout : UInt32)
  | relay (clientFd remoteFd : Int)
  | ended
  deriving DecidableEq, Repr

def Pc.readsToken : Pc → Bool
  | .loginRecv _ | .connectRecv | .acceptRecv => true
  | _ => false

structure Server where
  count : Nat
  session : Sid → Session
  pc : Sid → Pc
  tree : RbTree Sid
  fds : Int → Option Sid
  tMgr : Option (RbTree Token)

structure Config where
  sessions : Balancer Sid
  tokens : Balancer Token
  timeout : UInt32
  tokensFile : Option (List Token)

inductive Action where
  | accept (fd : Int)
  | refuse (fd : Int)
  | reload (tokens : List Token)
  | recvMessage (i : Sid) (msg : Option (UInt8 × UInt8)) (random : Token)
  | recvToken (i : Sid) (mt : Option Token) (random : Token)
  | wake (i : Sid) (rest : UInt32)
  | lock (i : Sid)
  | send (i : Sid) (n : Nat)
  | sendReturn (i : Sid) (res : Int)
  | relay (i : Sid) (toRemote : Bool) (data : Bytes)
  | relayEnd (i : Sid)
  deriving DecidableEq, Repr

/- What a step did, for statements about whole runs. Calls on the tree are logged
with the tree they were made on. -/
inductive Event where
  | opened (i : Sid) (fd : Int)
  | refused (i : Sid) (fd : Int)
  | reloaded (tokens : List Token)
  | header (i : Sid) (ver cmd : UInt8)
  | token (i : Sid) (cmd : Command) (t : Token)
  | generated (i : Sid) (t : Token)
  | checked (i : Sid) (t : Token) (res : Bool)
  | lookup (i : Sid) (cmd : Command) (type : SessionType) (t : Token) (found : Option Sid)
  | inserted (tree : RbTree Sid) (s : Sid)
  | erased (tree : RbTree Sid) (s : Sid)
  | evicted (i s : Sid)
  | announced (i s : Sid) (t : Token)
  | locked (i s : Sid) (bytes : Bytes)
  | sent (i conn : Sid) (bytes : Bytes)
  | returned (i s : Sid) (bytes : Bytes) (sent : Nat) (res : Int)
  | registered (i : Sid) (type : SessionType) (t : Token)
  | matched (i s : Sid) (t : Token) (fd : Int)
  | relaying (i : Sid) (clientFd remoteFd : Int)
  | relayed (i conn : Sid) (data : Bytes)
  | closed (i : Sid) (fd : Int) (conn : Option Sid)
  | destroyed (i : Sid)
  deriving DecidableEq, Repr

def Server.setSession (σ : Server) (i : Sid) (s : Session) : Server :=
  {σ with session := Function.update σ.session i s}

def Server.setPc (σ : Server) (i : Sid) (p : Pc) : Server :=
  {σ with pc := Function.update σ.pc i p}

def Server.find (σ : Server) (type : SessionType) (token : Token) : Option Sid :=
  SessionManager.find σ.session σ.tree type token

/- The fields hev_malloc0 clears and hev_fsh_session_construct sets. -/
def newSession (cfg : Config) (fd : Int) : Session where
  live := true
  clientFd := fd
  remoteFd := -1
  type := .null
  isMgr := false
  isTempToken := false
  token := .zero
  timeout := cfg.timeout * 1000
  wlock := none

def unborn : Session where
  live := false
  clientFd := -1
  remoteFd := -1
  type := .null
  isMgr := false
  isTempToken := false
  token := .zero
  timeout := 0
  wlock := none

def init (cfg : Config) : Server where
  count := 0
  session _ := unborn
  pc _ := .absent
  tree := .leaf
  fds _ := none
  tMgr := cfg.tokensFile.map (TokenManager.reload cfg.tokens)

def closeFd (fds : Int → Option Sid) (fd : Int) : Int → Option Sid :=
  if 0 ≤ fd then Function.update fds fd none else fds

def closedEvents (i : Sid) (fds : Int → Option Sid) (fd : Int) : List Event :=
  if 0 ≤ fd then [.closed i fd (fds fd)] else []

/- The object stays in the table with `live` off: a task may still refer to it. -/
def destruct (σ : Server) (i : Sid) : Server :=
  let s := σ.session i
  {σ with
    session := Function.update σ.session i {s with live := false}
    fds := closeFd (closeFd σ.fds s.remoteFd) s.clientFd}

def destructEvents (σ : Server) (i : Sid) : List Event :=
  let s := σ.session i
  closedEvents i σ.fds s.remoteFd ++ closedEvents i (closeFd σ.fds s.remoteFd) s.clientFd ++
    [.destroyed i]

def closeSession (cfg : Config) (σ : Server) (i : Sid) : Server :=
  let σ₁ := if (σ.session i).isMgr then {σ with tree := remove cfg.sessions σ.tree i} else σ
  (destruct σ₁ i).setPc i .ended

def closeEvents (σ : Server) (i : Sid) : List Event :=
  (if (σ.session i).isMgr then [.erased σ.tree i] else []) ++ destructEvents σ i

/- hev_fsh_session_write_message reads the descriptor before it takes the lock. -/
def writeMessage (σ : Server) (i target : Sid) (bytes : Bytes) (after : After) : Server :=
  σ.setPc i (.writeLock ⟨target,(σ.session target).clientFd,bytes,after⟩)

def unlock (σ : Server) (target : Sid) : Server :=
  σ.setSession target {σ.session target with wlock := none}

def evict (cfg : Config) (σ : Server) (s : Sid) : Server :=
  let σ₁ := σ.setSession s {σ.session s with isMgr := false, type := .closed, timeout := 0}
  {σ₁ with tree := remove cfg.sessions σ₁.tree s}

def setToken (σ : Server) (i : Sid) (t : Token) : Server :=
  σ.setSession i {σ.session i with token := t}

/- hev_fsh_session_login from the lookup of the old holder to its write. -/
def loginLookup (cfg : Config) (σ : Server) (i : Sid) (ver : UInt8) : Server × List Event :=
  let t := (σ.session i).token
  let reply := message 1 .token t.bytes
  match σ.find .forward t with
  | none => (writeMessage σ i i reply (.login ver),[.lookup i .login .forward t none])
  | some s => (writeMessage (evict cfg σ s) i i reply (.login ver),
      [.lookup i .login .forward t (some s),.evicted i s,.erased σ.tree s])

def reject (σ : Server) (i : Sid) : Server := σ.setPc i (.rejected 1500)

def loginCheck (cfg : Config) (σ : Server) (i : Sid) (ver : UInt8) : Server × List Event :=
  let t := (σ.session i).token
  match σ.tMgr with
  | none => loginLookup cfg σ i ver
  | some mgr =>
      if TokenManager.find mgr t then
        let (σ',es) := loginLookup cfg σ i ver
        (σ',.checked i t true :: es)
      else (reject σ i,[.checked i t false])

def forwardSession (s : Session) (ver : UInt8) : Session :=
  {s with isMgr := true, type := .forward, isTempToken := decide (ver = 3)}

def connectSession (s : Session) (mt : Token) : Session :=
  {s with isMgr := true, type := .connect, token := mt}

def register (cfg : Config) (σ : Server) (i : Sid) (s : Session) : Server :=
  let σ₁ := σ.setSession i s
  {σ₁ with tree := insert cfg.sessions σ₁.session σ₁.tree i}

def loginRegister (cfg : Config) (σ : Server) (i : Sid) (ver : UInt8) : Server × List Event :=
  ((register cfg σ i (forwardSession (σ.session i) ver)).setPc i .recvMessage,
    [.inserted σ.tree i,.registered i .forward (σ.session i).token])

/- The wait-for-accept loop, with `timeout` left; the relay gets the descriptors by value. -/
def spliceLoop (σ : Server) (i : Sid) (timeout : UInt32) : Server × List Event :=
  let s := σ.session i
  if timeout = 0 ∨ 0 ≤ s.remoteFd then
    (σ.setPc i (.relay s.clientFd s.remoteFd),[.relaying i s.clientFd s.remoteFd])
  else (σ.setPc i (.spliceWait timeout),[])

def connectLookup (σ : Server) (i : Sid) (mt random : Token) : Server × List Event :=
  match σ.find .forward mt with
  | none => (reject σ i,[.lookup i .connect .forward mt none])
  | some s =>
      let temp := (σ.session s).isTempToken
      let mt' := if temp then tokenGenerate random else mt
      (writeMessage σ i s (message 1 .connect mt'.bytes) (.connect mt'),
        .lookup i .connect .forward mt (some s) ::
          (if temp then [.generated i mt'] else []) ++ [.announced i s mt'])

def connectRegister (cfg : Config) (σ : Server) (i : Sid) (mt : Token) : Server × List Event :=
  let σ₁ := register cfg σ i (connectSession (σ.session i) mt)
  let (σ₂,es) := spliceLoop σ₁ i (σ₁.session i).timeout
  (σ₂,.inserted σ.tree i :: .registered i .connect mt :: es)

/- The accepted descriptor goes to `s`; the accepting session keeps none. -/
def handOver (cfg : Config) (σ : Server) (i s : Sid) : Server :=
  let fd := (σ.session i).clientFd
  let σ₁ := σ.setSession s {σ.session s with type := .splice, remoteFd := fd}
  let tree := remove cfg.sessions σ₁.tree s
  let σ₂ := {σ₁ with tree := insert cfg.sessions σ₁.session tree s}
  σ₂.setSession i {σ₂.session i with clientFd := -1}

/- The wait-for-connect loop, with `timeout` left. -/
def acceptLoop (cfg : Config) (σ : Server) (i : Sid) (mt : Token) (timeout : UInt32) :
    Server × List Event :=
  if timeout = 0 then (closeSession cfg σ i,closeEvents σ i)
  else match σ.find .connect mt with
    | none => (σ.setPc i (.acceptWait mt timeout),[.lookup i .accept .connect mt none])
    | some s =>
        let σ' := handOver cfg σ i s
        (closeSession cfg σ' i,
          [.lookup i .accept .connect mt (some s),.matched i s mt (σ.session i).clientFd,
            .erased σ.tree s,.inserted (remove cfg.sessions σ.tree s) s] ++ closeEvents σ' i)

def keepAlive (σ : Server) (i : Sid) (ver : UInt8) : Server :=
  if ver = 1 then σ.setPc i .recvMessage
  else writeMessage σ i i (message 1 .keepAlive []) .keepAlive

def dispatch (cfg : Config) (σ : Server) (i : Sid) (ver cmd : UInt8) (random : Token) :
    Server × List Event :=
  let close := (closeSession cfg σ i,closeEvents σ i)
  match Command.ofByte cmd with
  | some .login =>
      if (σ.session i).type ≠ .null then close
      else if ver = 1 then
        let t := tokenGenerate random
        let (σ',es) := loginCheck cfg (setToken σ i t) i ver
        (σ',.generated i t :: es)
      else (σ.setPc i (.loginRecv ver),[])
  | some .connect =>
      if (σ.session i).type ≠ .null then close else (σ.setPc i .connectRecv,[])
  | some .accept => (σ.setPc i .acceptRecv,[])
  | some .keepAlive => (keepAlive σ i ver,[])
  | _ => close

def recvToken (cfg : Config) (σ : Server) (i : Sid) (mt random : Token) :
    Pc → Option (Server × List Event)
  | .loginRecv ver =>
      if mt = .zero then
        let t := tokenGenerate random
        let (σ',es) := loginCheck cfg (setToken σ i t) i ver
        some (σ',.token i .login mt :: .generated i t :: es)
      else
        let (σ',es) := loginCheck cfg (setToken σ i mt) i ver
        some (σ',.token i .login mt :: es)
  | .connectRecv =>
      let (σ',es) := connectLookup σ i mt random
      some (σ',.token i .connect mt :: es)
  | .acceptRecv =>
      let (σ',es) := acceptLoop cfg σ i mt (σ.session i).timeout
      some (σ',.token i .accept mt :: es)
  | _ => none

def wake (cfg : Config) (σ : Server) (i : Sid) (rest : UInt32) : Pc → Option (Server × List Event)
  | .rejected ms =>
      if rest ≤ ms then
        if rest = 0 then some (closeSession cfg σ i,closeEvents σ i)
        else some (σ.setPc i (.rejected rest),[])
      else none
  | .acceptWait mt timeout =>
      if rest ≤ timeout then some (acceptLoop cfg σ i mt rest) else none
  | .spliceWait timeout =>
      if rest ≤ timeout then some (spliceLoop σ i rest) else none
  | _ => none

/- hev_fsh_session_keep_alive reads its descriptor only when it holds the lock. -/
def lock (σ : Server) (i : Sid) : Pc → Option (Server × List Event)
  | .writeLock w =>
      let s := σ.session w.target
      if s.wlock = none then
        let fd := if w.after = .keepAlive then s.clientFd else w.fd
        let σ₁ := σ.setSession w.target {s with wlock := some i}
        some (σ₁.setPc i (.writeSend {w with fd := fd} 0),[.locked i w.target w.bytes])
      else none
  | _ => none

def send (σ : Server) (i : Sid) (n : Nat) : Pc → Option (Server × List Event)
  | .writeSend w sent =>
      if 0 < n ∧ sent + n ≤ w.bytes.length then do
        let conn ← σ.fds w.fd
        some (σ.setPc i (.writeSend w (sent + n)),[.sent i conn ((w.bytes.drop sent).take n)])
      else none
  | _ => none

def afterWrite (cfg : Config) (σ : Server) (i : Sid) : After → Server × List Event
  | .login ver => loginRegister cfg σ i ver
  | .connect mt => connectRegister cfg σ i mt
  | .keepAlive => (σ.setPc i .recvMessage,[])

def sendReturn (cfg : Config) (σ : Server) (i : Sid) (res : Int) : Pc → Option (Server × List Event)
  | .writeSend w sent =>
      let σ₁ := unlock σ w.target
      let done := Event.returned i w.target w.bytes sent res
      if res ≤ 0 then some (closeSession cfg σ₁ i,done :: closeEvents σ₁ i)
      else
        let (σ',es) := afterWrite cfg σ₁ i w.after
        some (σ',done :: es)
  | _ => none

def relay (σ : Server) (i : Sid) (toRemote : Bool) (data : Bytes) : Pc → Option (Server × List Event)
  | .relay clientFd remoteFd => do
      let conn ← σ.fds (if toRemote then remoteFd else clientFd)
      some (σ,[.relayed i conn data])
  | _ => none

def step (cfg : Config) (σ : Server) : Action → Option (Server × List Event)
  | .accept fd =>
      if 0 ≤ fd ∧ σ.fds fd = none then
        some ({σ with
          count := σ.count + 1
          session := Function.update σ.session σ.count (newSession cfg fd)
          pc := Function.update σ.pc σ.count .recvMessage
          fds := Function.update σ.fds fd (some σ.count)},[.opened σ.count fd])
      else none
  | .refuse fd =>
      -- hev_fsh_session_new failed: the descriptor is opened and closed again
      if 0 ≤ fd ∧ σ.fds fd = none then
        some ({σ with count := σ.count + 1},[.refused σ.count fd])
      else none
  | .reload tokens => match σ.tMgr with
      | none => none
      | some _ => some ({σ with tMgr := some (TokenManager.reload cfg.tokens tokens)},[.reloaded tokens])
  | .recvMessage i msg random =>
      if σ.pc i = .recvMessage then match msg with
        | none => some (closeSession cfg σ i,closeEvents σ i)
        | some (ver,cmd) =>
            let (σ',es) := dispatch cfg σ i ver cmd random
            some (σ',.header i ver cmd :: es)
      else none
  | .recvToken i mt random => match mt with
      | none =>
          if (σ.pc i).readsToken then some (closeSession cfg σ i,closeEvents σ i) else none
      | some mt => recvToken cfg σ i mt random (σ.pc i)
  | .wake i rest => wake cfg σ i rest (σ.pc i)
  | .lock i => lock σ i (σ.pc i)
  | .send i n => send σ i n (σ.pc i)
  | .sendReturn i res => sendReturn cfg σ i res (σ.pc i)
  | .relay i toRemote data => relay σ i toRemote data (σ.pc i)
  | .relayEnd i => match σ.pc i with
      | .relay _ _ => some (closeSession cfg σ i,closeEvents σ i)
      | _ => none

def machine (cfg : Config) : Machine Server Action Event := ⟨init cfg,step cfg⟩

end HevFsh.SessionTask
