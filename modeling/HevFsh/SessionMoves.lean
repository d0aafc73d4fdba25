import HevFsh.SessionTask

/-! Every way a step of the session tasks can go, said once. Invariants are
proved by cases on `Moves`, never by unfolding the handlers again. -/
namespace HevFsh.SessionTask
open SearchTree Protocol SessionManager Transitions

section fields
variable (σ : Server) (i : Sid) (s : Session) (p : Pc)

@[simp] theorem setSessionSession : (σ.setSession i s).session = Function.update σ.session i s := rfl
@[simp] theorem setSessionPc : (σ.setSession i s).pc = σ.pc := rfl
@[simp] theorem setSessionTree : (σ.setSession i s).tree = σ.tree := rfl
@[simp] theorem setSessionFds : (σ.setSession i s).fds = σ.fds := rfl
@[simp] theorem setSessionCount : (σ.setSession i s).count = σ.count := rfl
@[simp] theorem setSessionTMgr : (σ.setSession i s).tMgr = σ.tMgr := rfl
@[simp] theorem setPcSession : (σ.setPc i p).session = σ.session := rfl
@[simp] theorem setPcPc : (σ.setPc i p).pc = Function.update σ.pc i p := rfl
@[simp] theorem setPcTree : (σ.setPc i p).tree = σ.tree := rfl
@[simp] theorem setPcFds : (σ.setPc i p).fds = σ.fds := rfl
@[simp] theorem setPcCount : (σ.setPc i p).count = σ.count := rfl
@[simp] theorem setPcTMgr : (σ.setPc i p).tMgr = σ.tMgr := rfl

theorem unlockSession (t j : Sid) : (unlock σ t).session j =
    {σ.session j with wlock := if j = t then none else (σ.session j).wlock} := by
  simp only [unlock,setSessionSession,Function.update_apply]
  split <;> simp_all

@[simp] theorem unlockTree (t : Sid) : (unlock σ t).tree = σ.tree := rfl
@[simp] theorem unlockPc (t : Sid) : (unlock σ t).pc = σ.pc := rfl
@[simp] theorem unlockFds (t : Sid) : (unlock σ t).fds = σ.fds := rfl
@[simp] theorem unlockCount (t : Sid) : (unlock σ t).count = σ.count := rfl

variable (cfg : Config)

@[simp] theorem registerSession :
    (register cfg σ i s).session = Function.update σ.session i s := rfl
@[simp] theorem registerPc : (register cfg σ i s).pc = σ.pc := rfl
@[simp] theorem registerFds : (register cfg σ i s).fds = σ.fds := rfl
@[simp] theorem registerCount : (register cfg σ i s).count = σ.count := rfl
@[simp] theorem registerTree : (register cfg σ i s).tree =
    insert cfg.sessions (Function.update σ.session i s) σ.tree i := rfl

@[simp] theorem evictSession (t : Sid) : (evict cfg σ t).session = Function.update σ.session t
    {σ.session t with isMgr := false, type := .closed, timeout := 0} := rfl
@[simp] theorem evictPc (t : Sid) : (evict cfg σ t).pc = σ.pc := rfl
@[simp] theorem evictFds (t : Sid) : (evict cfg σ t).fds = σ.fds := rfl
@[simp] theorem evictCount (t : Sid) : (evict cfg σ t).count = σ.count := rfl
@[simp] theorem evictTree (t : Sid) : (evict cfg σ t).tree = remove cfg.sessions σ.tree t := rfl

@[simp] theorem closeSessionSession : (closeSession cfg σ i).session =
    Function.update σ.session i {σ.session i with live := false} := by
  unfold closeSession
  split <;> rfl
@[simp] theorem closeSessionPc : (closeSession cfg σ i).pc = Function.update σ.pc i .ended := by
  unfold closeSession
  split <;> rfl
@[simp] theorem closeSessionFds : (closeSession cfg σ i).fds =
    closeFd (closeFd σ.fds (σ.session i).remoteFd) (σ.session i).clientFd := by
  unfold closeSession
  split <;> rfl
@[simp] theorem closeSessionCount : (closeSession cfg σ i).count = σ.count := by
  unfold closeSession
  split <;> rfl
@[simp] theorem closeSessionTMgr : (closeSession cfg σ i).tMgr = σ.tMgr := by
  unfold closeSession
  split <;> rfl
@[simp] theorem closeSessionTree : (closeSession cfg σ i).tree =
    if (σ.session i).isMgr then remove cfg.sessions σ.tree i else σ.tree := by
  unfold closeSession
  split <;> rfl

theorem handOverSession {i t : Sid} (other : t ≠ i) (j : Sid) :
    (handOver cfg σ i t).session j =
      if j = i then {σ.session i with clientFd := -1}
      else if j = t then {σ.session t with type := .splice, remoteFd := (σ.session i).clientFd}
      else σ.session j := by
  simp only [handOver,setSessionSession,Function.update_apply,if_neg (Ne.symm other)]
@[simp] theorem handOverPc (t : Sid) : (handOver cfg σ i t).pc = σ.pc := rfl
@[simp] theorem handOverFds (t : Sid) : (handOver cfg σ i t).fds = σ.fds := rfl
@[simp] theorem handOverCount (t : Sid) : (handOver cfg σ i t).count = σ.count := rfl
@[simp] theorem handOverTree (t : Sid) : (handOver cfg σ i t).tree =
    insert cfg.sessions (Function.update σ.session t
      {σ.session t with type := .splice, remoteFd := (σ.session i).clientFd})
      (remove cfg.sessions σ.tree t) t := rfl

end fields

inductive HangsUp (σ : Server) (i : Sid) : Action → Prop where
  | message {random} (pc : σ.pc i = .recvMessage) : HangsUp σ i (.recvMessage i none random)
  | loginToken {ver random} (pc : σ.pc i = .loginRecv ver) : HangsUp σ i (.recvToken i none random)
  | connectToken {random} (pc : σ.pc i = .connectRecv) : HangsUp σ i (.recvToken i none random)
  | acceptToken {random} (pc : σ.pc i = .acceptRecv) : HangsUp σ i (.recvToken i none random)
  | sleepOver {ms} (pc : σ.pc i = .rejected ms) : HangsUp σ i (.wake i 0)
  | relayOver {c r} (pc : σ.pc i = .relay c r) : HangsUp σ i (.relayEnd i)

def Refuses (σ : Server) (i : Sid) (cmd : UInt8) : Prop :=
  ((Command.ofByte cmd = some .login ∨ Command.ofByte cmd = some .connect) ∧
    (σ.session i).type ≠ .null) ∨
  Command.ofByte cmd = some .token ∨ Command.ofByte cmd = none

inductive Enters (σ : Server) (i : Sid) : UInt8 → UInt8 → Pc → Prop where
  | login {ver cmd} (is : Command.ofByte cmd = some .login) (type : (σ.session i).type = .null)
      (other : ver ≠ 1) : Enters σ i ver cmd (.loginRecv ver)
  | connect {ver cmd} (is : Command.ofByte cmd = some .connect) (type : (σ.session i).type = .null) :
      Enters σ i ver cmd .connectRecv
  | accept {ver cmd} (is : Command.ofByte cmd = some .accept) : Enters σ i ver cmd .acceptRecv
  | quiet {cmd} (is : Command.ofByte cmd = some .keepAlive) : Enters σ i 1 cmd .recvMessage
  | keepAlive {ver cmd} (is : Command.ofByte cmd = some .keepAlive) (other : ver ≠ 1) :
      Enters σ i ver cmd
        (.writeLock ⟨i,(σ.session i).clientFd,message 1 .keepAlive [],.keepAlive⟩)

inductive LoginToken (σ : Server) (i : Sid) : Action → UInt8 → Token → List Event → Prop where
  | first {cmd random} (pc : σ.pc i = .recvMessage) (is : Command.ofByte cmd = some .login)
      (type : (σ.session i).type = .null) :
      LoginToken σ i (.recvMessage i (some (1,cmd)) random) 1 (tokenGenerate random)
        [.header i 1 cmd,.generated i (tokenGenerate random)]
  | zero {ver random} (pc : σ.pc i = .loginRecv ver) :
      LoginToken σ i (.recvToken i (some .zero) random) ver (tokenGenerate random)
        [.token i .login .zero,.generated i (tokenGenerate random)]
  | client {ver mt random} (pc : σ.pc i = .loginRecv ver) (nonzero : mt ≠ .zero) :
      LoginToken σ i (.recvToken i (some mt) random) ver mt [.token i .login mt]

inductive AcceptPass (σ : Server) (i : Sid) : Action → Token → UInt32 → List Event → Prop where
  | first {mt random} (pc : σ.pc i = .acceptRecv) :
      AcceptPass σ i (.recvToken i (some mt) random) mt (σ.session i).timeout [.token i .accept mt]
  | again {mt timeout rest} (pc : σ.pc i = .acceptWait mt timeout) (less : rest ≤ timeout) :
      AcceptPass σ i (.wake i rest) mt rest []

def Allowed (σ : Server) (t : Token) : Prop :=
  match σ.tMgr with
  | none => True
  | some mgr => TokenManager.find mgr t = true

def allowedEvents (σ : Server) (i : Sid) (t : Token) : List Event :=
  match σ.tMgr with
  | none => []
  | some _ => [.checked i t true]

def generatedEvents (σ : Server) (i s : Sid) (t : Token) : List Event :=
  if (σ.session s).isTempToken then [.generated i t] else []

def given (σ : Server) (s : Sid) (mt random : Token) : Token :=
  if (σ.session s).isTempToken then tokenGenerate random else mt

def opened (cfg : Config) (σ : Server) (fd : Int) : Server :=
  {σ with
    count := σ.count + 1
    session := Function.update σ.session σ.count (newSession cfg fd)
    pc := Function.update σ.pc σ.count .recvMessage
    fds := Function.update σ.fds fd (some σ.count)}

def loginReply (t : Token) : Bytes := message 1 .token t.bytes

inductive Moves (cfg : Config) (σ : Server) : Action → Server → List Event → Prop where
  | opened {fd} (valid : 0 ≤ fd) (free : σ.fds fd = none) :
      Moves cfg σ (.accept fd) (opened cfg σ fd) [.opened σ.count fd]
  | refused {fd} (valid : 0 ≤ fd) (free : σ.fds fd = none) :
      Moves cfg σ (.refuse fd) {σ with count := σ.count + 1} [.refused σ.count fd]
  | reloaded {mgr tokens} (has : σ.tMgr = some mgr) :
      Moves cfg σ (.reload tokens) {σ with tMgr := some (TokenManager.reload cfg.tokens tokens)}
        [.reloaded tokens]
  | hangsUp {i a} (ending : HangsUp σ i a) : Moves cfg σ a (closeSession cfg σ i) (closeEvents σ i)
  | refuses {i ver cmd random} (pc : σ.pc i = .recvMessage) (bad : Refuses σ i cmd) :
      Moves cfg σ (.recvMessage i (some (ver,cmd)) random) (closeSession cfg σ i)
        (.header i ver cmd :: closeEvents σ i)
  | enters {i ver cmd random p} (pc : σ.pc i = .recvMessage) (next : Enters σ i ver cmd p) :
      Moves cfg σ (.recvMessage i (some (ver,cmd)) random) (σ.setPc i p) [.header i ver cmd]
  | loginRejected {i a ver t es mgr} (came : LoginToken σ i a ver t es) (has : σ.tMgr = some mgr)
      (absent : TokenManager.find mgr t = false) :
      Moves cfg σ a (reject (setToken σ i t) i) (es ++ [.checked i t false])
  | loginFresh {i a ver t es} (came : LoginToken σ i a ver t es) (allowed : Allowed σ t)
      (missing : (setToken σ i t).find .forward t = none) :
      Moves cfg σ a (writeMessage (setToken σ i t) i i (loginReply t) (.login ver))
        (es ++ allowedEvents σ i t ++ [.lookup i .login .forward t none])
  | loginEvicts {i a ver t es s} (came : LoginToken σ i a ver t es) (allowed : Allowed σ t)
      (found : (setToken σ i t).find .forward t = some s) :
      Moves cfg σ a
        (writeMessage (evict cfg (setToken σ i t) s) i i (loginReply t) (.login ver))
        (es ++ allowedEvents σ i t ++
          [.lookup i .login .forward t (some s),.evicted i s,.erased σ.tree s])
  | connectMissing {i mt random} (pc : σ.pc i = .connectRecv) (missing : σ.find .forward mt = none) :
      Moves cfg σ (.recvToken i (some mt) random) (reject σ i)
        [.token i .connect mt,.lookup i .connect .forward mt none]
  | connectFound {i mt random s} (pc : σ.pc i = .connectRecv) (found : σ.find .forward mt = some s) :
      Moves cfg σ (.recvToken i (some mt) random)
        (writeMessage σ i s (message 1 .connect (given σ s mt random).bytes)
          (.connect (given σ s mt random)))
        ([.token i .connect mt,.lookup i .connect .forward mt (some s)] ++
          generatedEvents σ i s (given σ s mt random) ++ [.announced i s (given σ s mt random)])
  | acceptOver {i a mt es} (pass : AcceptPass σ i a mt 0 es) :
      Moves cfg σ a (closeSession cfg σ i) (es ++ closeEvents σ i)
  | acceptWaits {i a mt timeout es} (pass : AcceptPass σ i a mt timeout es) (left : timeout ≠ 0)
      (missing : σ.find .connect mt = none) :
      Moves cfg σ a (σ.setPc i (.acceptWait mt timeout)) (es ++ [.lookup i .accept .connect mt none])
  | acceptMatches {i a mt timeout es s} (pass : AcceptPass σ i a mt timeout es) (left : timeout ≠ 0)
      (found : σ.find .connect mt = some s) :
      Moves cfg σ a (closeSession cfg (handOver cfg σ i s) i)
        (es ++ [.lookup i .accept .connect mt (some s),.matched i s mt (σ.session i).clientFd,
          .erased σ.tree s,.inserted (remove cfg.sessions σ.tree s) s] ++
          closeEvents (handOver cfg σ i s) i)
  | sleeps {i ms rest} (pc : σ.pc i = .rejected ms) (less : rest ≤ ms) (left : rest ≠ 0) :
      Moves cfg σ (.wake i rest) (σ.setPc i (.rejected rest)) []
  | locks {i w} (pc : σ.pc i = .writeLock w) (free : (σ.session w.target).wlock = none) :
      Moves cfg σ (.lock i)
        ((σ.setSession w.target {σ.session w.target with wlock := some i}).setPc i
          (.writeSend {w with fd := if w.after = .keepAlive then (σ.session w.target).clientFd
            else w.fd} 0))
        [.locked i w.target w.bytes]
  | sends {i w sent n conn} (pc : σ.pc i = .writeSend w sent) (positive : 0 < n)
      (room : sent + n ≤ w.bytes.length) (valid : σ.fds w.fd = some conn) :
      Moves cfg σ (.send i n) (σ.setPc i (.writeSend w (sent + n)))
        [.sent i conn ((w.bytes.drop sent).take n)]
  | writeFails {i w sent res} (pc : σ.pc i = .writeSend w sent) (fail : res ≤ 0) :
      Moves cfg σ (.sendReturn i res) (closeSession cfg (unlock σ w.target) i)
        (.returned i w.target w.bytes sent res :: closeEvents (unlock σ w.target) i)
  | loginRegisters {i w sent res ver} (pc : σ.pc i = .writeSend w sent) (done : 0 < res)
      (is : w.after = .login ver) :
      Moves cfg σ (.sendReturn i res)
        ((register cfg (unlock σ w.target) i
          (forwardSession ((unlock σ w.target).session i) ver)).setPc i .recvMessage)
        [.returned i w.target w.bytes sent res,.inserted σ.tree i,
          .registered i .forward (σ.session i).token]
  | connectWaits {i w sent res mt} (pc : σ.pc i = .writeSend w sent) (done : 0 < res)
      (is : w.after = .connect mt) (left : (σ.session i).timeout ≠ 0)
      (unset : ¬ 0 ≤ (σ.session i).remoteFd) :
      Moves cfg σ (.sendReturn i res)
        ((register cfg (unlock σ w.target) i
          (connectSession ((unlock σ w.target).session i) mt)).setPc i
            (.spliceWait (σ.session i).timeout))
        [.returned i w.target w.bytes sent res,.inserted σ.tree i,.registered i .connect mt]
  | connectRelays {i w sent res mt} (pc : σ.pc i = .writeSend w sent) (done : 0 < res)
      (is : w.after = .connect mt)
      (leaves : (σ.session i).timeout = 0 ∨ 0 ≤ (σ.session i).remoteFd) :
      Moves cfg σ (.sendReturn i res)
        ((register cfg (unlock σ w.target) i
          (connectSession ((unlock σ w.target).session i) mt)).setPc i
            (.relay (σ.session i).clientFd (σ.session i).remoteFd))
        [.returned i w.target w.bytes sent res,.inserted σ.tree i,.registered i .connect mt,
          .relaying i (σ.session i).clientFd (σ.session i).remoteFd]
  | kept {i w sent res} (pc : σ.pc i = .writeSend w sent) (done : 0 < res)
      (is : w.after = .keepAlive) :
      Moves cfg σ (.sendReturn i res) ((unlock σ w.target).setPc i .recvMessage)
        [.returned i w.target w.bytes sent res]
  | spliceWaits {i timeout rest} (pc : σ.pc i = .spliceWait timeout) (less : rest ≤ timeout)
      (left : rest ≠ 0) (unset : ¬ 0 ≤ (σ.session i).remoteFd) :
      Moves cfg σ (.wake i rest) (σ.setPc i (.spliceWait rest)) []
  | spliceRelays {i timeout rest} (pc : σ.pc i = .spliceWait timeout) (less : rest ≤ timeout)
      (leaves : rest = 0 ∨ 0 ≤ (σ.session i).remoteFd) :
      Moves cfg σ (.wake i rest)
        (σ.setPc i (.relay (σ.session i).clientFd (σ.session i).remoteFd))
        [.relaying i (σ.session i).clientFd (σ.session i).remoteFd]
  | relays {i c r toRemote data conn} (pc : σ.pc i = .relay c r)
      (valid : σ.fds (if toRemote = true then r else c) = some conn) :
      Moves cfg σ (.relay i toRemote data) σ [.relayed i conn data]

section steps
variable {cfg : Config} {σ σ' : Server} {i : Sid} {es : List Event}

theorem loginMoves {a ver t es₀} (came : LoginToken σ i a ver t es₀)
    (h : loginCheck cfg (setToken σ i t) i ver = (σ',es)) : Moves cfg σ a σ' (es₀ ++ es) := by
  have token : ((setToken σ i t).session i).token = t := by simp [setToken]
  have mgr : (setToken σ i t).tMgr = σ.tMgr := rfl
  have tree : (setToken σ i t).tree = σ.tree := rfl
  -- the lookup is the same with and without an allow list
  have looks : ∀ {σ' es}, Allowed σ t → loginLookup cfg (setToken σ i t) i ver = (σ',es) →
      Moves cfg σ a σ' (es₀ ++ allowedEvents σ i t ++ es) := by
    intro σ' es allowed h
    simp only [loginLookup,token] at h
    split at h
    · rename_i missing
      cases h
      exact .loginFresh came allowed missing
    · rename_i s found
      cases h
      rw [tree]
      exact .loginEvicts came allowed found
  simp only [loginCheck,token,mgr] at h
  split at h
  · rename_i no
    have moved := looks (by simp [Allowed,no]) h
    simpa [allowedEvents,no] using moved
  · rename_i list has
    split at h
    · rename_i found
      obtain ⟨rfl,rfl⟩ := Prod.mk.inj h
      have moved := looks (by simpa [Allowed,has] using found) (Prod.mk.eta.symm)
      simpa only [allowedEvents,has,List.append_assoc,List.singleton_append] using moved
    · rename_i absent
      cases h
      exact .loginRejected came has (by simpa using absent)

theorem acceptMoves {a mt timeout es₀} (pass : AcceptPass σ i a mt timeout es₀)
    (h : acceptLoop cfg σ i mt timeout = (σ',es)) : Moves cfg σ a σ' (es₀ ++ es) := by
  simp only [acceptLoop] at h
  split at h
  · rename_i ending
    cases h
    subst ending
    exact .acceptOver pass
  · rename_i left
    split at h
    · rename_i missing
      cases h
      exact .acceptWaits pass left missing
    · rename_i s found
      cases h
      simpa only [List.append_assoc] using Moves.acceptMatches pass left found

theorem dispatchMoves {ver cmd random} (pc : σ.pc i = .recvMessage)
    (h : dispatch cfg σ i ver cmd random = (σ',es)) :
    Moves cfg σ (.recvMessage i (some (ver,cmd)) random) σ' (.header i ver cmd :: es) := by
  simp only [dispatch] at h
  cases is : Command.ofByte cmd with
  | none =>
    simp only [is] at h
    cases h
    exact .refuses pc (.inr (.inr is))
  | some c =>
    cases c <;> simp only [is] at h
    case token =>
      cases h
      exact .refuses pc (.inr (.inl is))
    case login =>
      split at h
      · rename_i typed
        cases h
        exact .refuses pc (.inl ⟨.inl is,typed⟩)
      · rename_i untyped
        have type : (σ.session i).type = .null := by simpa using untyped
        split at h
        · rename_i first
          subst first
          cases h
          exact loginMoves (.first pc is type) rfl
        · rename_i other
          cases h
          exact .enters pc (.login is type other)
    case connect =>
      split at h
      · rename_i typed
        cases h
        exact .refuses pc (.inl ⟨.inr is,typed⟩)
      · rename_i untyped
        cases h
        exact .enters pc (.connect is (by simpa using untyped))
    case accept =>
      cases h
      exact .enters pc (.accept is)
    case keepAlive =>
      cases h
      unfold keepAlive
      split
      · rename_i first
        subst first
        exact .enters pc (.quiet is)
      · rename_i other
        exact .enters pc (.keepAlive is other)

theorem recvTokenMoves {mt random} (h : recvToken cfg σ i mt random (σ.pc i) = some (σ',es)) :
    Moves cfg σ (.recvToken i (some mt) random) σ' es := by
  unfold recvToken at h
  cases pc : σ.pc i with
  | loginRecv ver =>
    simp only [pc] at h
    split at h
    · rename_i zero
      cases Option.some.inj h
      subst zero
      exact loginMoves (.zero pc) rfl
    · rename_i nonzero
      cases Option.some.inj h
      exact loginMoves (.client pc nonzero) rfl
  | connectRecv =>
    simp only [pc,connectLookup] at h
    obtain ⟨rfl,rfl⟩ := Prod.mk.inj (Option.some.inj h)
    cases look : σ.find .forward mt with
    | none => exact .connectMissing pc look
    | some s => exact .connectFound pc look
  | acceptRecv =>
    simp only [pc] at h
    cases Option.some.inj h
    exact acceptMoves (.first pc) rfl
  | _ => simp only [pc,reduceCtorEq] at h

theorem wakeMoves {rest} (h : wake cfg σ i rest (σ.pc i) = some (σ',es)) :
    Moves cfg σ (.wake i rest) σ' es := by
  unfold wake at h
  split at h <;> try contradiction
  · rename_i ms pc
    split at h <;> try contradiction
    rename_i less
    split at h
    · rename_i ending
      cases Option.some.inj h
      subst ending
      exact .hangsUp (.sleepOver pc)
    · rename_i left
      cases Option.some.inj h
      exact .sleeps pc less left
  · rename_i mt timeout pc
    split at h <;> try contradiction
    rename_i less
    exact acceptMoves (.again pc less) (Option.some.inj h)
  · rename_i timeout pc
    split at h <;> try contradiction
    rename_i less
    have h := Option.some.inj h
    simp only [spliceLoop] at h
    split at h
    · rename_i leaves
      cases h
      exact .spliceRelays pc less leaves
    · rename_i stays
      cases h
      obtain ⟨left,unset⟩ := not_or.mp stays
      exact .spliceWaits pc less left unset

theorem sendReturnMoves {res} (h : sendReturn cfg σ i res (σ.pc i) = some (σ',es)) :
    Moves cfg σ (.sendReturn i res) σ' es := by
  unfold sendReturn at h
  split at h <;> try contradiction
  rename_i w sent pc
  dsimp only at h
  split at h
  · rename_i fail
    cases Option.some.inj h
    exact .writeFails pc fail
  · rename_i ok
    have done : 0 < res := by omega
    cases Option.some.inj h
    cases is : w.after with
    | login ver =>
      have moved : Moves cfg σ (.sendReturn i res) _ _ := .loginRegisters pc done is
      simpa only [afterWrite,loginRegister,unlockSession,unlockTree] using moved
    | keepAlive => exact .kept pc done is
    | connect mt =>
      simp only [afterWrite,connectRegister,spliceLoop,registerSession,Function.update_self,
        connectSession]
      split
      · rename_i leaves
        have moved : Moves cfg σ (.sendReturn i res) _ _ :=
          .connectRelays pc done is (by simpa only [unlockSession] using leaves)
        simpa only [unlockSession,unlockTree,connectSession] using moved
      · rename_i stays
        obtain ⟨left,unset⟩ := not_or.mp stays
        have moved : Moves cfg σ (.sendReturn i res) _ _ :=
          .connectWaits pc done is (by simpa only [unlockSession] using left)
            (by simpa only [unlockSession] using unset)
        simpa only [unlockSession,unlockTree,connectSession] using moved

theorem recvTokenReads {mt random} (h : step cfg σ (.recvToken i mt random) = some (σ',es)) :
    (σ.pc i).readsToken = true := by
  cases mt with
  | none =>
    simp only [step] at h
    split at h <;> try contradiction
    assumption
  | some mt =>
    change recvToken cfg σ i mt random (σ.pc i) = some (σ',es) at h
    unfold recvToken at h
    cases pc : σ.pc i with
    | loginRecv ver => rfl
    | connectRecv => rfl
    | acceptRecv => rfl
    | _ => simp only [pc,reduceCtorEq] at h

theorem stepMoves {a} (h : step cfg σ a = some (σ',es)) : Moves cfg σ a σ' es := by
  cases a with
  | accept fd =>
    simp only [step] at h
    split at h <;> try contradiction
    rename_i free
    cases Option.some.inj h
    exact .opened free.1 free.2
  | refuse fd =>
    simp only [step] at h
    split at h <;> try contradiction
    rename_i free
    cases Option.some.inj h
    exact .refused free.1 free.2
  | reload tokens =>
    simp only [step] at h
    split at h <;> try contradiction
    rename_i mgr has
    cases Option.some.inj h
    exact .reloaded has
  | recvMessage i msg random =>
    simp only [step] at h
    split at h <;> try contradiction
    rename_i pc
    split at h
    · cases Option.some.inj h
      exact .hangsUp (.message pc)
    · cases Option.some.inj h
      exact dispatchMoves pc rfl
  | recvToken i mt random =>
    simp only [step] at h
    split at h
    · split at h <;> try contradiction
      rename_i waiting
      cases Option.some.inj h
      cases pc : σ.pc i with
      | loginRecv ver => exact .hangsUp (.loginToken pc)
      | connectRecv => exact .hangsUp (.connectToken pc)
      | acceptRecv => exact .hangsUp (.acceptToken pc)
      | _ => rw [pc] at waiting; cases waiting
    · exact recvTokenMoves h
  | wake i rest => exact wakeMoves h
  | lock i =>
    simp only [step,lock] at h
    split at h <;> try contradiction
    rename_i w pc
    split at h <;> try contradiction
    rename_i free
    cases Option.some.inj h
    exact .locks pc free
  | send i n =>
    simp only [step,send] at h
    split at h <;> try contradiction
    rename_i w sent pc
    split at h <;> try contradiction
    rename_i fits
    obtain ⟨conn,valid,h⟩ := Option.bind_eq_some_iff.mp h
    cases Option.some.inj h
    exact .sends pc fits.1 fits.2 valid
  | sendReturn i res => exact sendReturnMoves h
  | relay i toRemote data =>
    simp only [step,relay] at h
    split at h <;> try contradiction
    rename_i c r pc
    obtain ⟨conn,valid,h⟩ := Option.bind_eq_some_iff.mp h
    cases Option.some.inj h
    exact .relays pc valid
  | relayEnd i =>
    simp only [step] at h
    split at h <;> try contradiction
    rename_i c r pc
    cases Option.some.inj h
    exact .hangsUp (.relayOver pc)

end steps

end HevFsh.SessionTask
