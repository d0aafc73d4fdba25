import HevFsh.Registry

/-! What one step leaves behind. Histories are read back through `Logs`, one
constructor for each kind of entry; `Changes` says who may touch a record. -/
namespace HevFsh.SessionTask
open SearchTree Protocol SessionManager Transitions

def Pc.write : Pc → Option Write
  | .writeLock w => some w
  | .writeSend w _ => some w
  | _ => none

def Pc.sending : Pc → Option (Write × Nat)
  | .writeSend w n => some (w,n)
  | _ => none

def Action.task : Action → Option Sid
  | .accept _ | .refuse _ | .reload _ => none
  | .recvMessage i _ _ | .recvToken i _ _ | .wake i _ | .lock i | .send i _ | .sendReturn i _
  | .relay i _ _ | .relayEnd i => some i

def Action.returns : Action → Option (Sid × Int)
  | .sendReturn i res => some (i,res)
  | _ => none

instance (σ : Server) (i : Sid) (cmd : UInt8) : Decidable (Refuses σ i cmd) := by
  unfold Refuses; infer_instance

def closes (σ : Server) : Action → Option Sid
  | .recvMessage i none _ => some i
  | .recvMessage i (some (_,cmd)) _ => if Refuses σ i cmd then some i else none
  | .recvToken i none _ => some i
  | .recvToken i (some mt) _ => match σ.pc i with
      | .acceptRecv =>
          if (σ.session i).timeout = 0 ∨ (σ.find .connect mt).isSome then some i else none
      | _ => none
  | .wake i rest => match σ.pc i with
      | .rejected _ => if rest = 0 then some i else none
      | .acceptWait mt _ => if rest = 0 ∨ (σ.find .connect mt).isSome then some i else none
      | _ => none
  | .sendReturn i res => if res ≤ 0 then some i else none
  | .relayEnd i => some i
  | _ => none

def Event.plain : Event → Bool
  | .inserted _ _ | .erased _ _ | .closed _ _ _ | .destroyed _ => true
  | _ => false

inductive Logs (cfg : Config) (σ : Server) (a : Action) (σ' : Server) (es : List Event) :
    Event → Prop where
  | plain {e} (is : e.plain = true) : Logs cfg σ a σ' es e
  | opened {fd} (valid : 0 ≤ fd) (free : σ.fds fd = none) : Logs cfg σ a σ' es (.opened σ.count fd)
  | refused {fd} (valid : 0 ≤ fd) (free : σ.fds fd = none) : Logs cfg σ a σ' es (.refused σ.count fd)
  | reloaded {tokens} (is : a = .reload tokens) : Logs cfg σ a σ' es (.reloaded tokens)
  | header {i ver cmd random} (is : a = .recvMessage i (some (ver,cmd)) random)
      (pc : σ.pc i = .recvMessage) : Logs cfg σ a σ' es (.header i ver cmd)
  | loginToken {i mt random ver} (is : a = .recvToken i (some mt) random)
      (pc : σ.pc i = .loginRecv ver) : Logs cfg σ a σ' es (.token i .login mt)
  | connectToken {i mt random} (is : a = .recvToken i (some mt) random)
      (pc : σ.pc i = .connectRecv) : Logs cfg σ a σ' es (.token i .connect mt)
  | acceptToken {i mt random} (is : a = .recvToken i (some mt) random)
      (pc : σ.pc i = .acceptRecv) : Logs cfg σ a σ' es (.token i .accept mt)
  | loginGenerated {i ver t es₀} (came : LoginToken σ i a ver t es₀) : Logs cfg σ a σ' es (.generated i t)
  | connectGenerated {i mt random s} (is : a = .recvToken i (some mt) random)
      (pc : σ.pc i = .connectRecv) (found : σ.find .forward mt = some s)
      (temp : (σ.session s).isTempToken = true) : Logs cfg σ a σ' es (.generated i (tokenGenerate random))
  | checked {i ver t es₀ mgr} (came : LoginToken σ i a ver t es₀) (has : σ.tMgr = some mgr) :
      Logs cfg σ a σ' es (.checked i t (TokenManager.find mgr t))
  | loginLookup {i ver t es₀} (came : LoginToken σ i a ver t es₀) (allowed : Allowed σ t)
      (logged : es₀ ⊆ es) :
      Logs cfg σ a σ' es (.lookup i .login .forward t ((setToken σ i t).find .forward t))
  | connectLookup {i mt random} (is : a = .recvToken i (some mt) random) (pc : σ.pc i = .connectRecv)
      (logged : .token i .connect mt ∈ es) :
      Logs cfg σ a σ' es (.lookup i .connect .forward mt (σ.find .forward mt))
  | acceptLookup {i mt timeout es₀} (pass : AcceptPass σ i a mt timeout es₀) (logged : es₀ ⊆ es) :
      Logs cfg σ a σ' es (.lookup i .accept .connect mt (σ.find .connect mt))
  | evicted {i ver t es₀ s} (came : LoginToken σ i a ver t es₀) (allowed : Allowed σ t)
      (found : (setToken σ i t).find .forward t = some s)
      (order : List.Sublist (allowedEvents σ i t ++
        [.lookup i .login .forward t (some s),.evicted i s]) es) :
      Logs cfg σ a σ' es (.evicted i s)
  | announced {i mt random s} (is : a = .recvToken i (some mt) random) (pc : σ.pc i = .connectRecv)
      (found : σ.find .forward mt = some s)
      (logged : generatedEvents σ i s (given σ s mt random) ⊆ es) :
      Logs cfg σ a σ' es (.announced i s (given σ s mt random))
  | locked {i w} (pc : σ.pc i = .writeLock w) : Logs cfg σ a σ' es (.locked i w.target w.bytes)
  | sent {i w sent n conn} (is : a = .send i n) (pc : σ.pc i = .writeSend w sent)
      (room : sent + n ≤ w.bytes.length)
      (valid : σ.fds w.fd = some conn) (pc' : σ'.pc i = .writeSend w (sent + n)) :
      Logs cfg σ a σ' es (.sent i conn ((w.bytes.drop sent).take n))
  | returned {i w sent res} (is : a = .sendReturn i res) (pc : σ.pc i = .writeSend w sent) :
      Logs cfg σ a σ' es (.returned i w.target w.bytes sent res)
  | loginRegistered {i w sent res ver} (is : a = .sendReturn i res) (pc : σ.pc i = .writeSend w sent)
      (done : 0 < res) (after : w.after = .login ver) :
      Logs cfg σ a σ' es (.registered i .forward (σ.session i).token)
  | connectRegistered {i w sent res mt} (is : a = .sendReturn i res)
      (pc : σ.pc i = .writeSend w sent) (done : 0 < res) (after : w.after = .connect mt) :
      Logs cfg σ a σ' es (.registered i .connect mt)
  | matched {i mt timeout es₀ s} (pass : AcceptPass σ i a mt timeout es₀) (left : timeout ≠ 0)
      (found : σ.find .connect mt = some s) (next : σ' = closeSession cfg (handOver cfg σ i s) i)
      (logged : es₀ ⊆ es) :
      Logs cfg σ a σ' es (.matched i s mt (σ.session i).clientFd)
  | relaying {i} (runs : (σ.pc i).runs = true)
      (pc' : σ'.pc i = .relay (σ.session i).clientFd (σ.session i).remoteFd) :
      Logs cfg σ a σ' es (.relaying i (σ.session i).clientFd (σ.session i).remoteFd)
  | relayed {i c r conn data} (pc : σ.pc i = .relay c r)
      (valid : σ.fds c = some conn ∨ σ.fds r = some conn) : Logs cfg σ a σ' es (.relayed i conn data)

section logs
variable {cfg : Config} {σ σ' σ₀ : Server} {i : Sid} {a : Action} {es : List Event}

theorem closePlain {e} (mem : e ∈ closeEvents σ i) : e.plain = true := by
  simp only [closeEvents,destructEvents,closedEvents,List.mem_append,List.mem_ite_nil_right,
    List.mem_singleton] at mem
  rcases mem with ⟨_,rfl⟩ | (⟨_,rfl⟩ | ⟨_,rfl⟩) | rfl <;> rfl

theorem closeLogs {e} (mem : e ∈ closeEvents σ₀ i) : Logs cfg σ a σ' es e := .plain (closePlain mem)

theorem loginTokenLogs {ver t es₀} (came : LoginToken σ i a ver t es₀) {e} (mem : e ∈ es₀) :
    Logs cfg σ a σ' es e := by
  cases came with
  | first pc is type =>
    simp only [List.mem_cons,List.not_mem_nil,or_false] at mem
    rcases mem with rfl | rfl
    · exact .header rfl pc
    · exact .loginGenerated (.first pc is type)
  | zero pc =>
    simp only [List.mem_cons,List.not_mem_nil,or_false] at mem
    rcases mem with rfl | rfl
    · exact .loginToken rfl pc
    · exact .loginGenerated (.zero pc)
  | client pc nonzero =>
    cases List.mem_singleton.mp mem
    exact .loginToken rfl pc

theorem acceptPassLogs {mt timeout es₀} (pass : AcceptPass σ i a mt timeout es₀) {e} (mem : e ∈ es₀) :
    Logs cfg σ a σ' es e := by
  cases pass with
  | first pc =>
    cases List.mem_singleton.mp mem
    exact .acceptToken rfl pc
  | again pc less => contradiction

theorem allowedLogs {ver t es₀} (came : LoginToken σ i a ver t es₀) (allowed : Allowed σ t) {e}
    (mem : e ∈ allowedEvents σ i t) : Logs cfg σ a σ' es e := by
  unfold allowedEvents at mem
  unfold Allowed at allowed
  split at mem
  · contradiction
  · rename_i mgr has
    cases List.mem_singleton.mp mem
    rw [has] at allowed
    exact allowed ▸ .checked came has

theorem movesLogs (move : Moves cfg σ a σ' es) {e} (mem : e ∈ es) : Logs cfg σ a σ' es e := by
  cases move with
  | opened valid free => cases List.mem_singleton.mp mem; exact .opened valid free
  | refused valid free => cases List.mem_singleton.mp mem; exact .refused valid free
  | reloaded has => cases List.mem_singleton.mp mem; exact .reloaded rfl
  | hangsUp ending => exact closeLogs mem
  | refuses pc bad =>
    rcases List.mem_cons.mp mem with rfl | mem
    · exact .header rfl pc
    · exact closeLogs mem
  | enters pc next => cases List.mem_singleton.mp mem; exact .header rfl pc
  | loginRejected came has unlisted =>
    rcases List.mem_append.mp mem with mem | mem
    · exact loginTokenLogs came mem
    · cases List.mem_singleton.mp mem
      exact unlisted ▸ .checked came has
  | loginFresh came allowed missing =>
    simp only [List.mem_append,List.mem_singleton] at mem
    rcases mem with (mem | mem) | rfl
    · exact loginTokenLogs came mem
    · exact allowedLogs came allowed mem
    · exact missing ▸ .loginLookup came allowed (by simp)
  | loginEvicts came allowed found =>
    simp only [List.mem_append,List.mem_cons,List.not_mem_nil,or_false] at mem
    rcases mem with (mem | mem) | rfl | rfl | rfl
    · exact loginTokenLogs came mem
    · exact allowedLogs came allowed mem
    · exact found ▸ .loginLookup came allowed (by simp)
    · refine .evicted came allowed found ?_
      simp only [List.append_assoc]
      refine List.Sublist.trans ?_ (List.sublist_append_right _ _)
      exact (List.Sublist.refl _).append (by simp)
    · exact .plain rfl
  | connectMissing pc missing =>
    simp only [List.mem_cons,List.not_mem_nil,or_false] at mem
    rcases mem with rfl | rfl
    · exact .connectToken rfl pc
    · exact missing ▸ .connectLookup rfl pc (by simp)
  | connectFound pc found =>
    simp only [generatedEvents,List.mem_append,List.mem_cons,List.not_mem_nil,or_false,
      List.mem_ite_nil_right] at mem
    rcases mem with ((rfl | rfl) | ⟨temp,rfl⟩) | rfl
    · exact .connectToken rfl pc
    · exact found ▸ .connectLookup rfl pc (by simp)
    · simp only [given,temp,if_true]
      exact .connectGenerated rfl pc found temp
    · refine .announced rfl pc found (fun e mem => ?_)
      simp [mem]
  | acceptOver pass =>
    rcases List.mem_append.mp mem with mem | mem
    · exact acceptPassLogs pass mem
    · exact closeLogs mem
  | acceptWaits pass left missing =>
    rcases List.mem_append.mp mem with mem | mem
    · exact acceptPassLogs pass mem
    · cases List.mem_singleton.mp mem
      exact missing ▸ .acceptLookup pass (by simp)
  | acceptMatches pass left found =>
    simp only [List.mem_append,List.mem_cons,List.not_mem_nil,or_false] at mem
    rcases mem with (mem | rfl | rfl | rfl | rfl) | mem
    · exact acceptPassLogs pass mem
    · exact found ▸ .acceptLookup pass (by simp)
    · exact .matched pass left found rfl (by simp)
    · exact .plain rfl
    · exact .plain rfl
    · exact closeLogs mem
  | sleeps pc less left => contradiction
  | locks pc free => cases List.mem_singleton.mp mem; exact .locked pc
  | sends pc positive room valid =>
    cases List.mem_singleton.mp mem
    exact .sent rfl pc room valid (by simp)
  | writeFails pc fail =>
    rcases List.mem_cons.mp mem with rfl | mem
    · exact .returned rfl pc
    · exact closeLogs mem
  | loginRegisters pc done is =>
    simp only [List.mem_cons,List.not_mem_nil,or_false] at mem
    rcases mem with rfl | rfl | rfl
    · exact .returned rfl pc
    · exact .plain rfl
    · exact .loginRegistered rfl pc done is
  | connectWaits pc done is left unset =>
    simp only [List.mem_cons,List.not_mem_nil,or_false] at mem
    rcases mem with rfl | rfl | rfl
    · exact .returned rfl pc
    · exact .plain rfl
    · exact .connectRegistered rfl pc done is
  | connectRelays pc done is leaves =>
    simp only [List.mem_cons,List.not_mem_nil,or_false] at mem
    rcases mem with rfl | rfl | rfl | rfl
    · exact .returned rfl pc
    · exact .plain rfl
    · exact .connectRegistered rfl pc done is
    · exact .relaying (by simp [pc,Pc.runs]) (by simp)
  | kept pc done is => cases List.mem_singleton.mp mem; exact .returned rfl pc
  | spliceWaits pc less left unset => contradiction
  | spliceRelays pc less leaves =>
    cases List.mem_singleton.mp mem
    exact .relaying (by simp [pc,Pc.runs]) (by simp)
  | @relays i c r toRemote data conn pc valid =>
    cases List.mem_singleton.mp mem
    refine .relayed pc ?_
    cases toRemote with
    | true => exact .inr (by simpa using valid)
    | false => exact .inl (by simpa using valid)

theorem hangsUpCloses (ending : HangsUp σ i a) : closes σ a = some i := by
  cases ending with
  | sleepOver pc => simp [closes,pc]
  | _ => simp [closes]

theorem acceptOverCloses {mt es₀} (pass : AcceptPass σ i a mt 0 es₀) : closes σ a = some i := by
  generalize zero : (0 : UInt32) = timeout at pass
  cases pass with
  | first pc => simp [closes,pc,← zero]
  | again pc less => simp [closes,pc,← zero]

theorem acceptMatchCloses {mt timeout es₀ s} (pass : AcceptPass σ i a mt timeout es₀)
    (found : σ.find .connect mt = some s) : closes σ a = some i := by
  cases pass with
  | first pc => simp [closes,pc,found]
  | again pc less => simp [closes,pc,found]

theorem closesTask (ending : closes σ a = some i) : a.task = some i := by
  unfold closes at ending
  split at ending <;> (repeat' split at ending) <;> simp_all [Action.task]

/- How a step may change the record of `j`, its lock apart. -/
inductive Changes (cfg : Config) (σ : Server) (a : Action) (es : List Event) (j : Sid) :
    Session → Prop where
  | same : Changes cfg σ a es j (σ.session j)
  | opened {fd} (fresh : j = σ.count) (nobody : a.task = none) : Changes cfg σ a es j (newSession cfg fd)
  | closed (ending : closes σ a = some j) : Changes cfg σ a es j {σ.session j with live := false}
  | handed {mt timeout es₀} (pass : AcceptPass σ j a mt timeout es₀) (ending : closes σ a = some j) :
      Changes cfg σ a es j {σ.session j with live := false, clientFd := -1}
  | token {ver t es₀} (came : LoginToken σ j a ver t es₀) :
      Changes cfg σ a es j {σ.session j with token := t}
  | forward {w sent res ver} (is : a = .sendReturn j res) (pc : σ.pc j = .writeSend w sent)
      (done : 0 < res) (after : w.after = .login ver) : Changes cfg σ a es j (forwardSession (σ.session j) ver)
  | connect {w sent res mt} (is : a = .sendReturn j res) (pc : σ.pc j = .writeSend w sent)
      (done : 0 < res) (after : w.after = .connect mt)
      (logged : ∃ rest, es = [.returned j w.target w.bytes sent res,.inserted σ.tree j,
        .registered j .connect mt] ++ rest) : Changes cfg σ a es j (connectSession (σ.session j) mt)
  | evicted {i ver t es₀} (came : LoginToken σ i a ver t es₀) (allowed : Allowed σ t)
      (found : (setToken σ i t).find .forward t = some j)
      (logged : .lookup i .login .forward t (some j) ∈ es) :
      Changes cfg σ a es j {σ.session j with isMgr := false, type := .closed, timeout := 0}
  | spliced {i mt timeout es₀} (pass : AcceptPass σ i a mt timeout es₀)
      (found : σ.find .connect mt = some j) (logged : .lookup i .accept .connect mt (some j) ∈ es) :
      Changes cfg σ a es j {σ.session j with type := .splice, remoteFd := (σ.session i).clientFd}

def Changed (cfg : Config) (σ : Server) (a : Action) (es : List Event) (σ' : Server) (j : Sid) :
    Prop :=
  ∃ s lock, Changes cfg σ a es j s ∧ σ'.session j = {s with wlock := lock}

theorem changedSame {j : Sid} (same : σ'.session j = σ.session j) : Changed cfg σ a es σ' j :=
  ⟨σ.session j,(σ.session j).wlock,.same,same⟩

theorem changedUpdate {s : Session} (session : σ'.session = Function.update σ.session i s)
    (change : Changes cfg σ a es i s) (j : Sid) : Changed cfg σ a es σ' j := by
  by_cases same : j = i
  · subst same
    exact ⟨s,s.wlock,change,by rw [session,Function.update_self]⟩
  · exact changedSame (by rw [session,Function.update_of_ne same])

theorem changedUnlock {target : Sid} {s : Session}
    (session : σ'.session = Function.update (unlock σ target).session i s)
    (change : ∃ s₀ lock, Changes cfg σ a es i s₀ ∧ s = {s₀ with wlock := lock}) (j : Sid) :
    Changed cfg σ a es σ' j := by
  by_cases same : j = i
  · subst same
    obtain ⟨s₀,lock,change,shape⟩ := change
    exact ⟨s₀,lock,change,by rw [session,Function.update_self,shape]⟩
  · have old : σ'.session j = (unlock σ target).session j := by
      rw [session,Function.update_of_ne same]
    exact ⟨σ.session j,_,.same,old.trans (unlockSession σ target j)⟩

theorem hangsUpTask (ending : HangsUp σ i a) : a.task = some i := by
  cases ending <;> rfl

theorem acceptPassTask {mt timeout es} (pass : AcceptPass σ i a mt timeout es) : a.task = some i := by
  cases pass <;> rfl

theorem loginTokenTask {ver t es} (came : LoginToken σ i a ver t es) : a.task = some i := by
  cases came <;> rfl

theorem changesMoves (reg : Registry σ) (move : Moves cfg σ a σ' es) (j : Sid) :
    Changed cfg σ a es σ' j := by
  cases move with
  | opened valid free => exact changedUpdate rfl (.opened rfl rfl) j
  | hangsUp ending => exact changedUpdate (closeSessionSession σ _ cfg) (.closed (hangsUpCloses ending)) j
  | refuses pc bad =>
    exact changedUpdate (closeSessionSession σ _ cfg) (.closed (by simp [closes,bad])) j
  | loginRejected came has unlisted => exact changedUpdate rfl (.token came) j
  | loginFresh came allowed missing => exact changedUpdate rfl (.token came) j
  | @loginEvicts i a ver t es s came allowed found =>
    obtain ⟨_,type,_⟩ := loginTokenPlace reg came
    have other := (loginFinds type found).1
    by_cases evicted : j = s
    · subst evicted
      refine ⟨_,(σ.session j).wlock,.evicted came allowed found (by simp),?_⟩
      simp [writeMessage,setToken,Function.update_of_ne other]
    · by_cases self : j = i
      · subst self
        refine ⟨_,(σ.session j).wlock,.token came,?_⟩
        simp [writeMessage,setToken,Function.update_of_ne evicted]
      · refine changedSame ?_
        simp [writeMessage,setToken,Function.update_of_ne evicted,Function.update_of_ne self]
  | acceptOver pass =>
    exact changedUpdate (closeSessionSession σ _ cfg) (.closed (acceptOverCloses pass)) j
  | @acceptMatches i a mt timeout es s pass left found =>
    obtain ⟨_,serves⟩ := acceptPassPlace reg pass
    have other := (acceptFinds serves found).1
    by_cases self : j = i
    · subst self
      refine ⟨_,(σ.session j).wlock,.handed pass (acceptMatchCloses pass found),?_⟩
      simp [handOverSession σ cfg other]
    · by_cases taker : j = s
      · subst taker
        refine ⟨_,(σ.session j).wlock,.spliced pass found (by simp),?_⟩
        simp [handOverSession σ cfg other,self]
      · refine changedSame ?_
        simp [handOverSession σ cfg other,self,taker]
  | @locks i w pc free =>
    by_cases same : j = w.target
    · subst same; exact ⟨_,some i,.same,by simp⟩
    · exact changedSame (by simp [Function.update_of_ne same])
  | writeFails pc fail =>
    exact changedUnlock (closeSessionSession _ _ _)
      ⟨_,_,.closed (by simp [closes,fail]),by rw [unlockSession]⟩ j
  | loginRegisters pc done is =>
    exact changedUnlock rfl ⟨_,_,.forward rfl pc done is,by rw [unlockSession]; rfl⟩ j
  | connectWaits pc done is left unset =>
    exact changedUnlock rfl ⟨_,_,.connect rfl pc done is ⟨[],rfl⟩,by rw [unlockSession]; rfl⟩ j
  | connectRelays pc done is leaves =>
    exact changedUnlock rfl ⟨_,_,.connect rfl pc done is ⟨[_],rfl⟩,by rw [unlockSession]; rfl⟩ j
  | kept pc done is => exact ⟨σ.session j,_,.same,unlockSession σ _ j⟩
  | _ => exact changedSame rfl

theorem placeMoves (move : Moves cfg σ a σ' es) {j : Sid} (other : a.task ≠ some j)
    (old : j ≠ σ.count) : σ'.pc j = σ.pc j := by
  have apart : ∀ {i}, a.task = some i → j ≠ i := by
    rintro i mine rfl
    exact other mine
  cases move with
  | opened valid free => simp [opened,Function.update_of_ne old]
  | refused valid free => rfl
  | reloaded has => rfl
  | hangsUp ending => simp [Function.update_of_ne (apart (hangsUpTask ending))]
  | loginRejected came has unlisted =>
    simp [reject,setToken,Function.update_of_ne (apart (loginTokenTask came))]
  | loginFresh came allowed missing =>
    simp [writeMessage,setToken,Function.update_of_ne (apart (loginTokenTask came))]
  | loginEvicts came allowed found =>
    simp [writeMessage,setToken,Function.update_of_ne (apart (loginTokenTask came))]
  | acceptOver pass => simp [Function.update_of_ne (apart (acceptPassTask pass))]
  | acceptWaits pass left missing => simp [Function.update_of_ne (apart (acceptPassTask pass))]
  | acceptMatches pass left found => simp [Function.update_of_ne (apart (acceptPassTask pass))]
  | relays pc valid => rfl
  | _ => simp [reject,writeMessage,Function.update_of_ne (apart rfl)]

/- How the task of `j` may come to stand at a place. -/
inductive Arrives (σ : Server) (a : Action) (σ' : Server) (es : List Event) (j : Sid) :
    Pc → Prop where
  | stays (away : a.task = some j → ∃ toRemote data, a = .relay j toRemote data) :
      Arrives σ a σ' es j (σ.pc j)
  | opened (fresh : j = σ.count) (nobody : a.task = none) : Arrives σ a σ' es j .recvMessage
  | ended (mine : a.task = some j) : Arrives σ a σ' es j .ended
  | rejected {ms} (mine : a.task = some j) : Arrives σ a σ' es j (.rejected ms)
  | enters {ver cmd random p} (is : a = .recvMessage j (some (ver,cmd)) random)
      (pc : σ.pc j = .recvMessage) (next : Enters σ j ver cmd p) (logged : es = [.header j ver cmd]) :
      Arrives σ a σ' es j p
  | login {ver t es₀ rest} (came : LoginToken σ j a ver t es₀) (allowed : Allowed σ t)
      (token : (σ'.session j).token = t)
      (logged : es = es₀ ++ allowedEvents σ j t ++
        .lookup j .login .forward t ((setToken σ j t).find .forward t) :: rest) :
      Arrives σ a σ' es j (.writeLock ⟨j,(σ.session j).clientFd,loginReply t,.login ver⟩)
  | connect {mt random s} (is : a = .recvToken j (some mt) random) (pc : σ.pc j = .connectRecv)
      (found : σ.find .forward mt = some s)
      (logged : es = [.token j .connect mt,.lookup j .connect .forward mt (some s)] ++
        generatedEvents σ j s (given σ s mt random) ++ [.announced j s (given σ s mt random)]) :
      Arrives σ a σ' es j (.writeLock ⟨s,(σ.session s).clientFd,
        message 1 .connect (given σ s mt random).bytes,.connect (given σ s mt random)⟩)
  | accept {mt timeout es₀} (pass : AcceptPass σ j a mt timeout es₀)
      (logged : es = es₀ ++ [.lookup j .accept .connect mt none]) :
      Arrives σ a σ' es j (.acceptWait mt timeout)
  | locks {w} (is : a = .lock j) (pc : σ.pc j = .writeLock w)
      (free : (σ.session w.target).wlock = none) (logged : es = [.locked j w.target w.bytes]) :
      Arrives σ a σ' es j (.writeSend {w with fd := if w.after = .keepAlive
        then (σ.session w.target).clientFd else w.fd} 0)
  | sends {w sent n conn} (is : a = .send j n) (pc : σ.pc j = .writeSend w sent) (positive : 0 < n)
      (room : sent + n ≤ w.bytes.length) (valid : σ.fds w.fd = some conn)
      (logged : es = [.sent j conn ((w.bytes.drop sent).take n)]) :
      Arrives σ a σ' es j (.writeSend w (sent + n))
  | registered {w sent res ver} (is : a = .sendReturn j res) (pc : σ.pc j = .writeSend w sent)
      (after : w.after = .login ver) (type : (σ'.session j).type = .forward) :
      Arrives σ a σ' es j .recvMessage
  | kept {w sent res} (is : a = .sendReturn j res) (pc : σ.pc j = .writeSend w sent)
      (after : w.after = .keepAlive) : Arrives σ a σ' es j .recvMessage
  | connected {w sent res mt timeout} (is : a = .sendReturn j res) (pc : σ.pc j = .writeSend w sent)
      (after : w.after = .connect mt) : Arrives σ a σ' es j (.spliceWait timeout)
  | waits {timeout rest} (is : a = .wake j rest) (pc : σ.pc j = .spliceWait timeout) :
      Arrives σ a σ' es j (.spliceWait rest)
  | connectRelays {w sent res mt c r} (is : a = .sendReturn j res) (pc : σ.pc j = .writeSend w sent)
      (after : w.after = .connect mt) (logged : .relaying j c r ∈ es) : Arrives σ a σ' es j (.relay c r)
  | spliceRelays {timeout rest c r} (is : a = .wake j rest) (pc : σ.pc j = .spliceWait timeout)
      (logged : .relaying j c r ∈ es) : Arrives σ a σ' es j (.relay c r)

section arrives
variable {j : Sid}

theorem arrivesMoved {p : Pc} (mine : ∀ j, a.task = some j → j = i)
    (pc : σ'.pc = Function.update σ.pc i p) (at' : Arrives σ a σ' es i p) :
    Arrives σ a σ' es j (σ'.pc j) := by
  rw [pc]
  by_cases same : j = i
  · subst same; simpa using at'
  · rw [Function.update_of_ne same]
    exact .stays (fun task => absurd (mine j task) same)

theorem arrivesMoves (reg : Registry σ) (move : Moves cfg σ a σ' es) : Arrives σ a σ' es j (σ'.pc j) := by
  have own : ∀ {i}, a.task = some i → ∀ j, a.task = some j → j = i :=
    fun mine j task => Option.some.inj (task.symm.trans mine)
  cases move with
  | opened valid free => exact arrivesMoved (fun _ task => by contradiction) rfl (.opened rfl rfl)
  | refused valid free => exact .stays (fun task => by contradiction)
  | reloaded has => exact .stays (fun task => by contradiction)
  | hangsUp ending =>
    have mine := hangsUpTask ending
    exact arrivesMoved (own mine) (closeSessionPc _ _ _) (.ended mine)
  | refuses pc bad => exact arrivesMoved (own rfl) (closeSessionPc _ _ _) (.ended rfl)
  | enters pc next => exact arrivesMoved (own rfl) rfl (.enters rfl pc next rfl)
  | loginRejected came has unlisted =>
    have mine := loginTokenTask came
    exact arrivesMoved (own mine) rfl (.rejected mine)
  | @loginFresh i a ver t es came allowed missing =>
    refine arrivesMoved (p := .writeLock ⟨i,(σ.session i).clientFd,loginReply t,.login ver⟩)
      (own (loginTokenTask came)) ?_
      (.login came allowed (by simp [writeMessage,setToken]) (by rw [missing]))
    simp [writeMessage,setToken]
  | @loginEvicts i a ver t es s came allowed found =>
    have other := (loginFinds (loginTokenPlace reg came).2.1 found).1
    refine arrivesMoved (p := .writeLock ⟨i,(σ.session i).clientFd,loginReply t,.login ver⟩)
      (own (loginTokenTask came)) ?_ (.login came allowed ?_ (by rw [found]))
    all_goals simp [writeMessage,setToken,Function.update_of_ne (Ne.symm other)]
  | connectMissing pc missing => exact arrivesMoved (own rfl) rfl (.rejected rfl)
  | connectFound pc found => exact arrivesMoved (own rfl) rfl (.connect rfl pc found rfl)
  | acceptOver pass =>
    have mine := acceptPassTask pass
    exact arrivesMoved (own mine) (closeSessionPc _ _ _) (.ended mine)
  | acceptWaits pass left missing =>
    exact arrivesMoved (own (acceptPassTask pass)) rfl (.accept pass rfl)
  | acceptMatches pass left found =>
    have mine := acceptPassTask pass
    exact arrivesMoved (own mine) (closeSessionPc _ _ _) (.ended mine)
  | sleeps pc less left => exact arrivesMoved (own rfl) rfl (.rejected rfl)
  | locks pc free => exact arrivesMoved (own rfl) rfl (.locks rfl pc free rfl)
  | sends pc positive room valid =>
    exact arrivesMoved (own rfl) rfl (.sends rfl pc positive room valid rfl)
  | writeFails pc fail => exact arrivesMoved (own rfl) (closeSessionPc _ _ _) (.ended rfl)
  | loginRegisters pc done is =>
    exact arrivesMoved (own rfl) rfl (.registered rfl pc is (by simp [forwardSession]))
  | connectWaits pc done is left unset => exact arrivesMoved (own rfl) rfl (.connected rfl pc is)
  | connectRelays pc done is leaves =>
    exact arrivesMoved (own rfl) rfl (.connectRelays rfl pc is (by simp))
  | kept pc done is => exact arrivesMoved (own rfl) rfl (.kept rfl pc is)
  | spliceWaits pc less left unset => exact arrivesMoved (own rfl) rfl (.waits rfl pc)
  | spliceRelays pc less leaves =>
    exact arrivesMoved (own rfl) rfl (.spliceRelays rfl pc (by simp))
  | relays pc valid =>
    refine .stays (fun task => ?_)
    cases task
    exact ⟨_,_,rfl⟩

inductive Writes (σ : Server) (a : Action) (σ' : Server) (es : List Event) (j : Sid) :
    Write → Prop where
  | carried {w} (fd : Int) (old : (σ.pc j).write = some w) : Writes σ a σ' es j {w with fd := fd}
  | keepAlive {ver cmd random} (is : a = .recvMessage j (some (ver,cmd)) random)
      (pc : σ.pc j = .recvMessage) (cmdIs : Command.ofByte cmd = some .keepAlive) :
      Writes σ a σ' es j ⟨j,(σ.session j).clientFd,message 1 .keepAlive [],.keepAlive⟩
  | login {ver t es₀ rest} (came : LoginToken σ j a ver t es₀) (allowed : Allowed σ t)
      (token : (σ'.session j).token = t) (logged : es = es₀ ++ allowedEvents σ j t ++ rest) :
      Writes σ a σ' es j ⟨j,(σ.session j).clientFd,loginReply t,.login ver⟩
  | connect {mt random s} (is : a = .recvToken j (some mt) random) (pc : σ.pc j = .connectRecv)
      (found : σ.find .forward mt = some s)
      (logged : es = [.token j .connect mt,.lookup j .connect .forward mt (some s)] ++
        (generatedEvents σ j s (given σ s mt random) ++ [.announced j s (given σ s mt random)])) :
      Writes σ a σ' es j ⟨s,(σ.session s).clientFd,
        message 1 .connect (given σ s mt random).bytes,.connect (given σ s mt random)⟩

theorem writesMoves {w} (reg : Registry σ) (move : Moves cfg σ a σ' es)
    (writes : (σ'.pc j).write = some w) : Writes σ a σ' es j w := by
  have arrives := arrivesMoves reg move (j := j)
  generalize σ'.pc j = p at arrives writes
  cases arrives with
  | stays away => exact .carried w.fd writes
  | enters is pc next logged =>
    cases next with
    | keepAlive cmdIs other =>
      cases Option.some.inj writes
      exact .keepAlive is pc cmdIs
    | _ => simp [Pc.write] at writes
  | login came allowed token logged =>
    cases Option.some.inj writes
    exact .login came allowed token logged
  | connect is pc found logged =>
    cases Option.some.inj writes
    exact .connect is pc found (logged.trans (List.append_assoc _ _ _))
  | locks is pc free logged =>
    cases Option.some.inj writes
    exact .carried _ (by rw [pc]; rfl)
  | sends is pc positive room valid logged =>
    cases Option.some.inj writes
    exact .carried w.fd (by rw [pc]; rfl)
  | _ => simp [Pc.write] at writes

end arrives

end logs

end HevFsh.SessionTask
