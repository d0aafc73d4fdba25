import HevFsh.Isolation

/-! What a request has changed by the time it fails. A request is followed from
its header through the steps of its own task; other tasks may run in between. -/
namespace HevFsh.SessionTask
open SearchTree Protocol SessionManager Transitions

structure Own where
  before : Server
  after : Server
  events : List Event

inductive Handling (cfg : Config) (i : Sid) (cmd : Command) :
    List Own → Server → Log Server Event → Prop where
  | begins {σ log ver byte random σ' es} (run : Run (machine cfg) (fun _ _ => True) σ log)
      (is : Command.ofByte byte = some cmd)
      (taken : step cfg σ (.recvMessage i (some (ver,byte)) random) = some (σ',es)) :
      Handling cfg i cmd [⟨σ,σ',es⟩] σ' (log ++ es.map (σ,·))
  | goesOn {own σ log a σ' es} (so : Handling cfg i cmd own σ log) (mine : a.task = some i)
      (inside : σ.pc i ≠ .recvMessage) (taken : step cfg σ a = some (σ',es)) :
      Handling cfg i cmd (own ++ [⟨σ,σ',es⟩]) σ' (log ++ es.map (σ,·))
  | others {own σ log a σ' es} (so : Handling cfg i cmd own σ log) (other : a.task ≠ some i)
      (taken : step cfg σ a = some (σ',es)) : Handling cfg i cmd own σ' (log ++ es.map (σ,·))

def Event.settles : Event → Bool
  | .registered _ _ _ | .matched _ _ _ _ => true
  | _ => false

def displaces (σ : Server) : Event → Option Sid
  | .lookup _ .login _ t _ => σ.find .forward t
  | _ => none

/- No record but the task's own has changed, its lock apart, which is only taken
when free and given back; the tree loses at most the task's own session, with its end. -/
structure Untouched (cfg : Config) (i : Sid) (σ σ' : Server) : Prop where
  others : ∀ j, j ≠ i → σ'.session j = {σ.session j with wlock := (σ'.session j).wlock}
  lock : ∀ j, j ≠ i → (σ'.session j).wlock = (σ.session j).wlock ∨
    ((σ.session j).wlock = none ∧ (σ'.session j).wlock = some i) ∨
    ((σ.session j).wlock = some i ∧ (σ'.session j).wlock = none)
  tree : σ'.tree = σ.tree ∨ ((σ.session i).isMgr = true ∧ (σ'.session i).live = false ∧
    σ'.tree = remove cfg.sessions σ.tree i)

section steps
variable {cfg : Config} {σ σ' : Server} {i j : Sid} {a : Action} {es : List Event}

theorem untouchedOwn {s : Session} (session : σ'.session = Function.update σ.session i s)
    (tree : σ'.tree = σ.tree ∨ ((σ.session i).isMgr = true ∧ (σ'.session i).live = false ∧
      σ'.tree = remove cfg.sessions σ.tree i)) : Untouched cfg i σ σ' := by
  have same : ∀ j, j ≠ i → σ'.session j = σ.session j := by
    intro j other
    rw [session,Function.update_of_ne other]
  refine ⟨fun j other => ?_,fun j other => .inl (by rw [same j other]),tree⟩
  rw [same j other]

theorem untouchedClose : Untouched cfg i σ (closeSession cfg σ i) := by
  refine untouchedOwn (closeSessionSession σ i cfg) ?_
  rw [closeSessionTree]
  split
  · rename_i mgr
    exact .inr ⟨mgr,by simp,rfl⟩
  · exact .inl rfl

theorem untouchedUnlock {target : Sid} {s : Session} (held : (σ.session target).wlock = some i)
    (session : σ'.session = Function.update (unlock σ target).session i s)
    (tree : σ'.tree = σ.tree ∨ ((σ.session i).isMgr = true ∧ (σ'.session i).live = false ∧
      σ'.tree = remove cfg.sessions σ.tree i)) : Untouched cfg i σ σ' := by
  have kept : ∀ j, j ≠ i → σ'.session j = (unlock σ target).session j := by
    intro j other
    rw [session,Function.update_of_ne other]
  refine ⟨fun j other => ?_,fun j other => ?_,tree⟩
  · rw [kept j other,unlockSession]
  · rw [kept j other,unlockSession]
    by_cases here : j = target
    · subst here
      exact .inr (.inr ⟨held,by simp⟩)
    · exact .inl (by simp [here])

theorem loginFindsSame {ver t es₀} (reg : Registry σ) (came : LoginToken σ i a ver t es₀) :
    (setToken σ i t).find .forward t = none ↔ σ.find .forward t = none := by
  obtain ⟨_,type,absent⟩ := loginTokenPlace reg came
  constructor
  · intro missing
    cases hit : σ.find .forward t with
    | none => rfl
    | some s =>
      obtain ⟨mem,forward,token⟩ := findSound hit
      have other : s ≠ i := by rintro rfl; exact absent mem
      refine absurd ?_ (findNone (registryToken reg absent t).sorted missing mem)
      simp [setToken,Function.update_of_ne other,forward,token]
  · intro missing
    cases hit : (setToken σ i t).find .forward t with
    | none => rfl
    | some s =>
      obtain ⟨_,mem,forward,token⟩ := loginFinds type hit
      exact absurd ⟨forward,token⟩ (findNone reg.sorted missing mem)

theorem untouchedMoves (reg : Registry σ) (writing : ∀ i, WritingAt σ i) (move : Moves cfg σ a σ' es)
    (mine : a.task = some i) (open' : ∀ e ∈ es, e.settles = false)
    (alone : ∀ e ∈ es, displaces σ e = none) : Untouched cfg i σ σ' := by
  have own : ∀ {k}, a.task = some k → k = i := fun h => Option.some.inj (h.symm.trans mine)
  cases move with
  | opened valid free => contradiction
  | refused valid free => contradiction
  | reloaded has => contradiction
  | hangsUp ending => cases own (hangsUpTask ending); exact untouchedClose
  | refuses pc bad => cases mine; exact untouchedClose
  | loginRejected came has unlisted => cases own (loginTokenTask came); exact untouchedOwn rfl (.inl rfl)
  | loginFresh came allowed missing => cases own (loginTokenTask came); exact untouchedOwn rfl (.inl rfl)
  | @loginEvicts k a ver t es s came allowed found =>
    have missing : σ.find .forward t = none :=
      alone (.lookup k .login .forward t (some s)) (by simp)
    rw [(loginFindsSame reg came).mpr missing] at found
    contradiction
  | acceptOver pass => cases own (acceptPassTask pass); exact untouchedClose
  | acceptMatches pass left found => simp [Event.settles,or_imp,forall_and] at open'
  | @locks k w pc free =>
    cases mine
    refine ⟨fun j other => ?_,fun j other => ?_,.inl rfl⟩
    all_goals
      by_cases here : j = w.target
      · subst here; simp [free]
      · simp [Function.update_of_ne here]
  | @writeFails k w sent res pc fail =>
    cases mine
    have managed : ((unlock σ w.target).session i).isMgr = (σ.session i).isMgr := by rw [unlockSession]
    refine untouchedUnlock ((writing i).lock _ _ pc).1 (closeSessionSession _ _ _) ?_
    rw [closeSessionTree,managed]
    split
    · rename_i mgr
      exact .inr ⟨mgr,by simp,rfl⟩
    · exact .inl rfl
  | loginRegisters pc done is => simp [Event.settles] at open'
  | connectWaits pc done is left unset => simp [Event.settles] at open'
  | connectRelays pc done is leaves => simp [Event.settles] at open'
  | @kept k w sent res pc done is =>
    cases mine
    exact untouchedUnlock ((writing i).lock _ _ pc).1
      (Function.update_eq_self i (unlock σ w.target).session).symm (.inl rfl)
  | _ => exact untouchedOwn (Function.update_eq_self i σ.session).symm (.inl rfl)

theorem lookupShape {e : Event} {s} (hit : displaces σ e = some s) :
    ∃ k type t found, e = .lookup k .login type t found ∧ σ.find .forward t = some s := by
  unfold displaces at hit
  split at hit <;> try contradiction
  exact ⟨_,_,_,_,rfl,hit⟩

theorem displacedMoves (reg : Registry σ) (move : Moves cfg σ a σ' es) (mine : a.task = some i) {e s}
    (mem : e ∈ es) (hit : displaces σ e = some s) : ¬ Untouched cfg i σ σ' := by
  obtain ⟨k,type,t,found,rfl,holder⟩ := lookupShape hit
  have quiet : ∀ {σ₀ j}, Event.lookup k .login type t found ∉ closeEvents σ₀ j := by
    intro σ₀ j mem
    have := closePlain mem
    contradiction
  have came' : ∀ {j a ver t' es₀}, LoginToken σ j a ver t' es₀ →
      Event.lookup k .login type t found ∉ es₀ := by
    intro j a ver t' es₀ came
    cases came <;> simp
  have pass' : ∀ {j a mt timeout es₀}, AcceptPass σ j a mt timeout es₀ →
      Event.lookup k .login type t found ∉ es₀ := by
    intro j a mt timeout es₀ pass
    cases pass <;> simp
  have allowed' : ∀ {j t'}, Event.lookup k .login type t found ∉ allowedEvents σ j t' := by
    intro j t'
    unfold allowedEvents
    split <;> simp
  cases move with
  | hangsUp ending => exact absurd mem quiet
  | refuses pc bad => simp [quiet] at mem
  | loginRejected came has unlisted => simp [came' came] at mem
  | loginFresh came allowed missing =>
    simp only [List.mem_append,came' came,allowed',List.mem_singleton,false_or,
      Event.lookup.injEq] at mem
    obtain ⟨rfl,_,rfl,rfl,rfl⟩ := mem
    rw [(loginFindsSame reg came).mp missing] at holder
    contradiction
  | @loginEvicts j a ver t' es old came allowed found' =>
    cases (Option.some.inj ((loginTokenTask came).symm.trans mine) : j = i)
    obtain ⟨other,_,forward,_⟩ := loginFinds (loginTokenPlace reg came).2.1 found'
    intro kept
    have same := congrArg Session.type (kept.others old other)
    simp [writeMessage,forward] at same
  | connectFound pc found' => simp [generatedEvents] at mem
  | acceptOver pass => simp [pass' pass,quiet] at mem
  | acceptWaits pass left missing => simp [pass' pass] at mem
  | acceptMatches pass left found' => simp [pass' pass,quiet] at mem
  | writeFails pc fail => simp [quiet] at mem
  | _ => simp at mem

def LocksHeld (σ : Server) : Prop :=
  ∀ j k, (σ.session j).wlock = some k → ∃ w n, (σ.pc k).sending = some (w,n) ∧ w.target = j

theorem locksKept (inv : LocksHeld σ) (same : ∀ j, (σ'.session j).wlock = (σ.session j).wlock)
    (pcs : ∀ k, (σ.pc k).sending ≠ none → (σ'.pc k).sending = (σ.pc k).sending) : LocksHeld σ' := by
  intro j k held
  rw [same j] at held
  obtain ⟨w,n,sends,target⟩ := inv j k held
  exact ⟨w,n,by rw [pcs k (by simp [sends]),sends],target⟩

theorem locksReturned {w sent s p} (inv : LocksHeld σ) (pc : σ.pc i = .writeSend w sent)
    (session : σ'.session = Function.update (unlock σ w.target).session i s)
    (wlock : s.wlock = ((unlock σ w.target).session i).wlock)
    (pc' : σ'.pc = Function.update σ.pc i p) : LocksHeld σ' := by
  intro j k held
  have same : (σ'.session j).wlock = ((unlock σ w.target).session j).wlock := by
    rw [session]
    by_cases self : j = i
    · subst self; rw [Function.update_self,wlock]
    · rw [Function.update_of_ne self]
  rw [same,unlockSession] at held
  have away : j ≠ w.target := by
    rintro rfl
    simp at held
  obtain ⟨w',n,sends,target⟩ := inv j k (by simpa [away] using held)
  have other : k ≠ i := by
    rintro rfl
    rw [pc] at sends
    cases sends
    exact away target.symm
  exact ⟨w',n,by rw [pc',Function.update_of_ne other]; exact sends,target⟩

theorem sendingRuns {p : Pc} (sends : p.sending ≠ none) : p.runs = true := by
  unfold Pc.sending at sends
  split at sends
  · rfl
  · contradiction

theorem idleSending {p : Pc} (idle : p.write = none) : p.sending = none := by
  cases p <;> simp_all [Pc.write,Pc.sending]

theorem acceptPassIdle {mt timeout es₀} (pass : AcceptPass σ i a mt timeout es₀) :
    (σ.pc i).write = none := by
  cases pass with
  | first pc => rw [pc]; rfl
  | again pc less => rw [pc]; rfl

theorem locksMoves (reg : Registry σ) (inv : LocksHeld σ) (move : Moves cfg σ a σ' es) :
    LocksHeld σ' := by
  -- a task in no write moves no lock
  have idle : ∀ {i}, a.task = some i → (σ.pc i).write = none → LocksHeld σ' := by
    intro i mine idle
    refine locksKept inv (fun j => ?_) (fun k sends => ?_)
    · rcases wlockMoves reg move mine (j := j) with same | ⟨w,writes,_⟩
      · exact same
      · rw [idle] at writes
        contradiction
    · have other : a.task ≠ some k := by
        intro task
        cases mine.symm.trans task
        exact sends (idleSending idle)
      rw [placeMoves move other (Nat.ne_of_lt (registryBelow reg (sendingRuns sends)))]
  cases move with
  | @opened fd valid free =>
    intro j k held
    by_cases new : j = σ.count
    · subst new; simp [opened,newSession] at held
    · obtain ⟨w,n,sends,target⟩ := inv j k (by simpa [opened,Function.update_of_ne new] using held)
      have old : k ≠ σ.count := Nat.ne_of_lt (registryBelow reg (sendingRuns (by simp [sends])))
      exact ⟨w,n,by simpa [opened,Function.update_of_ne old] using sends,target⟩
  | refused valid free => exact inv
  | reloaded has => exact inv
  | hangsUp ending => exact idle (hangsUpTask ending) (by cases ending <;> simp_all [Pc.write])
  | loginRejected came has unlisted => exact idle (loginTokenTask came) (loginTokenIdle came)
  | loginFresh came allowed missing => exact idle (loginTokenTask came) (loginTokenIdle came)
  | loginEvicts came allowed found => exact idle (loginTokenTask came) (loginTokenIdle came)
  | acceptOver pass => exact idle (acceptPassTask pass) (acceptPassIdle pass)
  | acceptWaits pass left missing => exact idle (acceptPassTask pass) (acceptPassIdle pass)
  | acceptMatches pass left found => exact idle (acceptPassTask pass) (acceptPassIdle pass)
  | @locks i w pc free =>
    intro j k held
    by_cases here : j = w.target
    · subst here
      cases (by simpa using held : i = k)
      exact ⟨{w with fd := if w.after = .keepAlive then (σ.session w.target).clientFd else w.fd},0,
        by simp [Pc.sending],rfl⟩
    · obtain ⟨w',n,sends,target⟩ := inv j k (by simpa [Function.update_of_ne here] using held)
      have other : k ≠ i := by
        rintro rfl
        simp [pc,Pc.sending] at sends
      exact ⟨w',n,by simpa [Function.update_of_ne other] using sends,target⟩
  | @sends i w sent n conn pc positive room valid =>
    intro j k held
    obtain ⟨w',m,sends,target⟩ := inv j k held
    by_cases self : k = i
    · subst self
      rw [pc] at sends
      cases sends
      exact ⟨w,sent + n,by simp [Pc.sending],target⟩
    · exact ⟨w',m,by simpa [Function.update_of_ne self] using sends,target⟩
  | writeFails pc fail => exact locksReturned inv pc (closeSessionSession _ _ _) rfl (closeSessionPc _ _ _)
  | loginRegisters pc done is => exact locksReturned inv pc rfl rfl rfl
  | connectWaits pc done is left unset => exact locksReturned inv pc rfl rfl rfl
  | connectRelays pc done is leaves => exact locksReturned inv pc rfl rfl rfl
  | @kept i w sent res pc done is =>
    exact locksReturned inv pc (Function.update_eq_self i (unlock σ w.target).session).symm rfl rfl
  | relays pc valid => exact inv
  | _ => exact idle rfl (by simp_all [Pc.write])

end steps

section runs
variable {cfg : Config} {i : Sid} {cmd : Command} {own : List Own} {σ : Server}
  {log : Log Server Event}

theorem handlingRun (handling : Handling cfg i cmd own σ log) :
    Run (machine cfg) (fun _ _ => True) σ log := by
  induction handling with
  | @begins σ log ver byte random σ' es run is taken =>
    have taken : (machine cfg).step σ (.recvMessage i (some (ver,byte)) random) = some (σ',es) := taken
    exact .next run trivial taken
  | goesOn so mine inside taken ih => exact .next ih trivial taken
  | others so other taken ih => exact .next ih trivial taken

theorem handlingOwn (handling : Handling cfg i cmd own σ log) : ∀ o ∈ own, ∃ log₀ a,
    Run (machine cfg) (fun _ _ => True) o.before log₀ ∧ a.task = some i ∧
      step cfg o.before a = some (o.after,o.events) := by
  induction handling with
  | begins run is taken =>
    intro o mem
    cases List.mem_singleton.mp mem
    exact ⟨_,_,run,rfl,taken⟩
  | goesOn so mine inside taken ih =>
    intro o mem
    rcases List.mem_append.mp mem with mem | mem
    · exact ih o mem
    · cases List.mem_singleton.mp mem
      exact ⟨_,_,handlingRun so,mine,taken⟩
  | others so other taken ih => exact ih

theorem locksRun {ok : Server → Action → Prop} (run : Run (machine cfg) ok σ log) : LocksHeld σ := by
  refine runInvariant (P := fun σ _ => LocksHeld σ) (by simp [LocksHeld,machine,init,unborn]) ?_ run
  intro s log a s' es run _ taken inv
  exact locksMoves (registryRun run) inv (stepMoves taken)

def follow (cfg : Config) (i : Sid) : List Own → Server → Log Server Event → List Action →
    Option (List Own × Server × Log Server Event)
  | own,σ,log,[] => some (own,σ,log)
  | own,σ,log,a::rest => do
      let (σ',es) ← step cfg σ a
      if a.task ≠ some i then follow cfg i own σ' (log ++ es.map (σ,·)) rest
      else if σ.pc i ≠ .recvMessage then
        follow cfg i (own ++ [⟨σ,σ',es⟩]) σ' (log ++ es.map (σ,·)) rest
      else none

def request (cfg : Config) (i : Sid) (before : List Action) (ver byte : UInt8) (random : Token)
    (rest : List Action) : Option (List Own × Server × Log Server Event) := do
  let (σ,log) ← replay (machine cfg) (fun _ _ => True) before
  let (σ',es) ← step cfg σ (.recvMessage i (some (ver,byte)) random)
  follow cfg i [⟨σ,σ',es⟩] σ' (log ++ es.map (σ,·)) rest

theorem followHandling {rest out} (so : Handling cfg i cmd own σ log)
    (h : follow cfg i own σ log rest = some out) : Handling cfg i cmd out.1 out.2.1 out.2.2 := by
  induction rest generalizing own σ log with
  | nil => cases Option.some.inj h; exact so
  | cons a rest ih =>
    unfold follow at h
    obtain ⟨⟨σ',es⟩,taken,h⟩ := Option.bind_eq_some_iff.mp h
    dsimp only at h
    split at h
    · rename_i other
      exact ih (.others so other taken) h
    · rename_i mine
      split at h <;> try contradiction
      rename_i inside
      exact ih (.goesOn so (not_not.mp mine) inside taken) h

theorem requestReaches (cfg : Config) (i : Sid) (cmd : Command) (before : List Action)
    (ver byte : UInt8) (random : Token) (rest : List Action)
    (p : List Own × Server × Log Server Event → Bool) (is : Command.ofByte byte = some cmd)
    (h : (request cfg i before ver byte random rest).map p = some true) :
    ∃ own σ log, Handling cfg i cmd own σ log ∧ p (own,σ,log) = true := by
  obtain ⟨out,found,holds⟩ := Option.map_eq_some_iff.mp h
  obtain ⟨⟨σ,log⟩,run,found⟩ := Option.bind_eq_some_iff.mp found
  obtain ⟨⟨σ',es⟩,taken,found⟩ := Option.bind_eq_some_iff.mp found
  exact ⟨out.1,out.2.1,out.2.2,followHandling (.begins (replayRun _ _ run) is taken) found,holds⟩

structure Intact (cfg : Config) (i : Sid) (own : List Own) (σ : Server) : Prop where
  untouched : ∀ o ∈ own, Untouched cfg i o.before o.after
  unlocked : ∀ j, (σ.session j).wlock ≠ some i

/- LOGIN, CONNECT and ACCEPT alike, and whatever made them fail. -/
theorem failedRequestIntact (cfg : Config) (i : Sid) (cmd : Command) (own : List Own) (σ : Server)
    (log : Log Server Event) (handling : Handling cfg i cmd own σ log) (failed : σ.pc i = .ended)
    (unsettled : ∀ o ∈ own, ∀ e ∈ o.events, e.settles = false) :
    Intact cfg i own σ ↔ ∀ o ∈ own, ∀ e ∈ o.events, displaces o.before e = none := by
  constructor
  · intro intact o mem e inside
    obtain ⟨log₀,a,run,mine,taken⟩ := handlingOwn handling o mem
    cases hit : displaces o.before e with
    | none => rfl
    | some s =>
      exact absurd (intact.untouched o mem)
        (displacedMoves (registryRun run) (stepMoves taken) mine inside hit)
  · intro alone
    refine ⟨fun o mem => ?_,fun j held => ?_⟩
    · obtain ⟨log₀,a,run,mine,taken⟩ := handlingOwn handling o mem
      exact untouchedMoves (registryRun run) (writingRun run) (stepMoves taken) mine
        (unsettled o mem) (alone o mem)
    · obtain ⟨w,n,sends,_⟩ := locksRun (handlingRun handling) j i held
      rw [failed] at sends
      contradiction

theorem failedRequestIntactConnect : ∃ own σ log,
    Handling (plainConfig 120 none) 1 .connect own σ log ∧ σ.pc 1 = .ended ∧
      Intact (plainConfig 120 none) 1 own σ := by
  obtain ⟨own,σ,log,handling,shows⟩ := requestReaches (plainConfig 120 none) 1 .connect
    (loginActions 0 5 2 (tokenOf 7) ++ [.accept 6]) 1 3 .zero
    [.recvToken 1 (some (tokenOf 7)) .zero,.lock 1,.send 1 5,.sendReturn 1 (-2)]
    (fun (own,σ,_) => σ.pc 1 = .ended ∧ (∀ o ∈ own, ∀ e ∈ o.events, e.settles = false) ∧
      ∀ o ∈ own, ∀ e ∈ o.events, displaces o.before e = none) (by decide) (by decide)
  obtain ⟨ended,unsettled,alone⟩ := of_decide_eq_true shows
  exact ⟨own,σ,log,handling,ended,
    (failedRequestIntact (plainConfig 120 none) 1 .connect own σ log handling ended unsettled).mpr alone⟩

/- The reply of the second login is cut when the first holder is already evicted. -/
theorem failedLoginEvicts : ¬ ∀ cfg i cmd own σ log, Handling cfg i cmd own σ log →
    σ.pc i = .ended → (∀ o ∈ own, ∀ e ∈ o.events, e.settles = false) → Intact cfg i own σ := by
  intro intact
  obtain ⟨own,σ,log,handling,shows⟩ := requestReaches (plainConfig 120 none) 1 .login
    (loginActions 0 5 2 (tokenOf 7) ++ [.accept 6]) 2 0 .zero
    [.recvToken 1 (some (tokenOf 7)) .zero,.lock 1,.sendReturn 1 (-1)]
    (fun (own,σ,_) => σ.pc 1 = .ended ∧ (∀ o ∈ own, ∀ e ∈ o.events, e.settles = false) ∧
      ∃ o ∈ own, ∃ e ∈ o.events, displaces o.before e = some 0) (by decide) (by decide)
  obtain ⟨ended,unsettled,o,mem,e,inside,hit⟩ := of_decide_eq_true shows
  obtain ⟨log₀,a,run,mine,taken⟩ := handlingOwn handling o mem
  exact displacedMoves (registryRun run) (stepMoves taken) mine inside hit
    ((intact _ 1 .login own σ log handling ended unsettled).untouched o mem)

end runs

end HevFsh.SessionTask
