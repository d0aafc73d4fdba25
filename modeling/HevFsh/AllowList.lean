import HevFsh.Logins

/-! The allow list over whole runs. The check, the eviction and the registration
of a login are separate steps, and the list may be loaded again between them. -/
namespace HevFsh.SessionTask
open SearchTree Protocol SessionManager Transitions

def Event.loads : Event → Option (List Token)
  | .reloaded tokens => some tokens
  | _ => none

def inForce (start : List Token) (log : Log Server Event) : List Token :=
  log.foldl (fun list e => e.2.loads.getD list) start

def Allows (σ : Server) (t : Token) : Prop := ∃ mgr, σ.tMgr = some mgr ∧ t ∈ mgr.inorder

def Vouched (log : Log Server Event) (i : Sid) (t : Token) : Prop :=
  ∃ σ₁ ver cmd σ₂, List.Sublist [(σ₁,Event.header i ver cmd),(σ₂,.checked i t true)] log ∧
    Command.ofByte cmd = some .login ∧ Allows σ₂ t

def Led (log : Log Server Event) (i : Sid) : Prop :=
  ∃ σ₁ ver cmd σ₂ f p σ₃,
    List.Sublist [(σ₁,Event.header f ver cmd),(σ₂,.checked f p true),(σ₃,.token i .connect p),
      (σ₃,.lookup i .connect .forward p (some f))] log ∧
    Command.ofByte cmd = some .login ∧ Allows σ₂ p ∧
    f ∈ σ₃.tree.inorder ∧ (σ₃.session f).type = .forward ∧ (σ₃.session f).token = p

theorem vouchedMono {log more : Log Server Event} {i t} (known : Vouched log i t) :
    Vouched (log ++ more) i t := by
  obtain ⟨σ₁,ver,cmd,σ₂,order,rest⟩ := known
  exact ⟨σ₁,ver,cmd,σ₂,order.trans (List.sublist_append_left _ _),rest⟩

theorem ledMono {log more : Log Server Event} {i} (known : Led log i) : Led (log ++ more) i := by
  obtain ⟨σ₁,ver,cmd,σ₂,f,p,σ₃,order,rest⟩ := known
  exact ⟨σ₁,ver,cmd,σ₂,f,p,σ₃,order.trans (List.sublist_append_left _ _),rest⟩

section list
variable {cfg : Config} {σ σ' : Server} {i : Sid} {a : Action} {es : List Event}

theorem inForceKept {start log} (quiet : ∀ e ∈ es, e.loads = none) :
    inForce start (log ++ es.map (σ,·)) = inForce start log := by
  simp only [inForce,List.foldl_append]
  generalize log.foldl (fun list e => e.2.loads.getD list) start = list
  induction es with
  | nil => rfl
  | cons e es ih =>
    simp only [List.map_cons,List.foldl_cons,quiet e (by simp),Option.getD_none]
    exact ih (fun e mem => quiet e (by simp [mem]))

theorem tMgrMoves (move : Moves cfg σ a σ' es) :
    (σ'.tMgr = σ.tMgr ∧ ∀ e ∈ es, e.loads = none) ∨
      ∃ tokens, es = [.reloaded tokens] ∧ σ'.tMgr = some (TokenManager.reload cfg.tokens tokens) := by
  have quiet : (∀ tokens, a ≠ .reload tokens) → ∀ e ∈ es, e.loads = none := by
    intro other e mem
    cases movesLogs move mem with
    | plain is => cases e <;> first | rfl | cases is
    | reloaded is => exact absurd is (other _)
    | _ => rfl
  have task : ∀ {j}, a.task = some j → ∀ tokens, a ≠ .reload tokens := by
    rintro j mine tokens rfl
    contradiction
  cases move with
  | reloaded has => exact .inr ⟨_,rfl,rfl⟩
  | opened valid free => exact .inl ⟨rfl,quiet (by simp)⟩
  | refused valid free => exact .inl ⟨rfl,quiet (by simp)⟩
  | hangsUp ending => exact .inl ⟨closeSessionTMgr _ _ _,quiet (task (hangsUpTask ending))⟩
  | refuses pc bad => exact .inl ⟨closeSessionTMgr _ _ _,quiet (task rfl)⟩
  | loginRejected came has unlisted => exact .inl ⟨rfl,quiet (task (loginTokenTask came))⟩
  | loginFresh came allowed missing => exact .inl ⟨rfl,quiet (task (loginTokenTask came))⟩
  | loginEvicts came allowed found => exact .inl ⟨rfl,quiet (task (loginTokenTask came))⟩
  | acceptOver pass => exact .inl ⟨closeSessionTMgr _ _ _,quiet (task (acceptPassTask pass))⟩
  | acceptWaits pass left missing => exact .inl ⟨rfl,quiet (task (acceptPassTask pass))⟩
  | acceptMatches pass left found =>
    exact .inl ⟨closeSessionTMgr _ _ _,quiet (task (acceptPassTask pass))⟩
  | writeFails pc fail => exact .inl ⟨closeSessionTMgr _ _ _,quiet (task rfl)⟩
  | _ => exact .inl ⟨rfl,quiet (task rfl)⟩

theorem allowedAllows {mgr t} (has : σ.tMgr = some mgr) (allowed : Allowed σ t) : Allows σ t := by
  rw [Allowed,has] at allowed
  exact ⟨mgr,has,TokenManager.findMem allowed⟩

end list

structure Vouches (σ : Server) (log : Log Server Event) : Prop where
  header : ∀ i ver, σ.pc i = .loginRecv ver →
    ∃ σ₁ cmd, (σ₁,Event.header i ver cmd) ∈ log ∧ Command.ofByte cmd = some .login
  known : ForwardKnown Vouched σ log
  connect : ∀ i w mt, (σ.pc i).write = some w → w.after = .connect mt → Led log i
  connector : ∀ i, (σ.session i).type = .connect ∨ (σ.session i).type = .splice → Led log i

section steps
variable {cfg : Config} {σ σ' : Server} {log : Log Server Event} {a : Action} {es : List Event}

theorem headerNext {i ver} (reg : Registry σ) (inv : Vouches σ log) (move : Moves cfg σ a σ' es)
    (pc' : σ'.pc i = .loginRecv ver) : ∃ σ₁ cmd, (σ₁,Event.header i ver cmd) ∈ log ++ es.map (σ,·) ∧
      Command.ofByte cmd = some .login := by
  have arrives := arrivesMoves reg move (j := i)
  rw [pc'] at arrives
  generalize place : Pc.loginRecv ver = p at arrives
  cases arrives with
  | stays away =>
    obtain ⟨σ₁,cmd,mem,is⟩ := inv.header i ver place.symm
    exact ⟨σ₁,cmd,memNext.mpr (.inl mem),is⟩
  | @enters ver' cmd random p is pc next logged =>
    cases next with
    | login login type other =>
      cases place
      exact ⟨σ,cmd,memNext.mpr (.inr ⟨rfl,by simp [logged]⟩),login⟩
    | _ => contradiction
  | _ => contradiction

theorem vouchedStarts {i ver t es₀ rest mgr} (inv : Vouches σ log) (has : σ.tMgr = some mgr)
    (came : LoginToken σ i a ver t es₀) (allowed : Allowed σ t)
    (logged : es = es₀ ++ allowedEvents σ i t ++ rest) : Vouched (log ++ es.map (σ,·)) i t := by
  have allows := allowedAllows has allowed
  have listed : allowedEvents σ i t = [.checked i t true] := by simp [allowedEvents,has]
  rw [logged,listed]
  cases came with
  | @first cmd random pc is type =>
    refine ⟨σ,1,cmd,σ,?_,is,allows⟩
    refine List.Sublist.trans ?_ (List.sublist_append_right _ _)
    simp
  | zero pc =>
    obtain ⟨σ₁,cmd,mem,is⟩ := inv.header i ver pc
    refine ⟨σ₁,ver,cmd,σ,?_,is,allows⟩
    exact (List.singleton_sublist.mpr mem).append (by simp)
  | client pc nonzero =>
    obtain ⟨σ₁,cmd,mem,is⟩ := inv.header i ver pc
    refine ⟨σ₁,ver,cmd,σ,?_,is,allows⟩
    exact (List.singleton_sublist.mpr mem).append (by simp)

theorem ledStarts {i mt s more} (inv : Vouches σ log) (found : σ.find .forward mt = some s)
    (logged : es = [.token i .connect mt,.lookup i .connect .forward mt (some s)] ++ more) :
    Led (log ++ es.map (σ,·)) i := by
  obtain ⟨mem,type,token⟩ := findSound found
  obtain ⟨σ₁,ver,cmd,σ₂,order,is,allows⟩ := inv.known.forward s type
  rw [token] at order allows
  refine ⟨σ₁,ver,cmd,σ₂,s,mt,σ,?_,is,allows,mem,type,token⟩
  rw [logged]
  exact order.append (by simp)

theorem connectNext {i w mt} (reg : Registry σ) (inv : Vouches σ log) (move : Moves cfg σ a σ' es)
    (writes : (σ'.pc i).write = some w) (after : w.after = .connect mt) :
    Led (log ++ es.map (σ,·)) i := by
  cases writesMoves reg move writes with
  | carried fd old => exact ledMono (inv.connect i _ mt old after)
  | connect is pc found logged => exact ledStarts inv found logged
  | _ => contradiction

theorem connectorNext {i} (reg : Registry σ) (inv : Vouches σ log) (move : Moves cfg σ a σ' es)
    (type : (σ'.session i).type = .connect ∨ (σ'.session i).type = .splice) :
    Led (log ++ es.map (σ,·)) i := by
  refine ledMono ?_
  obtain ⟨s,lock,change,session⟩ := changesMoves reg move i
  rw [session] at type
  cases change with
  | same => exact inv.connector i type
  | closed ending => exact inv.connector i type
  | handed pass ending => exact inv.connector i type
  | token came => exact inv.connector i type
  | connect is pc done after logged => exact inv.connect i _ _ (by rw [pc]; rfl) after
  | spliced pass found logged => exact inv.connector i (.inl (findSound found).2.1)
  | opened fresh nobody => simp [newSession] at type
  | forward is pc done after => simp [forwardSession] at type
  | evicted came allowed found logged => simp at type

end steps

section runs
variable {cfg : Config} {ok : Server → Action → Prop} {σ : Server} {log : Log Server Event}
  {tokens : List Token}

theorem inForceRun (has : cfg.tokensFile = some tokens) (run : Run (machine cfg) ok σ log) :
    σ.tMgr = some (TokenManager.reload cfg.tokens (inForce tokens log)) := by
  refine runInvariant
    (P := fun σ log => σ.tMgr = some (TokenManager.reload cfg.tokens (inForce tokens log))) ?_ ?_ run
  · simp [machine,init,has,inForce]
  · intro s log a s' es run _ taken inv
    rcases tMgrMoves (stepMoves taken) with ⟨same,quiet⟩ | ⟨loaded,rfl,next⟩
    · rw [same,inForceKept quiet,inv]
    · rw [next]
      simp [inForce,Event.loads]

theorem vouchesRun (has : cfg.tokensFile = some tokens) (run : Run (machine cfg) ok σ log) :
    Vouches σ log := by
  refine runInvariant (P := fun σ log => Vouches σ log) ?_ ?_ run
  · refine ⟨?_,⟨?_,?_⟩,?_,?_⟩ <;> simp [machine,init,unborn,Pc.write]
  · intro s log a s' es run _ taken inv
    have reg := registryRun run
    have move := stepMoves taken
    exact ⟨fun _ _ => headerNext reg inv move,
      forwardKnownNext (fun _ => vouchedMono) reg inv.known move
        (fun came allowed logged => vouchedStarts inv (inForceRun has run) came allowed logged),
      fun _ _ _ => connectNext reg inv move,fun _ => connectorNext reg inv move⟩

def CheckedFirst (log : Log Server Event) (σ₁ : Server) (i s : Sid) : Prop :=
  ∃ t, List.Sublist [(σ₁,Event.checked i t true),(σ₁,.lookup i .login .forward t (some s)),
    (σ₁,.evicted i s)] log ∧ Allows σ₁ t

theorem evictionChecked (has : cfg.tokensFile = some tokens) (run : Run (machine cfg) ok σ log) :
    ∀ σ₁ i s, (σ₁,Event.evicted i s) ∈ log → CheckedFirst log σ₁ i s := by
  refine runInvariant
    (P := fun _ log => ∀ σ₁ i s, (σ₁,Event.evicted i s) ∈ log → CheckedFirst log σ₁ i s) (by simp) ?_ run
  intro σ log a σ' es run _ taken inv σ₁ i s mem
  rcases memNext.mp mem with old | ⟨rfl,new⟩
  · obtain ⟨t,order,allows⟩ := inv σ₁ i s old
    exact ⟨t,order.trans (List.sublist_append_left _ _),allows⟩
  · have mgr := inForceRun has run
    cases movesLogs (stepMoves taken) new with
    | plain is => contradiction
    | @evicted i ver t es₀ s came allowed found order =>
      refine ⟨t,?_,allowedAllows mgr allowed⟩
      have inside := order.map (fun e => (σ₁,e))
      simp only [allowedEvents,mgr] at inside
      exact inside.trans (List.sublist_append_right _ _)

theorem allowListEnforced (cfg : Config) (tokens : List Token) (has : cfg.tokensFile = some tokens)
    (σ : Server) (log : Log Server Event) (run : Run (machine cfg) (fun _ _ => True) σ log) :
    (∀ t, Allows σ t ↔ t ∈ inForce tokens log) ∧
    (∀ i, (σ.session i).type = .forward → Vouched log i (σ.session i).token) ∧
    (∀ σ₁ i s, (σ₁,Event.evicted i s) ∈ log → CheckedFirst log σ₁ i s) ∧
    (∀ i, (σ.session i).type = .connect ∨ (σ.session i).type = .splice → Led log i) := by
  have vouches := vouchesRun has run
  refine ⟨fun t => ?_,vouches.known.forward,evictionChecked has run,vouches.connector⟩
  simp [Allows,inForceRun has run,TokenManager.reloadMem]

theorem allowListEnforcedReload :
    ∃ σ log, Run (machine (plainConfig 120 (some [tokenOf 7]))) (fun _ _ => True) σ log ∧
      Vouched log 0 (tokenOf 7) ∧ Led log 1 ∧ ¬ Allows σ (tokenOf 7) := by
  obtain ⟨σ,log,run,shows⟩ := replayReaches (machine (plainConfig 120 (some [tokenOf 7])))
    (fun _ _ => True)
    (loginActions 0 5 2 (tokenOf 7) ++ .reload [tokenOf 9] :: connectActions 1 6 (tokenOf 7) .zero ++
      ([.lock 1,.send 1 18,.sendReturn 1 18] : List Action))
    (fun r => (r.1.session 0).type = .forward ∧ (r.1.session 0).token = tokenOf 7 ∧
      (r.1.session 1).type = .connect ∧ inForce [tokenOf 7] r.2 = [tokenOf 9]) (by decide)
  obtain ⟨forward,token,connect,force⟩ := of_decide_eq_true shows
  obtain ⟨list,vouched,_,led⟩ := allowListEnforced _ [tokenOf 7] rfl σ log run
  refine ⟨σ,log,run,token ▸ vouched 0 forward,led 1 (.inl connect),?_⟩
  rw [list,force]
  decide

end runs

end HevFsh.SessionTask
