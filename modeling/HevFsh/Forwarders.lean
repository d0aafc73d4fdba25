import HevFsh.RandomBytes
import HevFsh.Writers

/-! One forwarder for each token. A login evicts the old holder, then writes its
reply, and registers only after that; another login may run in between. -/
namespace HevFsh.SessionTask
open SearchTree Protocol SessionManager Transitions

def Pc.logsIn (p : Pc) : Bool :=
  match p.write with
  | some w => match w.after with
    | .login _ => true
    | _ => false
  | none => false

def Holder (σ : Server) (j : Sid) (t : Token) : Prop :=
  (σ.session j).token = t ∧
    (((σ.session j).live = true ∧ (σ.session j).type = .forward) ∨ (σ.pc j).logsIn = true)

def OneHolder (σ : Server) : Prop := ∀ j k t, Holder σ j t → Holder σ k t → j = k

def Shrinks (σ σ' : Server) : Prop := ∀ j t, Holder σ' j t → Holder σ j t

instance (σ : Server) (t : Token) : Decidable (Allowed σ t) := by
  unfold Allowed
  split <;> infer_instance

def looksUp (σ : Server) : Action → Option (Sid × Token)
  | .recvMessage i (some (ver,cmd)) random =>
      if ver = 1 ∧ Command.ofByte cmd = some .login ∧ (σ.session i).type = .null ∧
        Allowed σ (tokenGenerate random) then some (i,tokenGenerate random) else none
  | .recvToken i (some mt) random => match σ.pc i with
      | .loginRecv _ =>
          let t := if mt = .zero then tokenGenerate random else mt
          if Allowed σ t then some (i,t) else none
      | _ => none
  | _ => none

def Serial (σ : Server) (a : Action) : Prop :=
  match looksUp σ a with
  | none => True
  | some (i,t) => ∀ j < σ.count, j ≠ i → (σ.pc j).logsIn = true → (σ.session j).token ≠ t

instance (σ : Server) (a : Action) : Decidable (Serial σ a) := by
  unfold Serial
  split <;> infer_instance

section holders
variable {cfg : Config} {σ σ' : Server} {i : Sid}

theorem loginTokenLooks {a ver t es} (came : LoginToken σ i a ver t es) (allowed : Allowed σ t) :
    looksUp σ a = some (i,t) := by
  cases came with
  | first pc is type => simp [looksUp,is,type,allowed]
  | zero pc => simp [looksUp,pc,allowed]
  | client pc nonzero => simp [looksUp,pc,nonzero,allowed]

theorem shrinksTrans {σ₁ : Server} (first : Shrinks σ σ₁) (second : Shrinks σ₁ σ') : Shrinks σ σ' :=
  fun j t holds => first j t (second j t holds)

theorem oneShrinks (inv : OneHolder σ) (less : Shrinks σ σ') : OneHolder σ' :=
  fun j k t left right => inv j k t (less j t left) (less k t right)

theorem shrinksSetPc {p : Pc} (next : p.logsIn = true → (σ.pc i).logsIn = true) : Shrinks σ (σ.setPc i p) := by
  intro j t holds
  refine ⟨holds.1,holds.2.imp id (fun logs => ?_)⟩
  by_cases same : j = i
  · subst same; exact next (by simpa using logs)
  · simpa [Function.update_of_ne same] using logs

theorem shrinksClose : Shrinks σ (closeSession cfg σ i) := by
  intro j t holds
  by_cases same : j = i
  · subst same
    simp [Holder,Pc.logsIn,Pc.write] at holds
  · simpa [Holder,Function.update_of_ne same] using holds

theorem shrinksUnlock (t : Sid) : Shrinks σ (unlock σ t) :=
  fun j t' holds => by simpa [Holder,unlockSession] using holds

theorem shrinksToken (type : (σ.session i).type = .null) (idle : (σ.pc i).logsIn = false) (t : Token) :
    Shrinks σ (setToken σ i t) := by
  intro j t' holds
  by_cases same : j = i
  · subst same
    simp [Holder,setToken,type,idle] at holds
  · simpa [Holder,setToken,Function.update_of_ne same] using holds

theorem shrinksRegisters {w sent s p} (pc : σ.pc i = .writeSend w sent)
    (idle : p.logsIn = false) (less : s.type = .forward → s.token = (σ.session i).token ∧
      (σ.pc i).logsIn = true) :
    Shrinks σ ((register cfg (unlock σ w.target) i s).setPc i p) := by
  intro j t holds
  by_cases same : j = i
  · subst same
    simp only [Holder,setPcSession,registerSession,Function.update_self,setPcPc,registerPc,idle] at holds
    obtain ⟨token,registered⟩ := holds
    have forward := (registered.resolve_right (by simp)).2
    exact ⟨(less forward).1 ▸ token,.inr (less forward).2⟩
  · simpa [Holder,Function.update_of_ne same,unlockSession] using holds

theorem shrinksEvicts (cfg : Config) (s : Sid) : Shrinks σ (evict cfg σ s) := by
  intro j t holds
  by_cases same : j = s
  · subst same
    refine ⟨by simpa using holds.1,.inr ?_⟩
    simpa using holds.2
  · simpa [Holder,Function.update_of_ne same] using holds

theorem shrinksHandOver {s} (other : s ≠ i) : Shrinks σ (handOver cfg σ i s) := by
  intro j t holds
  simp only [Holder,handOverSession σ cfg other,handOverPc] at holds ⊢
  split at holds
  · rename_i same; rw [same] at holds ⊢; exact holds
  · split at holds
    · rename_i same; rw [same] at holds ⊢; exact ⟨holds.1,.inr (by simpa using holds.2)⟩
    · exact holds

theorem shrinksLocks (t : Sid) : Shrinks σ (σ.setSession t {σ.session t with wlock := some i}) := by
  intro j t' holds
  by_cases same : j = t
  · rw [same] at holds ⊢; simpa [Holder] using holds
  · simpa [Holder,Function.update_of_ne same] using holds

theorem loginTokenQuiet {a ver t es} (came : LoginToken σ i a ver t es) : (σ.pc i).logsIn = false := by
  simp [Pc.logsIn,loginTokenIdle came]

theorem logsInBelow {j : Sid} (reg : Registry σ) (logs : (σ.pc j).logsIn = true) : j < σ.count := by
  refine registryBelow reg ?_
  unfold Pc.logsIn at logs
  split at logs
  · rename_i w writes; exact writeRuns writes
  · contradiction

theorem oneStarts {bytes after} (t : Token) (inv : OneHolder σ) (token : (σ.session i).token = t)
    (alone : ∀ j, j ≠ i → ¬ Holder σ j t) : OneHolder (writeMessage σ i i bytes after) := by
  have others : ∀ j t', j ≠ i → Holder (writeMessage σ i i bytes after) j t' → Holder σ j t' := by
    intro j t' other holds
    simpa [Holder,writeMessage,Function.update_of_ne other] using holds
  intro j k t' left right
  by_cases first : j = i <;> by_cases second : k = i
  · rw [first,second]
  · subst first
    have same : t' = t := left.1.symm.trans token
    exact absurd (same ▸ others k t' second right) (alone k second)
  · subst second
    have same : t' = t := right.1.symm.trans token
    exact absurd (same ▸ others j t' first left) (alone j first)
  · exact inv j k t' (others j t' first left) (others k t' second right)

theorem serialAlone {a ver t es} (reg : Registry σ) (serial : Serial σ a)
    (came : LoginToken σ i a ver t es) (allowed : Allowed σ t) {j : Sid} (other : j ≠ i)
    (holds : Holder σ j t) : (σ.session j).live = true ∧ (σ.session j).type = .forward := by
  simp only [Serial,loginTokenLooks came allowed] at serial
  rcases holds.2 with registered | logs
  · exact registered
  · exact absurd holds.1 (serial j (logsInBelow reg logs) other logs)

theorem oneFresh {a ver t es bytes after} (reg : Registry σ) (inv : OneHolder σ) (serial : Serial σ a)
    (came : LoginToken σ i a ver t es) (allowed : Allowed σ t)
    (missing : (setToken σ i t).find .forward t = none) :
    OneHolder (writeMessage (setToken σ i t) i i bytes after) := by
  obtain ⟨_,type,absent⟩ := loginTokenPlace reg came
  refine oneStarts t (oneShrinks inv (shrinksToken type (loginTokenQuiet came) t)) (by simp [setToken]) ?_
  intro j other holds
  have old : Holder σ j t := by simpa [Holder,setToken,Function.update_of_ne other] using holds
  have registered := serialAlone reg serial came allowed other old
  have managed := reg.managed j registered.1
  rw [registered.2] at managed
  -- the lookup would have found it
  refine findNone (registryToken reg absent t).sorted missing
    ((reg.member j).mpr ⟨registered.1,managed⟩) ?_
  simpa [setToken,Function.update_of_ne other] using ⟨registered.2,old.1⟩

theorem oneEvicts {a ver t es s bytes after} (reg : Registry σ) (inv : OneHolder σ) (serial : Serial σ a)
    (came : LoginToken σ i a ver t es) (allowed : Allowed σ t)
    (found : (setToken σ i t).find .forward t = some s) :
    OneHolder (writeMessage (evict cfg (setToken σ i t) s) i i bytes after) := by
  obtain ⟨_,type,absent⟩ := loginTokenPlace reg came
  obtain ⟨away,mem,forward,token⟩ := loginFinds type found
  have holder : Holder σ s t := ⟨token,.inl ⟨((reg.member s).mp mem).1,forward⟩⟩
  have evicted : OneHolder (evict cfg (setToken σ i t) s) :=
    oneShrinks inv (shrinksTrans (shrinksToken type (loginTokenQuiet came) t) (shrinksEvicts _ s))
  refine oneStarts t evicted (by simp [setToken,Function.update_of_ne (Ne.symm away)]) ?_
  intro j other holds
  by_cases same : j = s
  · subst same
    have logs : (σ.pc j).logsIn = true := by simpa [Holder,setToken] using holds.2
    simp only [Serial,loginTokenLooks came allowed] at serial
    exact serial j (logsInBelow reg logs) other logs token
  · have old : Holder σ j t := by
      simpa [Holder,setToken,Function.update_of_ne other,Function.update_of_ne same] using holds
    exact same (inv j s t old holder)

inductive HolderMoves (cfg : Config) (σ : Server) (a : Action) : Server → Prop where
  | less {next : Server} (shrinks : Shrinks σ next) : HolderMoves cfg σ a next
  | fresh {i : Sid} {ver t es bytes after} (came : LoginToken σ i a ver t es) (allowed : Allowed σ t)
      (missing : (setToken σ i t).find .forward t = none) :
      HolderMoves cfg σ a (writeMessage (setToken σ i t) i i bytes after)
  | evicts {i : Sid} {ver t es s bytes after} (came : LoginToken σ i a ver t es) (allowed : Allowed σ t)
      (found : (setToken σ i t).find .forward t = some s) :
      HolderMoves cfg σ a (writeMessage (evict cfg (setToken σ i t) s) i i bytes after)

theorem holderMoves {a es} (reg : Registry σ) (move : Moves cfg σ a σ' es) : HolderMoves cfg σ a σ' := by
  cases move with
  | opened valid free =>
    refine .less (fun j t holds => ?_)
    by_cases same : j = σ.count
    · subst same
      simp [Holder,opened,newSession,Pc.logsIn,Pc.write] at holds
    · simpa [Holder,opened,Function.update_of_ne same] using holds
  | refused valid free => exact .less (fun _ _ holds => holds)
  | reloaded has => exact .less (fun _ _ holds => holds)
  | hangsUp ending => exact .less shrinksClose
  | refuses pc bad => exact .less shrinksClose
  | enters pc next =>
    refine .less (shrinksSetPc (fun logs => ?_))
    cases next <;> simp [Pc.logsIn,Pc.write] at logs
  | loginRejected came has unlisted =>
    have quiet := shrinksToken (loginTokenPlace reg came).2.1 (loginTokenQuiet came)
    exact .less (shrinksTrans (quiet _) (shrinksSetPc (fun logs => by simp [Pc.logsIn,Pc.write] at logs)))
  | loginFresh came allowed missing => exact .fresh came allowed missing
  | loginEvicts came allowed found => exact .evicts came allowed found
  | connectMissing pc missing =>
    exact .less (shrinksSetPc (fun logs => by simp [Pc.logsIn,Pc.write] at logs))
  | connectFound pc found =>
    exact .less (shrinksSetPc (fun logs => by simp [Pc.logsIn,Pc.write] at logs))
  | acceptOver pass => exact .less shrinksClose
  | acceptWaits pass left missing =>
    exact .less (shrinksSetPc (fun logs => by simp [Pc.logsIn,Pc.write] at logs))
  | acceptMatches pass left found =>
    exact .less (shrinksTrans (shrinksHandOver (acceptFinds (acceptPassPlace reg pass).2 found).1) shrinksClose)
  | sleeps pc less left => exact .less (shrinksSetPc (fun logs => by simp [Pc.logsIn,Pc.write] at logs))
  | locks pc free =>
    exact .less (shrinksTrans (shrinksLocks _)
      (shrinksSetPc (fun logs => by simpa [Pc.logsIn,Pc.write,pc] using logs)))
  | sends pc positive room valid =>
    exact .less (shrinksSetPc (fun logs => by simpa [Pc.logsIn,Pc.write,pc] using logs))
  | writeFails pc fail => exact .less (shrinksTrans (shrinksUnlock _) shrinksClose)
  | loginRegisters pc done is =>
    exact .less (shrinksRegisters pc rfl
      (fun _ => ⟨by simp [forwardSession,unlockSession],by simp [Pc.logsIn,Pc.write,pc,is]⟩))
  | connectWaits pc done is left unset =>
    exact .less (shrinksRegisters pc rfl (fun forward => by simp [connectSession] at forward))
  | connectRelays pc done is leaves =>
    exact .less (shrinksRegisters pc rfl (fun forward => by simp [connectSession] at forward))
  | kept pc done is =>
    exact .less (shrinksTrans (shrinksUnlock _)
      (shrinksSetPc (fun logs => by simp [Pc.logsIn,Pc.write] at logs)))
  | spliceWaits pc less left unset =>
    exact .less (shrinksSetPc (fun logs => by simp [Pc.logsIn,Pc.write] at logs))
  | spliceRelays pc less leaves =>
    exact .less (shrinksSetPc (fun logs => by simp [Pc.logsIn,Pc.write] at logs))
  | relays pc valid => exact .less (fun _ _ holds => holds)

theorem oneMoves {a es} (reg : Registry σ) (inv : OneHolder σ) (serial : Serial σ a)
    (move : Moves cfg σ a σ' es) : OneHolder σ' := by
  cases holderMoves reg move with
  | less shrinks => exact oneShrinks inv shrinks
  | fresh came allowed missing => exact oneFresh reg inv serial came allowed missing
  | evicts came allowed found => exact oneEvicts reg inv serial came allowed found

theorem loginTokenNonzero {a ver t es} (came : LoginToken σ i a ver t es) : t ≠ .zero := by
  cases came with
  | first pc is type => exact (Random.generateStamped _).nonzero
  | zero pc => exact (Random.generateStamped _).nonzero
  | client pc nonzero => exact nonzero

theorem startsNonzero {bytes after} (none' : ∀ j, ¬ Holder σ j .zero) (other : (σ.session i).token ≠ .zero) :
    ∀ j, ¬ Holder (writeMessage σ i i bytes after) j .zero := by
  intro j holds
  by_cases same : j = i
  · subst same
    exact other holds.1
  · refine none' j ?_
    simpa [Holder,writeMessage,Function.update_of_ne same] using holds

theorem nonzeroMoves {a es} (reg : Registry σ) (none' : ∀ j, ¬ Holder σ j .zero)
    (move : Moves cfg σ a σ' es) : ∀ j, ¬ Holder σ' j .zero := by
  cases holderMoves reg move with
  | less shrinks => exact fun j holds => none' j (shrinks j .zero holds)
  | @fresh i ver t es bytes after came allowed missing =>
    have quiet := shrinksToken (loginTokenPlace reg came).2.1 (loginTokenQuiet came) t
    refine startsNonzero (fun j holds => none' j (quiet j .zero holds)) ?_
    simpa [setToken] using loginTokenNonzero came
  | @evicts i ver t es s bytes after came allowed found =>
    have away := (loginFinds (loginTokenPlace reg came).2.1 found).1
    have quiet := shrinksTrans (shrinksToken (loginTokenPlace reg came).2.1 (loginTokenQuiet came) t)
      (shrinksEvicts cfg s)
    refine startsNonzero (fun j holds => none' j (quiet j .zero holds)) ?_
    simpa [setToken,Function.update_of_ne (Ne.symm away)] using loginTokenNonzero came

end holders

/- The token that asks for a fresh one names no forwarder, so a connect with it is rejected. -/
theorem zeroUnnamed (cfg : Config) (σ : Server) (log : Log Server Event)
    (run : Run (machine cfg) (fun _ _ => True) σ log) : σ.find .forward .zero = none := by
  have none' : ∀ j, ¬ Holder σ j .zero := by
    refine runInvariant (P := fun σ _ => ∀ j, ¬ Holder σ j .zero) ?_ ?_ run
    · intro j holds
      simp [Holder,machine,init,unborn,Pc.logsIn,Pc.write] at holds
    · intro s log a s' es run _ taken inv
      exact nonzeroMoves (registryRun run) inv (stepMoves taken)
  cases found : σ.find .forward .zero with
  | none => rfl
  | some s =>
    obtain ⟨mem,forward,token⟩ := findSound found
    exact absurd ⟨token,.inl ⟨(((registryRun run).member s).mp mem).1,forward⟩⟩ (none' s)

theorem zeroUnnamedLogin : ∃ σ log, Run (machine (plainConfig 120 none)) (fun _ _ => True) σ log ∧
    0 ∈ σ.tree.inorder ∧ (σ.session 0).type = .forward ∧ σ.find .forward .zero = none := by
  obtain ⟨σ,log,run,shows⟩ := replayReaches (machine (plainConfig 120 none)) (fun _ _ => True)
    (loginActions 0 5 2 .zero) (fun r => 0 ∈ r.1.tree.inorder ∧ (r.1.session 0).type = .forward) (by decide)
  obtain ⟨mem,forward⟩ := of_decide_eq_true shows
  exact ⟨σ,log,run,mem,forward,zeroUnnamed (plainConfig 120 none) σ log run⟩

def OneForwarder (σ : Server) : Prop :=
  ∀ j k, j ∈ σ.tree.inorder → k ∈ σ.tree.inorder → (σ.session j).type = .forward →
    (σ.session k).type = .forward → (σ.session j).token = (σ.session k).token → j = k

theorem oneForwarder (cfg : Config) (σ : Server) (log : Log Server Event)
    (run : Run (machine cfg) Serial σ log) : OneForwarder σ := by
  have reg := registryRun run
  have one : OneHolder σ := by
    refine runInvariant (P := fun σ _ => OneHolder σ) ?_ ?_ run
    · intro j k t left
      simp [Holder,machine,init,unborn,Pc.logsIn,Pc.write] at left
    · intro s log a s' es run allowed taken inv
      exact oneMoves (registryRun run) inv allowed (stepMoves taken)
  intro j k left right forward forward' same
  exact one j k (σ.session k).token ⟨same,.inl ⟨((reg.member j).mp left).1,forward⟩⟩
    ⟨rfl,.inl ⟨((reg.member k).mp right).1,forward'⟩⟩

theorem oneForwarderRelogin : ∃ σ log, Run (machine (plainConfig 120 none)) Serial σ log ∧
    1 ∈ σ.tree.inorder ∧ (σ.session 0).token = (σ.session 1).token ∧
    ¬ (0 ∈ σ.tree.inorder ∧ (σ.session 0).type = .forward) := by
  obtain ⟨σ,log,run,shows⟩ := replayReaches (machine (plainConfig 120 none)) Serial
    (loginActions 0 5 2 (tokenOf 7) ++ loginActions 1 6 2 (tokenOf 7))
    (fun (σ,_) => 1 ∈ σ.tree.inorder ∧ (σ.session 1).type = .forward ∧
      (σ.session 0).token = (σ.session 1).token) (by decide)
  obtain ⟨mem,forward,same⟩ := of_decide_eq_true shows
  refine ⟨σ,log,run,mem,same,?_⟩
  rintro ⟨mem',forward'⟩
  exact absurd (oneForwarder (plainConfig 120 none) σ log run 0 1 mem' mem forward' forward same)
    (by decide)

/- Both logins look the token up before either has registered: the reply of the
first is held up in its send. -/
def overlappingLogins : List Action :=
  [.accept 5,.recvMessage 0 (some (2,0)) .zero,.recvToken 0 (some (tokenOf 7)) .zero,.lock 0] ++
    loginActions 1 6 2 (tokenOf 7) ++ [.send 0 18,.sendReturn 0 18]

theorem twoForwarders : ¬ ∀ cfg σ log, Run (machine cfg) (fun _ _ => True) σ log → OneForwarder σ := by
  intro single
  obtain ⟨σ,log,run,shows⟩ := replayReaches (machine (plainConfig 120 none)) (fun _ _ => True)
    overlappingLogins
    (fun (σ,_) => (0 ∈ σ.tree.inorder ∧ 1 ∈ σ.tree.inorder) ∧ (σ.session 0).type = .forward ∧
      (σ.session 1).type = .forward ∧ (σ.session 0).token = (σ.session 1).token) (by decide)
  obtain ⟨⟨mem,mem'⟩,forward,forward',same⟩ := of_decide_eq_true shows
  exact absurd (single _ σ log run 0 1 mem mem' forward forward' same) (by decide)

end HevFsh.SessionTask
