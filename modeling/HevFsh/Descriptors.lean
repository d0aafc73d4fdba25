import HevFsh.Registry

/-! Who holds which descriptor. Numbers are reused once closed, so a number only
means something together with the connection it is open on. -/
namespace HevFsh.SessionTask
open SearchTree Protocol SessionManager Transitions

structure Owned (σ : Server) : Prop where
  valid : ∀ fd c, σ.fds fd = some c → 0 ≤ fd ∧ c < σ.count
  client : ∀ i, (σ.session i).live = true →
    0 ≤ (σ.session i).clientFd ∧ σ.fds (σ.session i).clientFd = some i
  remote : ∀ i, (σ.session i).live = true → 0 ≤ (σ.session i).remoteFd →
    ∃ c, σ.fds (σ.session i).remoteFd = some c ∧ (σ.session c).live = false
  single : ∀ i j, (σ.session i).live = true → (σ.session j).live = true →
    0 ≤ (σ.session i).remoteFd → (σ.session i).remoteFd = (σ.session j).remoteFd → i = j
  splice : ∀ i, (σ.session i).live = true →
    (0 ≤ (σ.session i).remoteFd ↔ (σ.session i).type = .splice)

theorem ownedInit (cfg : Config) : Owned (init cfg) where
  valid fd c h := by simp [init] at h
  client i live := by simp [init,unborn] at live
  remote i live := by simp [init,unborn] at live
  single i j live := by simp [init,unborn] at live
  splice i live := by simp [init,unborn] at live

section owned
variable {cfg : Config} {σ σ' : Server} {i : Sid}

theorem ownedFrame (inv : Owned σ) (fds : σ'.fds = σ.fds) (count : σ.count ≤ σ'.count)
    (kept : ∀ j, (σ'.session j).live = (σ.session j).live ∧
      (σ'.session j).clientFd = (σ.session j).clientFd ∧
      (σ'.session j).remoteFd = (σ.session j).remoteFd ∧
      ((σ'.session j).type = .splice ↔ (σ.session j).type = .splice)) : Owned σ' where
  valid fd c h := by
    obtain ⟨low,high⟩ := inv.valid fd c (by rw [← fds]; exact h)
    exact ⟨low,Nat.lt_of_lt_of_le high count⟩
  client j live := by
    rw [(kept j).2.1,fds]
    exact inv.client j (by rw [← (kept j).1]; exact live)
  remote j live set := by
    rw [(kept j).1] at live
    rw [(kept j).2.2.1] at set ⊢
    obtain ⟨c,on,dead⟩ := inv.remote j live set
    exact ⟨c,by rw [fds]; exact on,by rw [(kept c).1]; exact dead⟩
  single j k live live' set same := by
    rw [(kept j).1] at live
    rw [(kept k).1] at live'
    rw [(kept j).2.2.1] at set same
    rw [(kept k).2.2.1] at same
    exact inv.single j k live live' set same
  splice j live := by
    rw [(kept j).1] at live
    rw [(kept j).2.2.1,(kept j).2.2.2]
    exact inv.splice j live

theorem ownedUpdate {s : Session} (inv : Owned σ) (fds : σ'.fds = σ.fds) (count : σ'.count = σ.count)
    (same : σ'.session = Function.update σ.session i s)
    (kept : s.live = (σ.session i).live ∧ s.clientFd = (σ.session i).clientFd ∧
      s.remoteFd = (σ.session i).remoteFd ∧ (s.type = .splice ↔ (σ.session i).type = .splice)) :
    Owned σ' := by
  refine ownedFrame inv fds (Nat.le_of_eq count.symm) (fun j => ?_)
  by_cases at' : j = i
  · subst at'; simpa [same] using kept
  · simp [same,Function.update_of_ne at']

theorem ownedOpened {fd} (reg : Registry σ) (inv : Owned σ) (valid : 0 ≤ fd) (free : σ.fds fd = none) :
    Owned (opened cfg σ fd) := by
  have dead : (σ.session σ.count).live = false := by
    rw [reg.running,reg.ahead σ.count (Nat.le_refl _)]; rfl
  -- an open number is not the one that is being opened
  have other : ∀ {g c}, σ.fds g = some c → g ≠ fd := by
    rintro g c on rfl
    rw [free] at on
    contradiction
  refine ⟨?_,?_,?_,?_,?_⟩
  · intro g c on
    by_cases same : g = fd
    · subst same
      simp only [opened,Function.update_self,Option.some.injEq] at on
      exact ⟨valid,by simp [opened,← on]⟩
    · obtain ⟨low,high⟩ := inv.valid g c (by simpa [opened,Function.update_of_ne same] using on)
      exact ⟨low,Nat.lt_succ_of_lt high⟩
  · intro j live
    by_cases same : j = σ.count
    · subst same; simp [opened,newSession,valid]
    · simp only [opened,Function.update_of_ne same] at live ⊢
      have held := inv.client j live
      rw [Function.update_of_ne (other held.2)]
      exact held
  · intro j live set
    by_cases same : j = σ.count
    · subst same; simp [opened,newSession] at set
    · simp only [opened,Function.update_of_ne same] at live set ⊢
      obtain ⟨c,on,gone⟩ := inv.remote j live set
      have old : c ≠ σ.count := Nat.ne_of_lt (inv.valid _ c on).2
      refine ⟨c,by rw [Function.update_of_ne (other on)]; exact on,?_⟩
      rw [Function.update_of_ne old]
      exact gone
  · intro j k live live' set same
    by_cases fresh : j = σ.count
    · subst fresh; simp [opened,newSession] at set
    · by_cases fresh' : k = σ.count
      · subst fresh'
        rw [same] at set
        simp [opened,newSession] at set
      · simp only [opened,Function.update_of_ne fresh,Function.update_of_ne fresh'] at live live' set same
        exact inv.single j k live live' set same
  · intro j live
    by_cases same : j = σ.count
    · subst same; simp [opened,newSession]
    · simp only [opened,Function.update_of_ne same] at live ⊢
      exact inv.splice j live

theorem closeFdApply (fds : Int → Option Sid) (fd g : Int) :
    closeFd fds fd g = if 0 ≤ fd ∧ g = fd then none else fds g := by
  unfold closeFd
  split
  · rename_i valid
    simp [Function.update_apply,valid]
  · rename_i invalid
    simp [invalid]

theorem clientOnce (inv : Owned σ) {j} (live : (σ.session i).live = true)
    (live' : (σ.session j).live = true) (same : (σ.session j).clientFd = (σ.session i).clientFd) :
    j = i := by
  have held := (inv.client j live').2
  rw [same,(inv.client i live).2] at held
  exact (Option.some.inj held).symm

theorem remoteApart (inv : Owned σ) {j} (live : (σ.session i).live = true)
    (live' : (σ.session j).live = true) (set : 0 ≤ (σ.session j).remoteFd) :
    (σ.session j).remoteFd ≠ (σ.session i).clientFd := by
  intro same
  obtain ⟨c,on,dead⟩ := inv.remote j live' set
  rw [same,(inv.client i live).2] at on
  cases on
  simp [live] at dead

theorem clientApart (inv : Owned σ) {j} (live : (σ.session i).live = true)
    (alive : (σ.session j).live = true) :
    ¬ (0 ≤ (σ.session i).remoteFd ∧ (σ.session j).clientFd = (σ.session i).remoteFd) := by
  rintro ⟨set,same⟩
  exact remoteApart inv alive live set same.symm

theorem ownedClose (reg : Registry σ) (inv : Owned σ) (runs : (σ.pc i).runs = true) :
    Owned (closeSession cfg σ i) := by
  have live := registryLive reg runs
  -- what another live session holds is neither of the two numbers being closed
  have keptClient : ∀ j, j ≠ i → (σ.session j).live = true →
      (closeSession cfg σ i).fds (σ.session j).clientFd = some j := by
    intro j other alive
    have held := (inv.client j alive).2
    have notMine : (σ.session j).clientFd ≠ (σ.session i).clientFd :=
      fun same => other (clientOnce inv live alive same)
    have notRemote := clientApart inv live alive
    simp [closeFdApply,notMine,notRemote,held]
  have keptRemote : ∀ j c, j ≠ i → (σ.session j).live = true → 0 ≤ (σ.session j).remoteFd →
      σ.fds (σ.session j).remoteFd = some c → (σ.session c).live = false →
      (closeSession cfg σ i).fds (σ.session j).remoteFd = some c := by
    intro j c other alive set on dead
    have notMine := remoteApart inv live alive set
    have notRemote : ¬ (0 ≤ (σ.session i).remoteFd ∧
        (σ.session j).remoteFd = (σ.session i).remoteFd) := by
      rintro ⟨_,same⟩
      exact other (inv.single j i alive live set same)
    simp [closeFdApply,notMine,notRemote,on]
  have survives : ∀ j, ((closeSession cfg σ i).session j).live = true →
      j ≠ i ∧ (closeSession cfg σ i).session j = σ.session j ∧ (σ.session j).live = true := by
    intro j alive
    by_cases same : j = i
    · subst same; simp at alive
    · have kept : (closeSession cfg σ i).session j = σ.session j := by
        rw [closeSessionSession,Function.update_of_ne same]
      exact ⟨same,kept,by rw [← kept]; exact alive⟩
  refine ⟨?_,?_,?_,?_,?_⟩
  · intro g c on
    simp only [closeSessionFds,closeFdApply] at on
    split at on <;> try contradiction
    split at on <;> try contradiction
    simpa using inv.valid g c on
  · intro j alive
    obtain ⟨other,same,alive⟩ := survives j alive
    rw [same]
    exact ⟨(inv.client j alive).1,keptClient j other alive⟩
  · intro j alive set
    obtain ⟨other,same,alive⟩ := survives j alive
    rw [same] at set ⊢
    obtain ⟨c,on,dead⟩ := inv.remote j alive set
    refine ⟨c,keptRemote j c other alive set on dead,?_⟩
    by_cases own : c = i
    · subst own; simp
    · simp [Function.update_of_ne own,dead]
  · intro j k alive alive' set match'
    obtain ⟨_,same,alive⟩ := survives j alive
    obtain ⟨_,same',alive'⟩ := survives k alive'
    rw [same] at set match'
    rw [same'] at match'
    exact inv.single j k alive alive' set match'
  · intro j alive
    obtain ⟨_,same,alive⟩ := survives j alive
    rw [same]
    exact inv.splice j alive

theorem matchedFds {s} (other : s ≠ i) (unset : ¬ 0 ≤ (σ.session i).remoteFd) :
    (closeSession cfg (handOver cfg σ i s) i).fds = σ.fds := by
  funext g
  simp [closeFdApply,handOverSession σ cfg other,unset]

theorem matchedSession {s} (other : s ≠ i) (j : Sid) :
    (closeSession cfg (handOver cfg σ i s) i).session j =
      if j = i then {σ.session i with live := false, clientFd := -1}
      else if j = s then {σ.session s with type := .splice, remoteFd := (σ.session i).clientFd}
      else σ.session j := by
  by_cases same : j = i
  · subst same; simp [handOverSession σ cfg other]
  · simp [handOverSession σ cfg other,same]

theorem ownedMatched {s} (reg : Registry σ) (inv : Owned σ) (runs : (σ.pc i).runs = true)
    (serves : serving (σ.session i).type = true) (other : s ≠ i) (mem : s ∈ σ.tree.inorder)
    (type : (σ.session s).type = .connect) : Owned (closeSession cfg (handOver cfg σ i s) i) := by
  have live := registryLive reg runs
  have mine := inv.client i live
  have alive := ((reg.member s).mp mem).1
  have unset : ¬ 0 ≤ (σ.session i).remoteFd := by
    intro set
    rw [inv.splice i live] at set
    simp [set,serving] at serves
  have fds := @matchedFds cfg σ i s other unset
  have session := @matchedSession cfg σ i s other
  refine ⟨?_,?_,?_,?_,?_⟩
  · intro g c on
    rw [fds] at on
    simpa using inv.valid g c on
  · intro j alive'
    rw [fds]
    rw [session] at alive' ⊢
    split at alive' <;> try contradiction
    rename_i notMine
    split at alive'
    · rename_i same
      subst same
      simpa [notMine] using inv.client j alive
    · rename_i notTaker
      simpa [notMine,notTaker] using inv.client j alive'
  · intro j alive' set
    rw [fds]
    rw [session] at alive' set ⊢
    split at alive' <;> try contradiction
    rename_i notMine
    split at alive'
    · rename_i same
      subst same
      refine ⟨i,by simpa [notMine] using mine.2,by rw [session]; simp⟩
    · rename_i notTaker
      simp only [notMine,notTaker,if_false] at set ⊢
      obtain ⟨c,on,dead⟩ := inv.remote j alive' set
      refine ⟨c,on,?_⟩
      rw [session]
      split
      · rfl
      · split
        · rename_i same; subst same; simp [alive] at dead
        · exact dead
  · have taken : ∀ k, (σ.session k).live = true → 0 ≤ (σ.session k).remoteFd →
        (σ.session k).remoteFd ≠ (σ.session i).clientFd := fun k => remoteApart inv live
    intro j k alive' alive'' set same
    rw [session] at alive' set
    rw [session] at alive''
    rw [session,session] at same
    split at alive' <;> try contradiction
    split at alive'' <;> try contradiction
    rename_i notMine notMine'
    simp only [notMine,notMine',if_false] at set same
    split at alive' <;> split at alive''
    · rename_i first second; rw [first,second]
    · rename_i first second
      simp only [first,second,if_true,if_false] at same set
      exact absurd same.symm (taken k alive'' (by rw [← same]; exact set))
    · rename_i first second
      simp only [first,second,if_true,if_false] at same set
      exact absurd same (taken j alive' set)
    · rename_i first second
      simp only [first,second,if_false] at same set
      exact inv.single j k alive' alive'' set same
  · intro j alive'
    rw [session] at alive' ⊢
    split at alive' <;> try contradiction
    rename_i notMine
    split at alive'
    · rename_i same
      subst same
      simp [notMine,mine.1]
    · rename_i notTaker
      simpa [notMine,notTaker] using inv.splice j alive'

theorem ownedUnlock (inv : Owned σ) (t : Sid) : Owned (unlock σ t) :=
  ownedUpdate inv rfl rfl rfl ⟨rfl,rfl,rfl,Iff.rfl⟩

theorem ownedRegister {s p} (inv : Owned σ)
    (kept : s.live = (σ.session i).live ∧ s.clientFd = (σ.session i).clientFd ∧
      s.remoteFd = (σ.session i).remoteFd ∧ (s.type = .splice ↔ (σ.session i).type = .splice)) :
    Owned ((register cfg σ i s).setPc i p) :=
  ownedUpdate inv rfl rfl rfl kept

theorem ownedMoves {a es} (reg : Registry σ) (inv : Owned σ) (move : Moves cfg σ a σ' es) :
    Owned σ' := by
  have same : ∀ j, (σ.session j).live = (σ.session j).live ∧
      (σ.session j).clientFd = (σ.session j).clientFd ∧
      (σ.session j).remoteFd = (σ.session j).remoteFd ∧
      ((σ.session j).type = .splice ↔ (σ.session j).type = .splice) :=
    fun _ => ⟨rfl,rfl,rfl,Iff.rfl⟩
  cases move with
  | opened valid free => exact ownedOpened reg inv valid free
  | refused valid free => exact ownedFrame inv rfl (Nat.le_succ _) same
  | hangsUp ending => exact ownedClose reg inv (hangsUpRuns ending)
  | refuses pc bad => exact ownedClose reg inv (by simp [pc,Pc.runs])
  | loginRejected came has unlisted =>
    exact ownedUpdate inv rfl rfl rfl ⟨rfl,rfl,rfl,Iff.rfl⟩
  | loginFresh came allowed missing =>
    exact ownedUpdate inv rfl rfl rfl ⟨rfl,rfl,rfl,Iff.rfl⟩
  | @loginEvicts i a ver t es s came allowed found =>
    obtain ⟨_,type,_⟩ := loginTokenPlace reg came
    obtain ⟨other,_,forward,_⟩ := loginFinds type found
    have token : Owned (setToken σ i t) := ownedUpdate inv rfl rfl rfl ⟨rfl,rfl,rfl,Iff.rfl⟩
    refine ownedUpdate token rfl rfl (evictSession (setToken σ i t) cfg s) ⟨rfl,rfl,rfl,?_⟩
    simp [setToken,Function.update_of_ne other,forward]
  | acceptOver pass => exact ownedClose reg inv (acceptPassPlace reg pass).1
  | acceptMatches pass left found =>
    obtain ⟨runs,serves⟩ := acceptPassPlace reg pass
    obtain ⟨other,mem,type,_⟩ := acceptFinds serves found
    exact ownedMatched reg inv runs serves other mem type
  | locks pc free => exact ownedUpdate inv rfl rfl rfl ⟨rfl,rfl,rfl,Iff.rfl⟩
  | writeFails pc fail =>
    exact ownedClose (registryWlock reg) (ownedUnlock inv _) (by simp [pc,Pc.runs])
  | @loginRegisters i w sent res ver pc done is =>
    have fits := reg.fits i
    have type : (σ.session i).type = .null := by simpa [pc,Fits,is] using fits
    exact ownedRegister (ownedUnlock inv _)
      ⟨rfl,rfl,rfl,by simp [forwardSession,unlockSession,type]⟩
  | @connectWaits i w sent res mt pc done is left unset =>
    have fits := reg.fits i
    have type : (σ.session i).type = .null := by simpa [pc,Fits,is] using fits
    exact ownedRegister (ownedUnlock inv _)
      ⟨rfl,rfl,rfl,by simp [connectSession,unlockSession,type]⟩
  | @connectRelays i w sent res mt pc done is leaves =>
    have fits := reg.fits i
    have type : (σ.session i).type = .null := by simpa [pc,Fits,is] using fits
    exact ownedRegister (ownedUnlock inv _)
      ⟨rfl,rfl,rfl,by simp [connectSession,unlockSession,type]⟩
  | kept pc done is => exact ownedUpdate inv rfl rfl rfl ⟨rfl,rfl,rfl,Iff.rfl⟩
  | _ => exact ownedFrame inv rfl (Nat.le_refl _) same

end owned

theorem ownedRun {cfg : Config} {ok : Server → Action → Prop} {σ log}
    (run : Run (machine cfg) ok σ log) : Owned σ := by
  refine runInvariant (P := fun σ _ => Owned σ) (ownedInit cfg) ?_ run
  intro s log a s' es run _ taken inv
  exact ownedMoves (registryRun run) inv (stepMoves taken)

end HevFsh.SessionTask
