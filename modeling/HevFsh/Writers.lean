import HevFsh.Descriptors
import HevFsh.SessionEvents

/-! Messages under way. A connector writes to another task's session through a
bare reference, across a lock and a send that may both block. -/
namespace HevFsh.SessionTask
open SearchTree Protocol SessionManager Transitions

def WriteShape (i : Sid) (own : Token) (w : Write) : Prop :=
  match w.after with
  | .login _ => w.target = i ∧ w.bytes = loginReply own
  | .connect mt => w.target ≠ i ∧ w.bytes = message 1 .connect mt.bytes
  | .keepAlive => w.target = i ∧ w.bytes = message 1 .keepAlive []

theorem ownTarget {i : Sid} {own : Token} {w : Write} (shape : WriteShape i own w) :
    w.target = i ∨ ∃ mt, w.after = .connect mt := by
  unfold WriteShape at shape
  cases after : w.after with
  | login ver => simp only [after] at shape; exact .inl shape.1
  | connect mt => exact .inr ⟨mt,rfl⟩
  | keepAlive => simp only [after] at shape; exact .inl shape.1

structure WritingAt (σ : Server) (i : Sid) : Prop where
  shape : ∀ w, (σ.pc i).write = some w →
    w.target < σ.count ∧ WriteShape i (σ.session i).token w
  lock : ∀ w n, σ.pc i = .writeSend w n →
    (σ.session w.target).wlock = some i ∧ n ≤ w.bytes.length

section writing
variable {cfg : Config} {σ σ' : Server} {i j : Sid}

theorem writingNone (idle : (σ.pc i).write = none) : WritingAt σ i where
  shape w writes := by simp [idle] at writes
  lock w n pc := by simp [pc,Pc.write] at idle

theorem writingKept (inv : WritingAt σ i) (pc : σ'.pc i = σ.pc i) (count : σ.count ≤ σ'.count)
    (token : (σ.pc i).write ≠ none → (σ'.session i).token = (σ.session i).token)
    (locks : ∀ w n, σ.pc i = .writeSend w n →
      (σ'.session w.target).wlock = (σ.session w.target).wlock) : WritingAt σ' i where
  shape w writes := by
    rw [pc] at writes
    obtain ⟨low,shape⟩ := inv.shape w writes
    rw [token (by simp [writes])]
    exact ⟨Nat.lt_of_lt_of_le low count,shape⟩
  lock w n at' := by
    rw [pc] at at'
    rw [locks w n at']
    exact inv.lock w n at'

theorem writingMoved {s : Session} {p : Pc} (inv : ∀ j, WritingAt σ j) (count : σ.count ≤ σ'.count)
    (session : σ'.session = Function.update σ.session i s) (wlock : s.wlock = (σ.session i).wlock)
    (pc : σ'.pc = Function.update σ.pc i p) (at' : WritingAt σ' i) : ∀ j, WritingAt σ' j := by
  intro j
  by_cases same : j = i
  · rw [same]; exact at'
  · refine writingKept (inv j) (by rw [pc,Function.update_of_ne same]) count ?_ ?_
    · intro _
      rw [session,Function.update_of_ne same]
    · intro w n _
      rw [session]
      by_cases mine : w.target = i
      · rw [mine,Function.update_self,wlock]
      · rw [Function.update_of_ne mine]

theorem writingSetPc {p : Pc} (inv : ∀ j, WritingAt σ j) (at' : WritingAt (σ.setPc i p) i) :
    ∀ j, WritingAt (σ.setPc i p) j :=
  writingMoved inv (Nat.le_refl _) (s := σ.session i) (by simp) rfl rfl at'

theorem writingIdle {p : Pc} (inv : ∀ j, WritingAt σ j) (idle : p.write = none) :
    ∀ j, WritingAt (σ.setPc i p) j :=
  writingSetPc inv (writingNone (by simpa using idle))

theorem writingStarts {target bytes after} (inv : ∀ j, WritingAt σ j) (low : target < σ.count)
    (shape : WriteShape i (σ.session i).token ⟨target,(σ.session target).clientFd,bytes,after⟩) :
    ∀ j, WritingAt (writeMessage σ i target bytes after) j := by
  refine writingSetPc inv ⟨?_,?_⟩
  · intro w writes
    simp only [setPcPc,Function.update_self,Pc.write,Option.some.injEq] at writes
    subst writes
    exact ⟨low,shape⟩
  · intro w n pc
    simp at pc

theorem writingClose (inv : ∀ j, WritingAt σ j) : ∀ j, WritingAt (closeSession cfg σ i) j :=
  writingMoved inv (by simp) (closeSessionSession σ i cfg) rfl (closeSessionPc σ i cfg)
    (writingNone (by simp [Pc.write]))

theorem writingUnlock {w sent s p} (inv : ∀ j, WritingAt σ j) (pc : σ.pc i = .writeSend w sent)
    (count : σ'.count = σ.count) (session : σ'.session = Function.update (unlock σ w.target).session i s)
    (wlock : s.wlock = ((unlock σ w.target).session i).wlock)
    (pcs : σ'.pc = Function.update σ.pc i p) (idle : p.write = none) : ∀ j, WritingAt σ' j := by
  intro j
  by_cases same : j = i
  · rw [same]; exact writingNone (by rw [pcs,Function.update_self]; exact idle)
  · refine writingKept (inv j) (by rw [pcs,Function.update_of_ne same]) (Nat.le_of_eq count.symm) ?_ ?_
    · intro _
      rw [session,Function.update_of_ne same,unlockSession]
    · intro w' n at'
      have theirs := (inv j).lock w' n at'
      have mine := (inv i).lock w sent pc
      have apart : w'.target ≠ w.target := by
        intro meet
        rw [meet,mine.1] at theirs
        exact same (Option.some.inj theirs.1).symm
      have kept : ((unlock σ w.target).session w'.target).wlock = (σ.session w'.target).wlock := by
        rw [unlockSession,if_neg apart]
      rw [session]
      by_cases self : w'.target = i
      · rw [self] at kept ⊢
        rw [Function.update_self,wlock,kept]
      · rw [Function.update_of_ne self,kept]

theorem writingSame (inv : ∀ j, WritingAt σ j) (count : σ.count ≤ σ'.count) (pc : σ'.pc = σ.pc)
    (kept : ∀ k, (σ'.session k).token = (σ.session k).token ∧
      (σ'.session k).wlock = (σ.session k).wlock) : ∀ j, WritingAt σ' j := fun j =>
  writingKept (inv j) (by rw [pc]) count (fun _ => (kept j).1) (fun w _ _ => (kept w.target).2)

theorem writingToken (inv : ∀ j, WritingAt σ j) (idle : (σ.pc i).write = none) (t : Token) :
    ∀ j, WritingAt (setToken σ i t) j :=
  writingMoved inv (Nat.le_refl _) rfl rfl (p := σ.pc i) (by simp [setToken])
    (writingNone (by simpa [setToken] using idle))

theorem loginTokenIdle {a ver t es} (came : LoginToken σ i a ver t es) : (σ.pc i).write = none := by
  cases came with
  | first pc is type => simp [pc,Pc.write]
  | zero pc => simp [pc,Pc.write]
  | client pc nonzero => simp [pc,Pc.write]

theorem registryBelow (reg : Registry σ) (runs : (σ.pc i).runs = true) : i < σ.count := by
  refine Nat.lt_of_not_le (fun late => ?_)
  rw [reg.ahead i late] at runs
  contradiction

theorem memberBelow (reg : Registry σ) (mem : i ∈ σ.tree.inorder) : i < σ.count :=
  registryBelow reg (by rw [← reg.running]; exact ((reg.member i).mp mem).1)

theorem writingLocks {w} (inv : ∀ j, WritingAt σ j) (pc : σ.pc i = .writeLock w)
    (free : (σ.session w.target).wlock = none) (fd : Int) :
    ∀ j, WritingAt ((σ.setSession w.target {σ.session w.target with wlock := some i}).setPc i
      (.writeSend {w with fd := fd} 0)) j := by
  intro j
  have token : ∀ k, ((σ.setSession w.target {σ.session w.target with wlock := some i}).session k).token =
      (σ.session k).token := by
    intro k
    simp only [setSessionSession,Function.update_apply]
    split
    · rename_i same; rw [same]
    · rfl
  by_cases same : j = i
  · subst same
    obtain ⟨low,shape⟩ := (inv j).shape w (by simp [pc,Pc.write])
    refine ⟨?_,?_⟩
    · intro w' writes
      simp only [setPcPc,Function.update_self,Pc.write,Option.some.injEq] at writes
      subst writes
      refine ⟨low,?_⟩
      rw [setPcSession,token]
      exact shape
    · intro w' n at'
      simp only [setPcPc,Function.update_self,Pc.writeSend.injEq] at at'
      obtain ⟨rfl,rfl⟩ := at'
      simp
  · refine writingKept (inv j) (by simp [Function.update_of_ne same]) (Nat.le_refl _)
      (fun _ => by rw [setPcSession,token]) ?_
    intro w' n at'
    have theirs := ((inv j).lock w' n at').1
    have apart : w'.target ≠ w.target := by
      intro meet
      rw [meet,free] at theirs
      contradiction
    simp [Function.update_of_ne apart]

theorem writingMoves {a es} (reg : Registry σ) (inv : ∀ j, WritingAt σ j)
    (move : Moves cfg σ a σ' es) : ∀ j, WritingAt σ' j := by
  cases move with
  | opened valid free =>
    intro j
    by_cases same : j = σ.count
    · subst same; exact writingNone (by simp [opened,Pc.write])
    · refine writingKept (inv j) (by simp [opened,Function.update_of_ne same]) (Nat.le_succ _) ?_ ?_
      · intro _
        simp [opened,Function.update_of_ne same]
      · intro w n pc
        have low := ((inv j).shape w (by simp [pc,Pc.write])).1
        simp [opened,Function.update_of_ne (Nat.ne_of_lt low)]
  | refused valid free => exact writingSame inv (Nat.le_succ _) rfl (fun _ => ⟨rfl,rfl⟩)
  | reloaded has => exact writingSame inv (Nat.le_refl _) rfl (fun _ => ⟨rfl,rfl⟩)
  | hangsUp ending => exact writingClose inv
  | refuses pc bad => exact writingClose inv
  | @enters i ver cmd random p pc next =>
    have low := registryBelow reg (by simp [pc,Pc.runs] : (σ.pc i).runs = true)
    cases next with
    | keepAlive is other => exact writingStarts inv low ⟨rfl,rfl⟩
    | _ => exact writingIdle inv rfl
  | loginRejected came has unlisted =>
    exact writingIdle (writingToken inv (loginTokenIdle came) _) rfl
  | @loginFresh i a ver t es came allowed missing =>
    have low := registryBelow reg (loginTokenPlace reg came).1
    refine writingStarts (writingToken inv (loginTokenIdle came) t) low ?_
    simp [WriteShape,setToken]
  | @loginEvicts i a ver t es s came allowed found =>
    obtain ⟨runs,type,_⟩ := loginTokenPlace reg came
    have other := (loginFinds type found).1
    have evicted : ∀ j, WritingAt (evict cfg (setToken σ i t) s) j := by
      refine writingSame (writingToken inv (loginTokenIdle came) t) (Nat.le_refl _) rfl ?_
      intro k
      by_cases same : k = s
      · subst same; simp
      · simp [Function.update_of_ne same]
    have low : i < σ.count := registryBelow reg runs
    refine writingStarts evicted low ?_
    simp [WriteShape,setToken,Function.update_of_ne (Ne.symm other)]
  | connectMissing pc missing => exact writingIdle inv rfl
  | @connectFound i mt random s pc found =>
    obtain ⟨mem,forward,_⟩ := findSound found
    have fits := reg.fits i
    have type : (σ.session i).type = .null := by simpa [pc,Fits] using fits
    have other : s ≠ i := by rintro rfl; simp [type] at forward
    exact writingStarts inv (memberBelow reg mem) ⟨other,rfl⟩
  | acceptOver pass => exact writingClose inv
  | acceptWaits pass left missing => exact writingIdle inv rfl
  | @acceptMatches i a mt timeout es s pass left found =>
    obtain ⟨_,serves⟩ := acceptPassPlace reg pass
    have other := (acceptFinds serves found).1
    refine writingClose (writingSame inv (Nat.le_refl _) rfl (fun k => ?_))
    rw [handOverSession σ cfg other]
    split
    · rename_i same; rw [same]; exact ⟨rfl,rfl⟩
    · split
      · rename_i same; rw [same]; exact ⟨rfl,rfl⟩
      · exact ⟨rfl,rfl⟩
  | sleeps pc less left => exact writingIdle inv rfl
  | locks pc free => exact writingLocks inv pc free _
  | @sends i w sent n conn pc positive room valid =>
    have old := inv i
    refine writingSetPc inv ⟨?_,?_⟩
    · intro w' writes
      simp only [setPcPc,Function.update_self,Pc.write,Option.some.injEq] at writes
      subst writes
      exact old.shape w (by simp [pc,Pc.write])
    · intro w' m at'
      simp only [setPcPc,Function.update_self,Pc.writeSend.injEq] at at'
      obtain ⟨rfl,rfl⟩ := at'
      exact ⟨(old.lock w sent pc).1,room⟩
  | writeFails pc fail =>
    exact writingUnlock inv pc (closeSessionCount _ _ _) (closeSessionSession _ _ _) rfl
      (closeSessionPc _ _ _) rfl
  | loginRegisters pc done is => exact writingUnlock inv pc rfl rfl rfl rfl rfl
  | connectWaits pc done is left unset => exact writingUnlock inv pc rfl rfl rfl rfl rfl
  | connectRelays pc done is leaves => exact writingUnlock inv pc rfl rfl rfl rfl rfl
  | @kept i w sent res pc done is =>
    exact writingUnlock inv pc rfl (Function.update_eq_self i (unlock σ w.target).session).symm rfl
      rfl rfl
  | spliceWaits pc less left unset => exact writingIdle inv rfl
  | spliceRelays pc less leaves => exact writingIdle inv rfl
  | relays pc valid => exact inv

end writing

theorem writingRun {cfg : Config} {ok : Server → Action → Prop} {σ log}
    (run : Run (machine cfg) ok σ log) : ∀ i, WritingAt σ i := by
  refine runInvariant (P := fun σ _ => ∀ i, WritingAt σ i)
    (fun _ => writingNone (by simp [machine,init,Pc.write])) ?_ run
  intro s log a s' es run _ taken inv
  exact writingMoves (registryRun run) inv (stepMoves taken)

/- Every message under way goes to a live session that still has the descriptor
read from it, and that number is still open on the session's own connection. -/
def WritersSafe (σ : Server) : Prop :=
  ∀ i w, (σ.pc i).write = some w →
    (σ.session w.target).live = true ∧ (σ.session w.target).clientFd = w.fd ∧
      σ.fds w.fd = some w.target

def Undisturbed (σ : Server) (a : Action) : Prop :=
  match closes σ a with
  | none => True
  | some i => ∀ j < σ.count, j ≠ i → ∀ w ∈ (σ.pc j).write, w.target ≠ i

instance (σ : Server) (a : Action) : Decidable (Undisturbed σ a) := by
  unfold Undisturbed
  split <;> infer_instance

section attached
variable {cfg : Config} {σ σ' : Server} {i : Sid}

def Attached (σ : Server) : Prop :=
  ∀ i w, (σ.pc i).write = some w →
    (σ.session w.target).live = true ∧ (σ.session w.target).clientFd = w.fd

theorem attachedFrame (inv : Attached σ)
    (pcs : ∀ j w, (σ'.pc j).write = some w → (σ.pc j).write = some w)
    (kept : ∀ k, (σ'.session k).live = (σ.session k).live ∧
      (σ'.session k).clientFd = (σ.session k).clientFd) : Attached σ' := by
  intro j w writes
  rw [(kept w.target).1,(kept w.target).2]
  exact inv j w (pcs j w writes)

theorem attachedSetPc {p : Pc} (inv : Attached σ)
    (next : ∀ w, p.write = some w →
      (σ.session w.target).live = true ∧ (σ.session w.target).clientFd = w.fd) :
    Attached (σ.setPc i p) := by
  intro j w writes
  by_cases same : j = i
  · subst same; exact next w (by simpa using writes)
  · exact inv j w (by simpa [Function.update_of_ne same] using writes)

theorem attachedIdle {p : Pc} (inv : Attached σ) (idle : p.write = none) : Attached (σ.setPc i p) :=
  attachedSetPc inv (fun w writes => by simp [idle] at writes)

theorem attachedStarts {target bytes after} (inv : Attached σ)
    (live : (σ.session target).live = true) : Attached (writeMessage σ i target bytes after) := by
  refine attachedSetPc inv (fun w writes => ?_)
  simp only [Pc.write,Option.some.injEq] at writes
  subst writes
  exact ⟨live,rfl⟩

theorem attachedRecord {k : Sid} {s : Session} (inv : Attached σ)
    (pcs : ∀ j w, (σ'.pc j).write = some w → (σ.pc j).write = some w)
    (session : σ'.session = Function.update σ.session k s)
    (kept : s.live = (σ.session k).live ∧ s.clientFd = (σ.session k).clientFd) : Attached σ' := by
  refine attachedFrame inv pcs (fun j => ?_)
  rw [session]
  by_cases same : j = k
  · subst same; simpa using kept
  · simp [Function.update_of_ne same]

theorem writeRuns {w} {p : Pc} (writes : p.write = some w) : p.runs = true := by
  cases p <;> simp_all [Pc.write,Pc.runs]

/- Nobody writes to a session at the moment it is closed, so a record that only
differs there is as good as the old one to every writer. -/
theorem attachedClose {a} (reg : Registry σ) (inv : Attached σ) (quiet : Undisturbed σ a)
    (ending : closes σ a = some i) (pc : σ'.pc = σ.pc)
    (kept : ∀ k, k ≠ i → (σ'.session k).live = (σ.session k).live ∧
      (σ'.session k).clientFd = (σ.session k).clientFd) : Attached (closeSession cfg σ' i) := by
  simp only [Undisturbed,ending] at quiet
  intro j w writes
  rw [closeSessionPc,pc] at writes
  by_cases same : j = i
  · subst same; simp [Pc.write] at writes
  · rw [Function.update_of_ne same] at writes
    have away : w.target ≠ i := quiet j (registryBelow reg (writeRuns writes)) same w writes
    rw [closeSessionSession,Function.update_of_ne away,(kept w.target away).1,(kept w.target away).2]
    exact inv j w writes

theorem attachedUnlock {w sent s p} (inv : Attached σ) (pc : σ.pc i = .writeSend w sent)
    (session : σ'.session = Function.update (unlock σ w.target).session i s)
    (kept : s.live = (σ.session i).live ∧ s.clientFd = (σ.session i).clientFd)
    (pcs : σ'.pc = Function.update σ.pc i p) (idle : p.write = none) : Attached σ' := by
  refine attachedFrame inv ?_ ?_
  · intro j w' writes
    rw [pcs] at writes
    by_cases same : j = i
    · subst same; simp [idle] at writes
    · simpa [Function.update_of_ne same] using writes
  · intro k
    rw [session]
    by_cases same : k = i
    · subst same; simpa using kept
    · simp [Function.update_of_ne same,unlockSession]

theorem attachedMoves {a es} (reg : Registry σ) (inv : Attached σ) (quiet : Undisturbed σ a)
    (move : Moves cfg σ a σ' es) : Attached σ' := by
  cases move with
  | opened valid free =>
    have fresh := reg.ahead σ.count (Nat.le_refl _)
    have dead : (σ.session σ.count).live = false := by rw [reg.running,fresh]; rfl
    intro j w writes
    have old : (σ.pc j).write = some w := by
      by_cases same : j = σ.count
      · subst same; simp [opened,Pc.write] at writes
      · simpa [opened,Function.update_of_ne same] using writes
    obtain ⟨live,fd⟩ := inv j w old
    have other : w.target ≠ σ.count := by
      intro same
      rw [same,dead] at live
      contradiction
    simp [opened,Function.update_of_ne other,live,fd]
  | refused valid free => exact attachedFrame inv (fun _ _ h => h) (fun _ => ⟨rfl,rfl⟩)
  | reloaded has => exact attachedFrame inv (fun _ _ h => h) (fun _ => ⟨rfl,rfl⟩)
  | hangsUp ending =>
    exact attachedClose reg inv quiet (hangsUpCloses ending) rfl (fun _ _ => ⟨rfl,rfl⟩)
  | refuses pc bad =>
    exact attachedClose reg inv quiet (by simp [closes,bad]) rfl (fun _ _ => ⟨rfl,rfl⟩)
  | @enters i ver cmd random p pc next =>
    have live := registryLive reg (by simp [pc,Pc.runs] : (σ.pc i).runs = true)
    cases next with
    | keepAlive is other => exact attachedStarts inv live
    | _ => exact attachedIdle inv rfl
  | loginRejected came has unlisted =>
    exact attachedIdle (attachedRecord inv (fun _ _ h => h) rfl ⟨rfl,rfl⟩) rfl
  | @loginFresh i a ver t es came allowed missing =>
    have live := registryLive reg (loginTokenPlace reg came).1
    exact attachedStarts (attachedRecord inv (fun _ _ h => h) rfl ⟨rfl,rfl⟩)
      (by simpa [setToken] using live)
  | @loginEvicts i a ver t es s came allowed found =>
    obtain ⟨runs,type,_⟩ := loginTokenPlace reg came
    have live := registryLive reg runs
    have other := (loginFinds type found).1
    have token : Attached (setToken σ i t) := attachedRecord inv (fun _ _ h => h) rfl ⟨rfl,rfl⟩
    refine attachedStarts (attachedRecord token (fun _ _ h => h) (evictSession _ cfg s) ⟨rfl,rfl⟩) ?_
    simpa [setToken,Function.update_of_ne (Ne.symm other)] using live
  | connectMissing pc missing => exact attachedIdle inv rfl
  | connectFound pc found =>
    exact attachedStarts inv ((reg.member _).mp (findSound found).1).1
  | acceptOver pass =>
    exact attachedClose reg inv quiet (acceptOverCloses pass) rfl (fun _ _ => ⟨rfl,rfl⟩)
  | acceptWaits pass left missing => exact attachedIdle inv rfl
  | @acceptMatches i a mt timeout es s pass left found =>
    obtain ⟨_,serves⟩ := acceptPassPlace reg pass
    have other := (acceptFinds serves found).1
    refine attachedClose reg inv quiet (acceptMatchCloses pass found) rfl (fun k away => ?_)
    rw [handOverSession σ cfg other,if_neg away]
    split
    · rename_i same; rw [same]; exact ⟨rfl,rfl⟩
    · exact ⟨rfl,rfl⟩
  | sleeps pc less left => exact attachedIdle inv rfl
  | @locks i w pc free =>
    have mine := inv i w (by simp [pc,Pc.write])
    have locked : Attached (σ.setSession w.target {σ.session w.target with wlock := some i}) :=
      attachedRecord inv (fun _ _ h => h) rfl ⟨rfl,rfl⟩
    refine attachedSetPc locked (fun w' writes => ?_)
    simp only [Pc.write,Option.some.injEq] at writes
    subst writes
    simp only [setSessionSession,Function.update_self]
    refine ⟨mine.1,?_⟩
    split
    · rfl
    · exact mine.2
  | @sends i w sent n conn pc positive room valid =>
    refine attachedSetPc inv (fun w' writes => ?_)
    simp only [Pc.write,Option.some.injEq] at writes
    subst writes
    exact inv i w (by simp [pc,Pc.write])
  | writeFails pc fail =>
    refine attachedClose reg inv quiet (by simp [closes,fail]) rfl (fun k _ => ?_)
    simp [unlockSession]
  | loginRegisters pc done is =>
    exact attachedUnlock inv pc rfl (by simp [forwardSession,unlockSession]) rfl rfl
  | connectWaits pc done is left unset =>
    exact attachedUnlock inv pc rfl (by simp [connectSession,unlockSession]) rfl rfl
  | connectRelays pc done is leaves =>
    exact attachedUnlock inv pc rfl (by simp [connectSession,unlockSession]) rfl rfl
  | @kept i w sent res pc done is =>
    exact attachedUnlock inv pc (Function.update_eq_self i (unlock σ w.target).session).symm
      (by simp [unlockSession]) rfl rfl
  | spliceWaits pc less left unset => exact attachedIdle inv rfl
  | spliceRelays pc less leaves => exact attachedIdle inv rfl
  | relays pc valid => exact inv

end attached

theorem attachedRun {cfg : Config} {ok : Server → Action → Prop} {σ log}
    (quiet : ∀ σ a, ok σ a → Undisturbed σ a) (run : Run (machine cfg) ok σ log) : Attached σ := by
  refine runInvariant (P := fun σ _ => Attached σ)
    (fun i w writes => by simp [machine,init,Pc.write] at writes) ?_ run
  intro s log a s' es run allowed taken inv
  exact attachedMoves (registryRun run) inv (quiet s a allowed) (stepMoves taken)

theorem writersSafe {cfg : Config} {ok : Server → Action → Prop} {σ log}
    (quiet : ∀ σ a, ok σ a → Undisturbed σ a) (run : Run (machine cfg) ok σ log) : WritersSafe σ := by
  intro i w writes
  obtain ⟨live,fd⟩ := attachedRun quiet run i w writes
  refine ⟨live,fd,?_⟩
  rw [← fd]
  exact ((ownedRun run).client w.target live).2

/- In a run that never closes a session under a writer, no write outlives its target. -/
theorem writersOutlived (cfg : Config) (σ : Server) (log : Log Server Event)
    (run : Run (machine cfg) Undisturbed σ log) : WritersSafe σ :=
  writersSafe (fun _ _ h => h) run

theorem writersOutlivedSend : ∃ σ log, Run (machine (plainConfig 120 none)) Undisturbed σ log ∧
    (σ.pc 1).write.isSome ∧ σ.fds 5 = some 0 := by
  obtain ⟨σ,log,run,shows⟩ := replayReaches (machine (plainConfig 120 none)) Undisturbed
    (loginActions 0 5 2 (tokenOf 7) ++ connectActions 1 6 (tokenOf 7) .zero ++ [.lock 1,.send 1 3])
    (fun (σ,_) => (σ.pc 1).write.map (fun w => (w.target,w.fd)) = some (0,5)) (by decide)
  obtain ⟨w,writes,shape⟩ := Option.map_eq_some_iff.mp (of_decide_eq_true shows)
  have safe := writersOutlived (plainConfig 120 none) σ log run 1 w writes
  cases w
  cases shape
  exact ⟨σ,log,run,by simp [writes],safe.2.2⟩

/- The connector has the lock and waits in its send when the forwarder's client
hangs up: the session is destroyed and its descriptor closed. -/
theorem writerOutlives :
    ¬ ∀ cfg σ log, Run (machine cfg) (fun _ _ => True) σ log → WritersSafe σ := by
  intro safe
  obtain ⟨σ,log,run,shows⟩ := replayReaches (machine (plainConfig 120 none)) (fun _ _ => True)
    (loginActions 0 5 2 (tokenOf 7) ++ connectActions 1 6 (tokenOf 7) .zero ++
      [.lock 1,.send 1 3,.recvMessage 0 none .zero])
    (fun (σ,_) => (σ.pc 1).write.map Write.target = some 0 ∧ (σ.session 0).live = false) (by decide)
  obtain ⟨writing,dead⟩ := of_decide_eq_true shows
  obtain ⟨w,writes,target⟩ := Option.map_eq_some_iff.mp writing
  have live := (safe _ σ log run 1 w writes).1
  rw [target,dead] at live
  contradiction

end HevFsh.SessionTask
