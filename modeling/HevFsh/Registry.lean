import HevFsh.SessionMoves

/-! The registry over whole runs: which sessions are nodes of the tree, in which
order, and how their types move. The invariant ties each session to the place
of its own task, since only that task registers or closes it. -/
namespace HevFsh.SessionTask
open SearchTree Protocol SessionManager Transitions

def Pc.runs : Pc → Bool
  | .absent | .ended => false
  | _ => true

def registeredType : SessionType → Bool
  | .forward | .connect | .splice => true
  | .null | .closed => false

def serving : SessionType → Bool
  | .null | .forward | .closed => true
  | .connect | .splice => false

def Fits : Pc → SessionType → Bool
  | .absent,t => t = .null
  | .recvMessage,t => serving t
  | .loginRecv _,t => t = .null
  | .connectRecv,t => t = .null
  | .acceptRecv,t => serving t
  | .rejected _,t => t = .null
  | .acceptWait _ _,t => serving t
  | .writeLock w,t => if w.after = .keepAlive then serving t else t = .null
  | .writeSend w _,t => if w.after = .keepAlive then serving t else t = .null
  | .spliceWait _,t => t = .connect ∨ t = .splice
  | .relay _ _,t => t = .connect ∨ t = .splice
  | .ended,_ => true

structure Registry (σ : Server) : Prop where
  running : ∀ i, (σ.session i).live = (σ.pc i).runs
  ahead : ∀ i, σ.count ≤ i → σ.pc i = .absent
  fits : ∀ i, Fits (σ.pc i) (σ.session i).type = true
  managed : ∀ i, (σ.session i).live = true → (σ.session i).isMgr = registeredType (σ.session i).type
  unique : σ.tree.inorder.Nodup
  sorted : SortedTree σ.session σ.tree
  member : ∀ i, i ∈ σ.tree.inorder ↔ (σ.session i).live = true ∧ (σ.session i).isMgr = true

theorem registryInit (cfg : Config) : Registry (init cfg) where
  running _ := rfl
  ahead _ _ := rfl
  fits _ := rfl
  managed i live := by simp [init,unborn] at live
  unique := by simp [init,RbTree.inorder]
  sorted := by simp [SortedTree,init,RbTree.inorder]
  member i := by simp [init,RbTree.inorder,unborn]

section registry
variable {cfg : Config} {σ σ' : Server} {i : Sid}

theorem registryLive (inv : Registry σ) (pc : (σ.pc i).runs = true) : (σ.session i).live = true :=
  (inv.running i).trans pc

theorem registryAbsent (inv : Registry σ) (type : registeredType (σ.session i).type = false) :
    i ∉ σ.tree.inorder := by
  intro mem
  obtain ⟨live,mgr⟩ := (inv.member i).mp mem
  rw [inv.managed i live,type] at mgr
  contradiction

theorem registryFrame (inv : Registry σ) (tree : σ'.tree = σ.tree)
    (ahead : ∀ j, σ'.count ≤ j → σ'.pc j = .absent)
    (kept : ∀ j, (σ'.session j).live = (σ.session j).live ∧
      (σ'.session j).isMgr = (σ.session j).isMgr ∧ (σ'.session j).type = (σ.session j).type)
    (keys : ∀ j ∈ σ.tree.inorder, (σ'.session j).token = (σ.session j).token)
    (runs : ∀ j, (σ'.pc j).runs = (σ.pc j).runs)
    (fits : ∀ j, Fits (σ'.pc j) (σ.session j).type = true) : Registry σ' where
  running j := by rw [(kept j).1,runs j]; exact inv.running j
  ahead := ahead
  fits j := by rw [(kept j).2.2]; exact fits j
  managed j live := by
    rw [(kept j).1] at live
    rw [(kept j).2.1,(kept j).2.2]
    exact inv.managed j live
  unique := by rw [tree]; exact inv.unique
  sorted := by
    rw [tree]
    refine sortedCongr inv.sorted (fun j mem => ?_)
    simp only [Session.key,keys j mem,(kept j).2.2]
  member j := by rw [tree,(kept j).1,(kept j).2.1]; exact inv.member j

theorem registrySetPc {p} (inv : Registry σ) (runs : (σ.pc i).runs = true) (next : p.runs = true)
    (fits : Fits p (σ.session i).type = true) : Registry (σ.setPc i p) := by
  refine registryFrame inv rfl ?_ (fun _ => ⟨rfl,rfl,rfl⟩) (fun _ _ => rfl) ?_ ?_
  · intro j late
    have old := inv.ahead j late
    have other : j ≠ i := by rintro rfl; rw [old] at runs; contradiction
    simpa [Function.update_of_ne other] using old
  · intro j
    by_cases same : j = i
    · subst same; simp [runs,next]
    · simp [Function.update_of_ne same]
  · intro j
    by_cases same : j = i
    · subst same; simpa using fits
    · simpa [Function.update_of_ne same] using inv.fits j

theorem registryWlock {lock} (inv : Registry σ) :
    Registry (σ.setSession i {σ.session i with wlock := lock}) := by
  refine registryFrame inv rfl inv.ahead ?_ ?_ (fun _ => rfl) inv.fits
  · intro j
    by_cases same : j = i
    · subst same; simp
    · simp [Function.update_of_ne same]
  · intro j _
    by_cases same : j = i
    · subst same; simp
    · simp [Function.update_of_ne same]

theorem registryToken (inv : Registry σ) (absent : i ∉ σ.tree.inorder) (t : Token) :
    Registry (setToken σ i t) := by
  refine registryFrame inv rfl inv.ahead ?_ ?_ (fun _ => rfl) inv.fits
  · intro j
    by_cases same : j = i
    · subst same; simp [setToken]
    · simp [setToken,Function.update_of_ne same]
  · intro j mem
    have other : j ≠ i := by rintro rfl; exact absent mem
    simp [setToken,Function.update_of_ne other]

theorem registryOpened {fd} (inv : Registry σ) : Registry (opened cfg σ fd) := by
  have fresh : σ.pc σ.count = .absent := inv.ahead σ.count (Nat.le_refl _)
  have dead : (σ.session σ.count).live = false := by rw [inv.running,fresh]; rfl
  have absent : ∀ j ∈ σ.tree.inorder, j ≠ σ.count := by
    rintro j mem rfl
    have := ((inv.member _).mp mem).1
    simp [dead] at this
  refine ⟨?_,?_,?_,?_,inv.unique,?_,?_⟩
  · intro j
    by_cases same : j = σ.count
    · subst same; simp [opened,newSession,Pc.runs]
    · simpa [opened,Function.update_of_ne same] using inv.running j
  · intro j late
    have other : j ≠ σ.count := by simp only [opened] at late; omega
    simpa [opened,Function.update_of_ne other] using
      inv.ahead j (by simp only [opened] at late; omega)
  · intro j
    by_cases same : j = σ.count
    · subst same; simp [opened,newSession,Fits,serving]
    · simpa [opened,Function.update_of_ne same] using inv.fits j
  · intro j
    by_cases same : j = σ.count
    · subst same; simp [opened,newSession,registeredType]
    · simpa [opened,Function.update_of_ne same] using inv.managed j
  · refine sortedCongr inv.sorted (fun j mem => ?_)
    simp [opened,Function.update_of_ne (absent j mem)]
  · intro j
    by_cases same : j = σ.count
    · subst same
      simp only [opened,Function.update_self,newSession]
      exact ⟨fun mem => absurd rfl (absent _ mem),fun bad => by simp at bad⟩
    · simpa [opened,Function.update_of_ne same] using inv.member j

theorem registryEvict {s} (inv : Registry σ) (mem : s ∈ σ.tree.inorder)
    (type : (σ.session s).type = .forward) : Registry (evict cfg σ s) := by
  have live := ((inv.member s).mp mem).1
  refine ⟨?_,inv.ahead,?_,?_,?_,?_,?_⟩
  · intro j
    by_cases same : j = s
    · subst same; simpa using inv.running j
    · simpa [Function.update_of_ne same] using inv.running j
  · intro j
    by_cases same : j = s
    · subst same
      have fits := inv.fits j
      rw [type] at fits
      simp only [evictSession,evictPc,Function.update_self]
      -- wherever a forwarder's task may stand, so may that of an evicted one
      cases h : σ.pc j <;> simp_all [Fits,serving]
    · simpa [Function.update_of_ne same] using inv.fits j
  · intro j
    by_cases same : j = s
    · subst same; simp [registeredType]
    · simpa [Function.update_of_ne same] using inv.managed j
  · exact removeNodup inv.unique mem
  · refine removeSorted inv.unique mem inv.sorted (fun j _ other => ?_)
    simp [Function.update_of_ne other]
  · intro j
    rw [evictTree,removeMem inv.unique mem]
    by_cases same : j = s
    · subst same; simp
    · simpa [Function.update_of_ne same,same] using inv.member j

theorem registryClose (inv : Registry σ) (runs : (σ.pc i).runs = true) :
    Registry (closeSession cfg σ i) := by
  have live := registryLive inv runs
  have known : (σ.session i).isMgr = true ↔ i ∈ σ.tree.inorder := by
    rw [inv.member i]
    exact ⟨fun h => ⟨live,h⟩,fun h => h.2⟩
  refine ⟨?_,?_,?_,?_,?_,?_,?_⟩
  · intro j
    by_cases same : j = i
    · subst same; simp [Pc.runs]
    · simpa [Function.update_of_ne same] using inv.running j
  · intro j late
    have old := inv.ahead j (by simpa using late)
    have other : j ≠ i := by rintro rfl; rw [old] at runs; contradiction
    simpa [Function.update_of_ne other] using old
  · intro j
    by_cases same : j = i
    · subst same; simp [Fits]
    · simpa [Function.update_of_ne same] using inv.fits j
  · intro j
    by_cases same : j = i
    · subst same; simp
    · simpa [Function.update_of_ne same] using inv.managed j
  · rw [closeSessionTree]
    split
    · rename_i mgr
      exact removeNodup inv.unique (known.mp mgr)
    · exact inv.unique
  · rw [closeSessionTree]
    split
    · rename_i mgr
      refine removeSorted inv.unique (known.mp mgr) inv.sorted (fun j _ other => ?_)
      simp [Function.update_of_ne other]
    · refine sortedCongr inv.sorted (fun j mem => ?_)
      by_cases same : j = i
      · subst same; simp [Session.key]
      · simp [Function.update_of_ne same]
  · intro j
    have tree : j ∈ (closeSession cfg σ i).tree.inorder ↔ j ≠ i ∧ j ∈ σ.tree.inorder := by
      rw [closeSessionTree]
      split
      · rename_i mgr
        exact removeMem inv.unique (known.mp mgr)
      · rename_i mgr
        refine ⟨fun mem => ⟨?_,mem⟩,fun h => h.2⟩
        rintro rfl
        exact mgr (known.mpr mem)
    rw [tree]
    by_cases same : j = i
    · subst same; simp
    · simpa [Function.update_of_ne same,same] using inv.member j

theorem registryRegister {s p} (inv : Registry σ) (runs : (σ.pc i).runs = true)
    (absent : i ∉ σ.tree.inorder) (live : s.live = true) (mgr : s.isMgr = true)
    (type : registeredType s.type = true) (next : p.runs = true) (fits : Fits p s.type = true) :
    Registry ((register cfg σ i s).setPc i p) := by
  refine ⟨?_,?_,?_,?_,?_,?_,?_⟩
  · intro j
    by_cases same : j = i
    · subst same; simp [live,next]
    · simpa [Function.update_of_ne same] using inv.running j
  · intro j late
    have old := inv.ahead j (by simpa using late)
    have other : j ≠ i := by rintro rfl; rw [old] at runs; contradiction
    simpa [Function.update_of_ne other] using old
  · intro j
    by_cases same : j = i
    · subst same; simpa using fits
    · simpa [Function.update_of_ne same] using inv.fits j
  · intro j
    by_cases same : j = i
    · subst same; simp [mgr,type]
    · simpa [Function.update_of_ne same] using inv.managed j
  · exact insertNodup inv.unique absent
  · refine insertSorted (sortedCongr inv.sorted (fun j mem => ?_))
    have other : j ≠ i := by rintro rfl; exact absent mem
    simp [Function.update_of_ne other]
  · intro j
    rw [setPcTree,registerTree,insertMem]
    by_cases same : j = i
    · subst same; simp [live,mgr]
    · simpa [Function.update_of_ne same,same] using inv.member j

theorem registryHandOver {s} (inv : Registry σ) (other : s ≠ i) (mem : s ∈ σ.tree.inorder)
    (type : (σ.session s).type = .connect) : Registry (handOver cfg σ i s) := by
  have known := (inv.member s).mp mem
  have away : s ∉ (remove cfg.sessions σ.tree s).inorder := by
    rw [removeMem inv.unique mem]
    exact fun h => h.1 rfl
  have tree : ∀ j, j ∈ (handOver cfg σ i s).tree.inorder ↔ j ∈ σ.tree.inorder := by
    intro j
    rw [handOverTree,insertMem,removeMem inv.unique mem]
    by_cases same : j = s
    · subst same; simp [mem]
    · simp [same]
  refine ⟨?_,inv.ahead,?_,?_,insertNodup (removeNodup inv.unique mem) away,?_,?_⟩
  · intro j
    rw [handOverSession σ cfg other,handOverPc,← inv.running j]
    split
    · rename_i same; subst same; rfl
    · split
      · rename_i same; subst same; rfl
      · rfl
  · intro j
    have fits := inv.fits j
    rw [handOverSession σ cfg other,handOverPc]
    split
    · rename_i same; subst same; exact fits
    · split
      · rename_i same
        subst same
        rw [type] at fits
        cases h : σ.pc j <;> simp_all [Fits,serving]
      · exact fits
  · intro j
    have managed := inv.managed j
    rw [handOverSession σ cfg other]
    split
    · rename_i same; subst same; exact managed
    · split
      · rename_i same; subst same; intro _; simpa [registeredType] using known.2
      · exact managed
  · have moved : SortedTree (Function.update σ.session s
        {σ.session s with type := .splice, remoteFd := (σ.session i).clientFd})
        (handOver cfg σ i s).tree := by
      refine insertSorted (removeSorted inv.unique mem inv.sorted (fun j _ other => ?_))
      simp [Function.update_of_ne other]
    refine sortedCongr moved (fun j _ => ?_)
    rw [handOverSession σ cfg other]
    split
    · rename_i same; subst same; simp [Function.update_of_ne (Ne.symm other),Session.key]
    · split
      · rename_i same; subst same; simp
      · rename_i away; simp [Function.update_of_ne away]
  · intro j
    rw [tree,handOverSession σ cfg other,inv.member j]
    split
    · rename_i same; subst same; rfl
    · split
      · rename_i same; subst same; rfl
      · rfl

theorem hangsUpRuns {a} (ending : HangsUp σ i a) : (σ.pc i).runs = true := by
  cases ending <;> simp_all [Pc.runs]

theorem loginTokenPlace {a ver t es} (inv : Registry σ) (came : LoginToken σ i a ver t es) :
    (σ.pc i).runs = true ∧ (σ.session i).type = .null ∧ i ∉ σ.tree.inorder := by
  have fits := inv.fits i
  have place : (σ.pc i).runs = true ∧ (σ.session i).type = .null := by
    cases came with
    | first pc is type => exact ⟨by simp [pc,Pc.runs],type⟩
    | zero pc => exact ⟨by simp [pc,Pc.runs],by simpa [pc,Fits] using fits⟩
    | client pc nonzero => exact ⟨by simp [pc,Pc.runs],by simpa [pc,Fits] using fits⟩
  exact ⟨place.1,place.2,registryAbsent inv (by simp [place.2,registeredType])⟩

theorem acceptPassPlace {a mt timeout es} (inv : Registry σ) (pass : AcceptPass σ i a mt timeout es) :
    (σ.pc i).runs = true ∧ serving (σ.session i).type = true := by
  have fits := inv.fits i
  cases pass with
  | first pc => exact ⟨by simp [pc,Pc.runs],by simpa [pc,Fits] using fits⟩
  | again pc less => exact ⟨by simp [pc,Pc.runs],by simpa [pc,Fits] using fits⟩

theorem loginFinds {t s} (type : (σ.session i).type = .null)
    (found : (setToken σ i t).find .forward t = some s) :
    s ≠ i ∧ s ∈ σ.tree.inorder ∧ (σ.session s).type = .forward ∧ (σ.session s).token = t := by
  obtain ⟨mem,forward,token⟩ := findSound found
  have other : s ≠ i := by
    rintro rfl
    simp [setToken,type] at forward
  simp only [setToken,setSessionSession,Function.update_of_ne other] at forward token
  exact ⟨other,mem,forward,token⟩

theorem acceptFinds {mt s} (serves : serving (σ.session i).type = true)
    (found : σ.find .connect mt = some s) :
    s ≠ i ∧ s ∈ σ.tree.inorder ∧ (σ.session s).type = .connect ∧ (σ.session s).token = mt := by
  obtain ⟨mem,type,token⟩ := findSound found
  refine ⟨?_,mem,type,token⟩
  rintro rfl
  simp [type,serving] at serves

theorem registryWrite {w sent} (inv : Registry σ) (pc : σ.pc i = .writeSend w sent)
    (other : w.after ≠ .keepAlive) :
    Registry (unlock σ w.target) ∧ ((unlock σ w.target).session i).live = true ∧
      i ∉ (unlock σ w.target).tree.inorder := by
  have fits := inv.fits i
  have type : (σ.session i).type = .null := by simpa [pc,Fits,other] using fits
  have absent : i ∉ σ.tree.inorder := registryAbsent inv (by simp [type,registeredType])
  refine ⟨registryWlock inv,?_,absent⟩
  rw [unlockSession]
  exact registryLive inv (by simp [pc,Pc.runs])

theorem registryMoves {a es} (inv : Registry σ) (move : Moves cfg σ a σ' es) : Registry σ' := by
  cases move with
  | opened valid free => exact registryOpened inv
  | refused valid free =>
    exact registryFrame inv rfl (fun j late => inv.ahead j (by simp only at late; omega))
      (fun _ => ⟨rfl,rfl,rfl⟩) (fun _ _ => rfl) (fun _ => rfl) inv.fits
  | reloaded has =>
    exact registryFrame inv rfl inv.ahead (fun _ => ⟨rfl,rfl,rfl⟩) (fun _ _ => rfl) (fun _ => rfl)
      inv.fits
  | hangsUp ending => exact registryClose inv (hangsUpRuns ending)
  | refuses pc bad => exact registryClose inv (by simp [pc,Pc.runs])
  | @enters i ver cmd random p pc next =>
    have fits := inv.fits i
    simp only [pc,Fits] at fits
    refine registrySetPc inv (by simp [pc,Pc.runs]) ?_ ?_ <;> cases next <;> simp_all [Pc.runs,Fits]
  | loginRejected came has unlisted =>
    obtain ⟨runs,type,absent⟩ := loginTokenPlace inv came
    exact registrySetPc (registryToken inv absent _) runs rfl (by simp [setToken,type,Fits])
  | loginFresh came allowed missing =>
    obtain ⟨runs,type,absent⟩ := loginTokenPlace inv came
    exact registrySetPc (registryToken inv absent _) runs rfl (by simp [setToken,type,Fits])
  | @loginEvicts i a ver t es s came allowed found =>
    obtain ⟨runs,type,absent⟩ := loginTokenPlace inv came
    obtain ⟨other,mem,forward,_⟩ := loginFinds type found
    have evicted : Registry (evict cfg (setToken σ i t) s) :=
      registryEvict (registryToken inv absent t) mem
        (by simpa [setToken,Function.update_of_ne other] using forward)
    refine registrySetPc evicted runs rfl ?_
    simp [Function.update_of_ne (Ne.symm other),setToken,type,Fits]
  | @connectMissing i mt random pc missing =>
    have fits := inv.fits i
    exact registrySetPc inv (by simp [pc,Pc.runs]) rfl (by simpa [pc,Fits] using fits)
  | @connectFound i mt random s pc found =>
    have fits := inv.fits i
    exact registrySetPc inv (by simp [pc,Pc.runs]) rfl (by simpa [pc,Fits] using fits)
  | acceptOver pass => exact registryClose inv (acceptPassPlace inv pass).1
  | acceptWaits pass left missing =>
    obtain ⟨runs,serves⟩ := acceptPassPlace inv pass
    exact registrySetPc inv runs rfl serves
  | acceptMatches pass left found =>
    obtain ⟨runs,serves⟩ := acceptPassPlace inv pass
    obtain ⟨other,mem,type,_⟩ := acceptFinds serves found
    exact registryClose (registryHandOver inv other mem type) runs
  | @sleeps i ms rest pc less left =>
    have fits := inv.fits i
    exact registrySetPc inv (by simp [pc,Pc.runs]) rfl (by simpa [pc,Fits] using fits)
  | @locks i w pc free =>
    have fits := inv.fits i
    refine registrySetPc (registryWlock inv) (by simp [pc,Pc.runs]) rfl ?_
    have type : ((σ.setSession w.target {σ.session w.target with wlock := some i}).session i).type =
        (σ.session i).type := by
      by_cases same : i = w.target
      · rw [← same]; simp
      · simp [Function.update_of_ne same]
    rw [type]
    simpa [pc,Fits] using fits
  | @sends i w sent n conn pc positive room valid =>
    have fits := inv.fits i
    exact registrySetPc inv (by simp [pc,Pc.runs]) rfl (by simpa [pc,Fits] using fits)
  | writeFails pc fail => exact registryClose (registryWlock inv) (by simp [pc,Pc.runs])
  | loginRegisters pc done is =>
    obtain ⟨open',live,absent⟩ := registryWrite inv pc (by simp [is])
    exact registryRegister open' (by simp [pc,Pc.runs]) absent live rfl rfl rfl rfl
  | connectWaits pc done is left unset =>
    obtain ⟨open',live,absent⟩ := registryWrite inv pc (by simp [is])
    exact registryRegister open' (by simp [pc,Pc.runs]) absent live rfl rfl rfl rfl
  | connectRelays pc done is leaves =>
    obtain ⟨open',live,absent⟩ := registryWrite inv pc (by simp [is])
    exact registryRegister open' (by simp [pc,Pc.runs]) absent live rfl rfl rfl rfl
  | @kept i w sent res pc done is =>
    have fits := inv.fits i
    refine registrySetPc (registryWlock inv) (by simp [pc,Pc.runs]) rfl ?_
    have type : ((unlock σ w.target).session i).type = (σ.session i).type := by rw [unlockSession]
    exact type ▸ (by simpa [pc,Fits,is] using fits)
  | @spliceWaits i timeout rest pc less left unset =>
    have fits := inv.fits i
    exact registrySetPc inv (by simp [pc,Pc.runs]) rfl (by simpa [pc,Fits] using fits)
  | @spliceRelays i timeout rest pc less leaves =>
    have fits := inv.fits i
    exact registrySetPc inv (by simp [pc,Pc.runs]) rfl (by simpa [pc,Fits] using fits)
  | relays pc valid => exact inv

/- What the tree calls of the source need of their argument. -/
def CalledWell : Event → Prop
  | .inserted tree s => s ∉ tree.inorder
  | .erased tree s => s ∈ tree.inorder
  | _ => True

theorem closeCalls (inv : Registry σ) (runs : (σ.pc i).runs = true) :
    ∀ e ∈ closeEvents σ i, CalledWell e := by
  have live := registryLive inv runs
  intro e mem
  simp only [closeEvents,destructEvents,closedEvents,List.mem_append] at mem
  rcases mem with mem | (mem | mem) | mem
  · split at mem
    · rename_i mgr
      cases List.mem_singleton.mp mem
      exact (inv.member i).mpr ⟨live,mgr⟩
    · contradiction
  · split at mem
    · cases List.mem_singleton.mp mem; trivial
    · contradiction
  · split at mem
    · cases List.mem_singleton.mp mem; trivial
    · contradiction
  · cases List.mem_singleton.mp mem; trivial

theorem loginTokenCalls {a ver t es} (came : LoginToken σ i a ver t es) : ∀ e ∈ es, CalledWell e := by
  cases came <;> simp [CalledWell]

theorem acceptPassCalls {a mt timeout es} (pass : AcceptPass σ i a mt timeout es) :
    ∀ e ∈ es, CalledWell e := by
  cases pass <;> simp [CalledWell]

theorem allowedCalls (t : Token) : ∀ e ∈ allowedEvents σ i t, CalledWell e := by
  unfold allowedEvents
  split <;> simp [CalledWell]

theorem callsMoves {a es} (inv : Registry σ) (move : Moves cfg σ a σ' es) :
    ∀ e ∈ es, CalledWell e := by
  cases move with
  | hangsUp ending => exact closeCalls inv (hangsUpRuns ending)
  | refuses pc bad =>
    simp only [List.forall_mem_cons]
    exact ⟨trivial,closeCalls inv (by simp [pc,Pc.runs])⟩
  | loginRejected came has unlisted =>
    simp only [List.forall_mem_append]
    exact ⟨loginTokenCalls came,by simp [CalledWell]⟩
  | loginFresh came allowed missing =>
    simp only [List.forall_mem_append]
    exact ⟨⟨loginTokenCalls came,allowedCalls _⟩,by simp [CalledWell]⟩
  | loginEvicts came allowed found =>
    obtain ⟨_,type,_⟩ := loginTokenPlace inv came
    obtain ⟨_,mem,_⟩ := loginFinds type found
    simp only [List.forall_mem_append]
    exact ⟨⟨loginTokenCalls came,allowedCalls _⟩,by simp [CalledWell,mem]⟩
  | connectFound pc found =>
    simp only [List.forall_mem_append,generatedEvents]
    refine ⟨⟨by simp [CalledWell],?_⟩,by simp [CalledWell]⟩
    split <;> simp [CalledWell]
  | acceptOver pass =>
    simp only [List.forall_mem_append]
    exact ⟨acceptPassCalls pass,closeCalls inv (acceptPassPlace inv pass).1⟩
  | acceptWaits pass left missing =>
    simp only [List.forall_mem_append]
    exact ⟨acceptPassCalls pass,by simp [CalledWell]⟩
  | acceptMatches pass left found =>
    obtain ⟨runs,serves⟩ := acceptPassPlace inv pass
    obtain ⟨other,mem,type,_⟩ := acceptFinds serves found
    simp only [List.forall_mem_append]
    refine ⟨⟨acceptPassCalls pass,?_⟩,closeCalls (registryHandOver inv other mem type) runs⟩
    simp [CalledWell,mem,removeMem inv.unique mem]
  | writeFails pc fail =>
    simp only [List.forall_mem_cons]
    exact ⟨trivial,closeCalls (registryWlock inv) (by simp [pc,Pc.runs])⟩
  | loginRegisters pc done is =>
    have absent := (registryWrite inv pc (by simp [is])).2.2
    simpa [CalledWell] using absent
  | connectWaits pc done is left unset =>
    have absent := (registryWrite inv pc (by simp [is])).2.2
    simpa [CalledWell] using absent
  | connectRelays pc done is leaves =>
    have absent := (registryWrite inv pc (by simp [is])).2.2
    simpa [CalledWell] using absent
  | _ => simp [CalledWell]

inductive TypeMove : SessionType → SessionType → Prop where
  | forward : TypeMove .null .forward
  | closed : TypeMove .forward .closed
  | connect : TypeMove .null .connect
  | splice : TypeMove .connect .splice

def TypeKept (σ σ' : Server) (j : Sid) : Prop :=
  (σ'.session j).type = (σ.session j).type ∨ TypeMove (σ.session j).type (σ'.session j).type

theorem typeUpdate {s : Session} (same : σ'.session = Function.update σ.session i s)
    (type : s.type = (σ.session i).type ∨ TypeMove (σ.session i).type s.type) :
    ∀ j, TypeKept σ σ' j := by
  intro j
  by_cases at' : j = i
  · subst at'; simpa [TypeKept,same] using type
  · simp [TypeKept,same,Function.update_of_ne at']

theorem typeRegisters {w sent s p} (inv : Registry σ) (pc : σ.pc i = .writeSend w sent)
    (other : w.after ≠ .keepAlive) (type : TypeMove .null s.type) :
    ∀ j, TypeKept σ ((register cfg (unlock σ w.target) i s).setPc i p) j := by
  have fits := inv.fits i
  have old : (σ.session i).type = .null := by simpa [pc,Fits,other] using fits
  intro j
  by_cases at' : j = i
  · subst at'; right; simpa [old] using type
  · left; simp [Function.update_of_ne at',unlockSession]

theorem typeMoves {a es} (inv : Registry σ) (move : Moves cfg σ a σ' es) : ∀ j, TypeKept σ σ' j := by
  have unchanged : ∀ {σ'' : Server}, σ''.session = σ.session → ∀ j, TypeKept σ σ'' j :=
    fun same j => .inl (by rw [same])
  cases move with
  | opened valid free =>
    have fits := inv.fits σ.count
    have fresh := inv.ahead σ.count (Nat.le_refl _)
    have null : (σ.session σ.count).type = .null := by simpa [fresh,Fits] using fits
    exact typeUpdate rfl (.inl null.symm)
  | hangsUp ending => exact typeUpdate (closeSessionSession σ _ cfg) (.inl rfl)
  | refuses pc bad => exact typeUpdate (closeSessionSession σ _ cfg) (.inl rfl)
  | loginRejected came has unlisted => exact typeUpdate rfl (.inl rfl)
  | loginFresh came allowed missing => exact typeUpdate rfl (.inl rfl)
  | @loginEvicts i a ver t es s came allowed found =>
    obtain ⟨_,type,_⟩ := loginTokenPlace inv came
    obtain ⟨other,_,forward,_⟩ := loginFinds type found
    intro j
    by_cases evicted : j = s
    · subst evicted
      right
      simp only [writeMessage,setPcSession,evictSession,Function.update_self,forward]
      exact .closed
    · left
      by_cases self : j = i
      · subst self; simp [writeMessage,setToken,Function.update_of_ne evicted]
      · simp [writeMessage,setToken,Function.update_of_ne evicted,Function.update_of_ne self]
  | acceptOver pass => exact typeUpdate (closeSessionSession σ _ cfg) (.inl rfl)
  | @acceptMatches i a mt timeout es s pass left found =>
    obtain ⟨_,serves⟩ := acceptPassPlace inv pass
    obtain ⟨other,_,type,_⟩ := acceptFinds serves found
    intro j
    simp only [TypeKept,closeSessionSession]
    by_cases self : j = i
    · subst self; left; simp [handOverSession σ cfg other]
    · rw [Function.update_of_ne self,handOverSession σ cfg other,if_neg self]
      split
      · rename_i same
        subst same
        right
        rw [type]
        exact .splice
      · exact .inl rfl
  | locks pc free => exact typeUpdate rfl (.inl rfl)
  | @writeFails i w sent res pc fail =>
    intro j
    left
    by_cases at' : j = i
    · rw [at',closeSessionSession,Function.update_self,unlockSession]
    · rw [closeSessionSession,Function.update_of_ne at',unlockSession]
  | loginRegisters pc done is => exact typeRegisters inv pc (by simp [is]) .forward
  | connectWaits pc done is left unset => exact typeRegisters inv pc (by simp [is]) .connect
  | connectRelays pc done is leaves => exact typeRegisters inv pc (by simp [is]) .connect
  | kept pc done is => exact typeUpdate rfl (.inl rfl)
  | _ => exact unchanged rfl

end registry

section runs
variable {cfg : Config} {ok : Server → Action → Prop} {σ : Server} {log : Log Server Event}

theorem registryRun (run : Run (machine cfg) ok σ log) : Registry σ := by
  refine runInvariant (P := fun σ _ => Registry σ) (registryInit cfg) ?_ run
  intro s log a s' es _ _ taken inv
  exact registryMoves inv (stepMoves taken)

theorem callsRun (run : Run (machine cfg) ok σ log) : ∀ entry ∈ log, CalledWell entry.2 := by
  refine runInvariant (P := fun _ log => ∀ entry ∈ log, CalledWell entry.2) (by simp) ?_ run
  intro s log a s' es run _ taken earlier entry mem
  rcases List.mem_append.mp mem with old | new
  · exact earlier entry old
  · obtain ⟨e,inside,rfl⟩ := List.mem_map.mp new
    exact callsMoves (registryRun run) (stepMoves taken) e inside

/- At every point of every run, for any number of tasks in any interleaving. -/
theorem registryHolds (cfg : Config) (σ : Server) (log : Log Server Event)
    (run : Run (machine cfg) (fun _ _ => True) σ log) :
    (∀ i, i ∈ σ.tree.inorder ↔ (σ.session i).live = true ∧ (σ.session i).isMgr = true) ∧
    (∀ i, i ∈ σ.tree.inorder ↔ (σ.session i).live = true ∧
      ((σ.session i).type = .forward ∨ (σ.session i).type = .connect ∨
        (σ.session i).type = .splice)) ∧
    (∀ σ₁ tree s, (σ₁,Event.inserted tree s) ∈ log → s ∉ tree.inorder) ∧
    (∀ σ₁ tree s, (σ₁,Event.erased tree s) ∈ log → s ∈ tree.inorder) ∧
    SortedTree σ.session σ.tree ∧
    (∀ a σ' es, step cfg σ a = some (σ',es) → ∀ i,
      (σ'.session i).type = (σ.session i).type ∨
        TypeMove (σ.session i).type (σ'.session i).type) := by
  have inv := registryRun run
  refine ⟨inv.member,?_,?_,?_,inv.sorted,?_⟩
  · intro i
    rw [inv.member i]
    refine and_congr_right (fun live => ?_)
    rw [inv.managed i live]
    cases (σ.session i).type <;> simp [registeredType]
  · intro σ₁ tree s mem
    exact callsRun run _ mem
  · intro σ₁ tree s mem
    exact callsRun run _ mem
  · intro a σ' es taken
    exact typeMoves inv (stepMoves taken)

def plainConfig (timeout : UInt32) (tokensFile : Option (List Token)) : Config :=
  ⟨Balancer.plain Sid,Balancer.plain Token,timeout,tokensFile⟩

def tokenOf (b : UInt8) : Token := ⟨List.replicate 16 b,by simp⟩

def loginActions (i : Sid) (fd : Int) (ver : UInt8) (t : Token) : List Action :=
  [.accept fd,.recvMessage i (some (ver,0)) .zero,.recvToken i (some t) .zero,.lock i,.send i 18,
    .sendReturn i 18]

def connectActions (i : Sid) (fd : Int) (t random : Token) : List Action :=
  [.accept fd,.recvMessage i (some (1,3)) .zero,.recvToken i (some t) random]

theorem registryHoldsEvicted : ∃ σ log, Run (machine (plainConfig 120 none)) (fun _ _ => True) σ log ∧
    (σ.session 0).type = .closed ∧ 0 ∉ σ.tree.inorder ∧ 1 ∈ σ.tree.inorder := by
  obtain ⟨σ,log,run,shows⟩ := replayReaches (machine (plainConfig 120 none)) (fun _ _ => True)
    (loginActions 0 5 2 (tokenOf 7) ++ loginActions 1 6 2 (tokenOf 7))
    (fun (σ,_) => (σ.session 0).type = .closed ∧ (σ.session 1).type = .forward ∧
      (σ.session 1).live) (by decide)
  obtain ⟨closed,forward,live⟩ := of_decide_eq_true shows
  obtain ⟨_,nodes,_⟩ := registryHolds (plainConfig 120 none) σ log run
  refine ⟨σ,log,run,closed,?_,(nodes 1).mpr ⟨live,.inl forward⟩⟩
  rw [nodes 0,closed]
  simp

end runs

end HevFsh.SessionTask
