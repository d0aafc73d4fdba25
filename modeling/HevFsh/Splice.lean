import HevFsh.Descriptors
import HevFsh.SessionEvents

/-! Connectors and their relays. A connector waits for its descriptor in the
registry; its relay takes both descriptors by value when the wait is over. -/
namespace HevFsh.SessionTask
open SearchTree Protocol SessionManager Transitions

def Answered (σ : Server) : Action → Prop
  | .wake i rest => match σ.pc i with
      | .spliceWait _ => rest = 0 → 0 ≤ (σ.session i).remoteFd
      | _ => True
  | .sendReturn i _ => match σ.pc i with
      | .writeSend w _ => match w.after with
          | .connect _ => (σ.session i).timeout ≠ 0
          | _ => True
      | _ => True
  | _ => True

instance (σ : Server) (a : Action) : Decidable (Answered σ a) := by
  unfold Answered
  split <;> try infer_instance
  · split <;> infer_instance
  · split <;> try infer_instance
    split <;> infer_instance

def RelayHeld (σ : Server) (j : Sid) : Prop :=
  ∀ c r, σ.pc j = .relay c r → c = (σ.session j).clientFd ∧
    (0 ≤ r → (σ.session j).type = .splice ∧ r = (σ.session j).remoteFd)

section splice
variable {cfg : Config} {σ σ' : Server} {i j : Sid} {a : Action} {es : List Event}

theorem spliceKept (reg : Registry σ) (move : Moves cfg σ a σ' es)
    (type : (σ.session j).type = .splice) :
    (σ'.session j).type = .splice ∧ (σ'.session j).clientFd = (σ.session j).clientFd ∧
      (σ'.session j).remoteFd = (σ.session j).remoteFd := by
  have fits := reg.fits j
  obtain ⟨s,lock,change,session⟩ := changesMoves reg move j
  rw [session]
  cases change with
  | same => exact ⟨type,rfl,rfl⟩
  | opened fresh nobody => simp [reg.ahead j (Nat.le_of_eq fresh.symm),Fits,type] at fits
  | closed ending => exact ⟨type,rfl,rfl⟩
  | handed pass ending =>
    have serves := (acceptPassPlace reg pass).2
    rw [type] at serves
    contradiction
  | token came => simp [(loginTokenPlace reg came).2.1] at type
  | forward is pc done after => simp [pc,Fits,after,type] at fits
  | connect is pc done after logged => simp [pc,Fits,after,type] at fits
  | evicted came allowed found logged =>
    simp [(loginFinds (loginTokenPlace reg came).2.1 found).2.2.1] at type
  | spliced pass found logged => simp [(acceptFinds (acceptPassPlace reg pass).2 found).2.2.1] at type

theorem relayStarts {c r} (move : Moves cfg σ a σ' es) (pc' : σ'.pc j = .relay c r) :
    σ.pc j = .relay c r ∨ (c = (σ'.session j).clientFd ∧ r = (σ'.session j).remoteFd ∧
      (Answered σ a → 0 ≤ r)) := by
  have moved : ∀ {i p}, (Function.update σ.pc i p) j = .relay c r → p ≠ .relay c r →
      σ.pc j = .relay c r := by
    intro i p at' other
    by_cases same : j = i
    · subst same
      exact absurd (by simpa using at') other
    · simpa [Function.update_of_ne same] using at'
  cases move with
  | opened valid free => exact .inl (moved pc' (by simp))
  | refused valid free => exact .inl pc'
  | reloaded has => exact .inl pc'
  | enters pc next => exact .inl (moved pc' (by cases next <;> simp))
  | relays pc valid => exact .inl pc'
  | @connectRelays i w sent res mt pc done is leaves =>
    by_cases same : j = i
    · subst same
      simp only [setPcPc,Function.update_self,Pc.relay.injEq] at pc'
      obtain ⟨rfl,rfl⟩ := pc'
      refine .inr ⟨by simp [connectSession,unlockSession],by simp [connectSession,unlockSession],?_⟩
      simp only [Answered,pc,is]
      exact fun left => leaves.resolve_left left
    · exact .inl (by simpa [Function.update_of_ne same] using pc')
  | @spliceRelays i timeout rest pc less leaves =>
    by_cases same : j = i
    · subst same
      simp only [setPcPc,Function.update_self,Pc.relay.injEq] at pc'
      obtain ⟨rfl,rfl⟩ := pc'
      refine .inr ⟨rfl,rfl,?_⟩
      simp only [Answered,pc]
      exact fun answered => leaves.elim answered id
    · exact .inl (by simpa [Function.update_of_ne same] using pc')
  | hangsUp ending => exact .inl (moved (by simpa using pc') (by simp))
  | refuses pc bad => exact .inl (moved (by simpa using pc') (by simp))
  | acceptOver pass => exact .inl (moved (by simpa using pc') (by simp))
  | acceptMatches pass left found => exact .inl (moved (by simpa using pc') (by simp))
  | writeFails pc fail => exact .inl (moved (by simpa using pc') (by simp))
  | _ => exact .inl (moved pc' (by simp))

theorem relayClient {c r} (reg : Registry σ) (move : Moves cfg σ a σ' es) (pc : σ.pc j = .relay c r) :
    (σ'.session j).clientFd = (σ.session j).clientFd := by
  obtain ⟨s,lock,change,session⟩ := changesMoves reg move j
  rw [session]
  cases change with
  | opened fresh nobody => simp [reg.ahead j (Nat.le_of_eq fresh.symm)] at pc
  | handed pass ending => cases pass <;> simp_all
  | _ => rfl

theorem relayMoves (reg : Registry σ) (owned : Owned σ) (inv : ∀ j, RelayHeld σ j)
    (move : Moves cfg σ a σ' es) : ∀ j, RelayHeld σ' j := by
  intro j c r pc'
  rcases relayStarts move pc' with pc | ⟨client,remote,_⟩
  · obtain ⟨client,held⟩ := inv j c r pc
    refine ⟨client.trans (relayClient reg move pc).symm,fun set => ?_⟩
    obtain ⟨type,remote⟩ := held set
    obtain ⟨type',_,remote'⟩ := spliceKept reg move type
    exact ⟨type',remote.trans remote'.symm⟩
  · have live := registryLive (registryMoves reg move) (by simp [pc',Pc.runs] : (σ'.pc j).runs = true)
    refine ⟨client,fun set => ⟨?_,remote⟩⟩
    rw [remote] at set
    exact ((ownedMoves reg owned move).splice j live).mp set

end splice

section runs
variable {cfg : Config} {ok : Server → Action → Prop} {σ : Server} {log : Log Server Event}

theorem relayHeldRun (run : Run (machine cfg) ok σ log) : ∀ j, RelayHeld σ j := by
  refine runInvariant (P := fun σ _ => ∀ j, RelayHeld σ j) ?_ ?_ run
  · intro j c r pc
    simp [machine,init] at pc
  · intro s log a s' es run _ taken inv
    exact relayMoves (registryRun run) (ownedRun run) inv (stepMoves taken)

def RelayAt (σ : Server) (j : Sid) : Prop :=
  ∀ c r, σ.pc j = .relay c r →
    (σ.session j).type = .splice ∧ c = (σ.session j).clientFd ∧ r = (σ.session j).remoteFd

theorem relayRun (answers : ∀ σ a, ok σ a → Answered σ a) (run : Run (machine cfg) ok σ log) :
    ∀ j, RelayAt σ j := by
  have valid : ∀ j c r, σ.pc j = .relay c r → 0 ≤ r := by
    refine runInvariant (P := fun σ _ => ∀ j c r, σ.pc j = .relay c r → 0 ≤ r) ?_ ?_ run
    · intro j c r pc
      simp [machine,init] at pc
    · intro s log a s' es run allowed taken inv j c r pc'
      rcases relayStarts (stepMoves taken) pc' with pc | ⟨_,_,set⟩
      · exact inv j c r pc
      · exact set (answers s a allowed)
  intro j c r pc
  obtain ⟨client,held⟩ := relayHeldRun run j c r pc
  obtain ⟨type,remote⟩ := held (valid j c r pc)
  exact ⟨type,client,remote⟩

theorem connectWaiting (reg : Registry σ) (relays : ∀ j, RelayAt σ j) {i : Sid}
    (mem : i ∈ σ.tree.inorder) (type : (σ.session i).type = .connect) :
    ∃ timeout, σ.pc i = .spliceWait timeout := by
  have fits := reg.fits i
  have live := ((reg.member i).mp mem).1
  rw [reg.running] at live
  rw [type] at fits
  cases pc : σ.pc i with
  | spliceWait timeout => exact ⟨timeout,rfl⟩
  | relay c r =>
    have splice := (relays i c r pc).1
    rw [type] at splice
    contradiction
  | writeLock w =>
    simp only [pc,Fits,serving] at fits
    split at fits <;> simp at fits
  | writeSend w sent =>
    simp only [pc,Fits,serving] at fits
    split at fits <;> simp at fits
  | _ => simp [pc,Fits,serving,Pc.runs] at fits live

structure SpliceHistory (σ : Server) (log : Log Server Event) : Prop where
  started : ∀ σ₁ s c r, (σ₁,Event.relaying s c r) ∈ log →
    (σ.session s).type = .splice ∧ c = (σ.session s).clientFd ∧ r = (σ.session s).remoteFd
  handed : ∀ σ₁ i s t fd, (σ₁,Event.matched i s t fd) ∈ log →
    (σ.session s).type = .splice ∧ (σ₁.session s).clientFd = (σ.session s).clientFd ∧
      fd = (σ.session s).remoteFd
  relays : ∀ σ₁ i s t fd, (σ₁,Event.matched i s t fd) ∈ log →
    (∃ timeout, σ.pc s = .spliceWait timeout) ∨ ∃ σ₂ c r, (σ₂,Event.relaying s c r) ∈ log

theorem matchedTakes {a σ' es i s t fd} (reg : Registry σ)
    (logged : Logs cfg σ a σ' es (.matched i s t fd)) :
    s ∈ σ.tree.inorder ∧ (σ.session s).type = .connect ∧ (σ'.session s).type = .splice ∧
      (σ'.session s).clientFd = (σ.session s).clientFd ∧ (σ'.session s).remoteFd = fd ∧
      σ'.pc s = σ.pc s := by
  cases logged with
  | plain is => contradiction
  | matched pass left found next logged =>
    obtain ⟨other,mem,type,_⟩ := acceptFinds (acceptPassPlace reg pass).2 found
    subst next
    simp [handOverSession σ cfg other,other,mem,type]

theorem waitWakes {a σ' es s timeout} (taken : step cfg σ a = some (σ',es)) (mine : a.task = some s)
    (pc : σ.pc s = .spliceWait timeout) : ∃ rest ≤ timeout, (σ',es) = spliceLoop σ s rest := by
  cases a with
  | wake i rest =>
    cases mine
    simp only [step,wake,pc] at taken
    split at taken <;> try contradiction
    rename_i less
    exact ⟨rest,less,(Option.some.inj taken).symm⟩
  | recvToken i mt random =>
    cases mine
    have reads := recvTokenReads taken
    rw [pc] at reads
    contradiction
  | accept fd => contradiction
  | refuse fd => contradiction
  | reload tokens => contradiction
  | _ => cases mine; simp [step,lock,send,sendReturn,relay,pc] at taken

theorem waitLeaves {a σ' es s timeout} (reg : Registry σ) (taken : step cfg σ a = some (σ',es))
    (pc : σ.pc s = .spliceWait timeout) :
    (∃ rest, σ'.pc s = .spliceWait rest) ∨ ∃ c r, Event.relaying s c r ∈ es := by
  by_cases mine : a.task = some s
  · obtain ⟨rest,_,next⟩ := waitWakes taken mine pc
    simp only [spliceLoop] at next
    split at next
    · cases next; exact .inr ⟨_,_,List.mem_singleton.mpr rfl⟩
    · cases next; exact .inl ⟨rest,by simp⟩
  · have old : s ≠ σ.count := by
      intro same
      have absent := reg.ahead s (Nat.le_of_eq same.symm)
      rw [pc] at absent
      contradiction
    exact .inl ⟨timeout,(placeMoves (stepMoves taken) mine old).trans pc⟩

theorem spliceHistoryRun (answers : ∀ σ a, ok σ a → Answered σ a) (run : Run (machine cfg) ok σ log) :
    SpliceHistory σ log := by
  refine runInvariant (P := fun σ log => SpliceHistory σ log)
    ⟨by simp,by simp,by simp⟩ ?_ run
  intro s log a s' es run allowed taken inv
  have reg := registryRun run
  have move := stepMoves taken
  have relays := relayRun answers run
  have relays' := relayRun answers (.next run allowed taken)
  refine ⟨?_,?_,?_⟩
  · intro σ₁ j c r mem
    rcases memNext.mp mem with old | ⟨rfl,new⟩
    · obtain ⟨type,client,remote⟩ := inv.started σ₁ j c r old
      obtain ⟨type',client',remote'⟩ := spliceKept reg move type
      exact ⟨type',by rw [client',client],by rw [remote',remote]⟩
    · cases movesLogs move new with
      | plain is => contradiction
      | relaying runs pc' => exact relays' j _ _ pc'
  · intro σ₁ i j t fd mem
    rcases memNext.mp mem with old | ⟨rfl,new⟩
    · obtain ⟨type,client,remote⟩ := inv.handed σ₁ i j t fd old
      obtain ⟨type',client',remote'⟩ := spliceKept reg move type
      exact ⟨type',by rw [client',client],by rw [remote',remote]⟩
    · obtain ⟨_,_,type,client,remote,_⟩ := matchedTakes reg (movesLogs move new)
      exact ⟨type,client.symm,remote.symm⟩
  · intro σ₁ i j t fd mem
    rcases memNext.mp mem with old | ⟨rfl,new⟩
    · rcases inv.relays σ₁ i j t fd old with ⟨timeout,pc⟩ | ⟨σ₂,c,r,before⟩
      · rcases waitLeaves reg taken pc with waits | ⟨c,r,inside⟩
        · exact .inl waits
        · exact .inr ⟨s,c,r,memNext.mpr (.inr ⟨rfl,inside⟩)⟩
      · exact .inr ⟨σ₂,c,r,memNext.mpr (.inl before)⟩
    · obtain ⟨mem,type,_,_,_,pc⟩ := matchedTakes reg (movesLogs move new)
      obtain ⟨timeout,waits⟩ := connectWaiting reg relays mem type
      exact .inl ⟨timeout,pc.trans waits⟩

theorem relayOpen (answers : ∀ σ a, ok σ a → Answered σ a) (run : Run (machine cfg) ok σ log)
    {σ₁ : Server} {s : Sid} {c r : Int} (mem : (σ₁,Event.relaying s c r) ∈ log) :
    (0 ≤ c ∧ σ₁.fds c = some s) ∧ 0 ≤ r ∧ ∃ other, σ₁.fds r = some other ∧ other ≠ s := by
  obtain ⟨pre,a,σ₂,es,earlier,allowed,taken,inside,_⟩ := runStep run mem
  have owned := ownedRun earlier
  cases movesLogs (stepMoves taken) inside with
  | plain is => contradiction
  | relaying runs pc' =>
    have live := registryLive (registryRun earlier) runs
    have valid : 0 ≤ (σ₁.session s).remoteFd := by
      rcases relayStarts (stepMoves taken) pc' with pc | ⟨_,_,set⟩
      · exact (owned.splice s live).mpr (relayRun answers earlier s _ _ pc).1
      · exact set (answers _ _ allowed)
    obtain ⟨other,on,dead⟩ := owned.remote s live valid
    refine ⟨owned.client s live,valid,other,on,?_⟩
    rintro rfl
    rw [live] at dead
    contradiction

/- A registered connector is in its wait and has no relay; a relay joins two open
connections; a matched connector relays between its own descriptor and the
accepted one, as soon as it wakes. -/
structure Relays (cfg : Config) (σ : Server) (log : Log Server Event) : Prop where
  waiting : ∀ i ∈ σ.tree.inorder, (σ.session i).type = .connect →
    (∃ timeout, σ.pc i = .spliceWait timeout) ∧ ∀ σ₁ c r, (σ₁,Event.relaying i c r) ∉ log
  valid : ∀ σ₁ i c r, (σ₁,Event.relaying i c r) ∈ log →
    (0 ≤ c ∧ σ₁.fds c = some i) ∧ 0 ≤ r ∧ ∃ other, σ₁.fds r = some other ∧ other ≠ i
  pairs : ∀ σ₁ i s t fd, (σ₁,Event.matched i s t fd) ∈ log →
    (∀ σ₂ c r, (σ₂,Event.relaying s c r) ∈ log → c = (σ₁.session s).clientFd ∧ r = fd) ∧
    ((∃ σ₂, (σ₂,Event.relaying s (σ₁.session s).clientFd fd) ∈ log) ∨
      ∃ timeout, σ.pc s = .spliceWait timeout ∧ ∀ rest ≤ timeout,
        step cfg σ (.wake s rest) = some (σ.setPc s (.relay (σ₁.session s).clientFd fd),
          [.relaying s (σ₁.session s).clientFd fd]))

theorem matchedRelays (cfg : Config) (σ : Server) (log : Log Server Event)
    (run : Run (machine cfg) Answered σ log) : Relays cfg σ log := by
  have answers : ∀ σ a, Answered σ a → Answered σ a := fun _ _ h => h
  have reg := registryRun run
  have owned := ownedRun run
  have history := spliceHistoryRun answers run
  refine ⟨?_,fun _ _ _ _ mem => relayOpen answers run mem,?_⟩
  · intro i mem type
    refine ⟨connectWaiting reg (relayRun answers run) mem type,fun σ₁ c r started => ?_⟩
    have splice := (history.started σ₁ i c r started).1
    rw [type] at splice
    contradiction
  · intro σ₁ i s t fd mem
    obtain ⟨type,client,remote⟩ := history.handed σ₁ i s t fd mem
    have same : ∀ σ₂ c r, (σ₂,Event.relaying s c r) ∈ log →
        c = (σ₁.session s).clientFd ∧ r = fd := by
      intro σ₂ c r started
      obtain ⟨_,c',r'⟩ := history.started σ₂ s c r started
      exact ⟨c'.trans client.symm,r'.trans remote.symm⟩
    refine ⟨same,?_⟩
    rcases history.relays σ₁ i s t fd mem with ⟨timeout,pc⟩ | ⟨σ₂,c,r,started⟩
    · refine .inr ⟨timeout,pc,fun rest less => ?_⟩
      have live := registryLive reg (by simp [pc,Pc.runs] : (σ.pc s).runs = true)
      have set := (owned.splice s live).mpr type
      simp [step,wake,pc,less,spliceLoop,set,client,remote]
    · obtain ⟨rfl,rfl⟩ := same σ₂ c r started
      exact .inl ⟨σ₂,started⟩

def answeredConnect : List Action :=
  loginActions 0 5 2 (tokenOf 7) ++ connectActions 1 6 (tokenOf 7) .zero ++
    [.lock 1,.send 1 18,.sendReturn 1 18,.accept 7,.recvMessage 2 (some (1,4)) .zero,
      .recvToken 2 (some (tokenOf 7)) .zero]

theorem matchedRelaysTwo : ∃ σ log, Run (machine (plainConfig 120 none)) Answered σ log ∧
    ∃ timeout, σ.pc 1 = .spliceWait timeout ∧
      step (plainConfig 120 none) σ (.wake 1 timeout) =
        some (σ.setPc 1 (.relay 6 7),[.relaying 1 6 7]) := by
  obtain ⟨σ,log,run,shows⟩ := replayReaches (machine (plainConfig 120 none)) Answered answeredConnect
    (fun r => (r.2.map (fun e => ((e.1.session 1).clientFd,e.2))).contains
        (6,.matched 2 1 (tokenOf 7) 7) ∧
      ∀ e ∈ r.2, e.2 ≠ .relaying 1 6 7) (by decide)
  obtain ⟨mem,none'⟩ := of_decide_eq_true shows
  obtain ⟨⟨σ₁,e⟩,inside,same⟩ := List.mem_map.mp (List.contains_iff_mem.mp mem)
  obtain ⟨client,rfl⟩ := Prod.mk.inj same
  have relays := matchedRelays (plainConfig 120 none) σ log run
  have joined := (relays.pairs σ₁ 2 1 (tokenOf 7) 7 inside).2
  simp only at client
  rw [client] at joined
  rcases joined with ⟨σ₂,started⟩ | ⟨timeout,pc,next⟩
  · exact absurd rfl (none' _ started)
  · exact ⟨σ,log,run,timeout,pc,next timeout (UInt32.le_refl _)⟩

/- The wait runs out, the relay starts on -1, and the accept that comes next is
still matched with the connector. -/
def lateAccept : List Action :=
  loginActions 0 5 2 (tokenOf 7) ++ connectActions 1 6 (tokenOf 7) .zero ++
    [.lock 1,.send 1 18,.sendReturn 1 18,.wake 1 0,.accept 7,.recvMessage 2 (some (1,4)) .zero,
      .recvToken 2 (some (tokenOf 7)) .zero]

theorem acceptComesLate :
    ¬ ∀ cfg σ log, Run (machine cfg) (fun _ _ => True) σ log → Relays cfg σ log := by
  intro relays
  obtain ⟨σ,log,run,shows⟩ := replayReaches (machine (plainConfig 120 none)) (fun _ _ => True)
    lateAccept (fun r => (r.2.map Prod.snd).contains (.matched 2 1 (tokenOf 7) 7) ∧
      (r.2.map Prod.snd).contains (.relaying 1 6 (-1))) (by decide)
  obtain ⟨paired,started⟩ := of_decide_eq_true shows
  obtain ⟨⟨σ₁,e⟩,mem,rfl⟩ := List.mem_map.mp (List.contains_iff_mem.mp paired)
  obtain ⟨⟨σ₂,e⟩,mem',rfl⟩ := List.mem_map.mp (List.contains_iff_mem.mp started)
  have same := ((relays _ σ log run).pairs σ₁ 2 1 (tokenOf 7) 7 mem).1 σ₂ 6 (-1) mem'
  exact absurd same.2 (by decide)

end runs

end HevFsh.SessionTask
