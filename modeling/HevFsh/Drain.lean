import HevFsh.Failures
import HevFsh.Sockets
import Mathlib.Algebra.Order.BigOperators.Group.Finset

/-! What is left of a server whose peers have all gone quiet. Every call that may
block comes back in the end, with its time run out or its peer gone; then every
task closes its session, and no lock is left behind by a task that ended. -/
namespace HevFsh.SessionTask
open SearchTree Protocol SessionManager Transitions

inductive TimesOut : Action → Prop where
  | message {i random} : TimesOut (.recvMessage i none random)
  | token {i random} : TimesOut (.recvToken i none random)
  | sleep {i} : TimesOut (.wake i 0)
  | lock {i} : TimesOut (.lock i)
  | write {i res} (fail : res ≤ 0) : TimesOut (.sendReturn i res)
  | relay {i} : TimesOut (.relayEnd i)

def Pc.patience : Pc → Nat
  | .absent | .ended => 0
  | .writeLock _ | .spliceWait _ => 2
  | _ => 1

def patience (σ : Server) : Nat := ∑ i ∈ Finset.range σ.count, (σ.pc i).patience

structure Drained (σ : Server) : Prop where
  ended : ∀ i < σ.count, (σ.pc i).runs = false
  dead : ∀ i, (σ.session i).live = false
  registry : σ.tree.inorder = []
  closed : ∀ fd, σ.fds fd = none
  unlocked : ∀ i, (σ.session i).wlock = none

section drain
variable {cfg : Config} {σ σ' : Server} {i : Sid} {a : Action} {es : List Event}

theorem hangsUpPatience (ending : HangsUp σ i a) : 0 < (σ.pc i).patience := by
  cases ending <;> simp_all [Pc.patience]

theorem acceptPassPatience {mt timeout es₀} (pass : AcceptPass σ i a mt timeout es₀) :
    0 < (σ.pc i).patience := by
  cases pass <;> simp_all [Pc.patience]

theorem timesOutMoves (out : TimesOut a) (move : Moves cfg σ a σ' es) :
    ∃ i p, σ'.pc = Function.update σ.pc i p ∧ p.patience < (σ.pc i).patience ∧
      σ'.count = σ.count := by
  cases move with
  | hangsUp ending => exact ⟨_,.ended,by simp,hangsUpPatience ending,by simp⟩
  | acceptOver pass => exact ⟨_,.ended,by simp,acceptPassPatience pass,by simp⟩
  | acceptMatches pass left found => exact ⟨_,.ended,by simp,acceptPassPatience pass,by simp⟩
  | @locks i w pc free => exact ⟨i,_,rfl,by simp [pc,Pc.patience],rfl⟩
  | @writeFails i w sent res pc fail => exact ⟨i,.ended,by simp,by simp [pc,Pc.patience],by simp⟩
  | @spliceRelays i timeout rest pc less leaves => exact ⟨i,_,rfl,by simp [pc,Pc.patience],rfl⟩
  | acceptWaits pass left missing => cases out <;> cases pass <;> simp at left
  | loginRejected came has absent => cases out <;> cases came
  | loginFresh came allowed missing => cases out <;> cases came
  | loginEvicts came allowed found => cases out <;> cases came
  | sleeps pc less left => cases out; simp at left
  | spliceWaits pc less left unset => cases out; simp at left
  | loginRegisters pc done is => cases out; omega
  | connectWaits pc done is left unset => cases out; omega
  | connectRelays pc done is leaves => cases out; omega
  | kept pc done is => cases out; omega
  | _ => cases out

theorem patienceFalls (reg : Registry σ) (out : TimesOut a) (move : Moves cfg σ a σ' es) :
    patience σ' < patience σ := by
  obtain ⟨i,p,pcs,less,count⟩ := timesOutMoves out move
  have inside : i < σ.count := by
    by_contra beyond
    rw [reg.ahead i (Nat.le_of_not_lt beyond)] at less
    simp [Pc.patience] at less
  unfold patience
  rw [count,pcs]
  refine Finset.sum_lt_sum (fun j _ => ?_) ⟨i,Finset.mem_range.mpr inside,by simpa using less⟩
  by_cases same : j = i
  · subst same; simpa using less.le
  · rw [Function.update_of_ne same]

theorem timesOutEnabled (cfg : Config) (locks : LocksHeld σ) (runs : (σ.pc i).runs = true) :
    ∃ a, TimesOut a ∧ (step cfg σ a).isSome = true := by
  have fails : ∀ {k w n}, (σ.pc k).sending = some (w,n) → ∃ a, TimesOut a ∧ (step cfg σ a).isSome = true := by
    intro k w n sends
    refine ⟨.sendReturn k 0,.write (Int.le_refl 0),?_⟩
    cases pc : σ.pc k <;> simp [pc,Pc.sending] at sends
    simp [step,sendReturn,pc]
  cases pc : σ.pc i with
  | absent => simp [pc,Pc.runs] at runs
  | ended => simp [pc,Pc.runs] at runs
  | recvMessage => exact ⟨.recvMessage i none .zero,.message,by simp [step,pc]⟩
  | loginRecv ver => exact ⟨.recvToken i none .zero,.token,by simp only [step,pc]; rfl⟩
  | connectRecv => exact ⟨.recvToken i none .zero,.token,by simp only [step,pc]; rfl⟩
  | acceptRecv => exact ⟨.recvToken i none .zero,.token,by simp only [step,pc]; rfl⟩
  | rejected ms => exact ⟨.wake i 0,.sleep,by simp [step,wake,pc]⟩
  | acceptWait mt timeout => exact ⟨.wake i 0,.sleep,by simp [step,wake,pc]⟩
  | spliceWait timeout => exact ⟨.wake i 0,.sleep,by simp [step,wake,pc]⟩
  | relay c r => exact ⟨.relayEnd i,.relay,by simp [step,pc]⟩
  | writeSend w sent => exact fails (k := i) (w := w) (n := sent) (by rw [pc]; rfl)
  | writeLock w =>
    cases lock : (σ.session w.target).wlock with
    | none => exact ⟨.lock i,.lock,by simp [step,SessionTask.lock,pc,lock]⟩
    | some k =>
      obtain ⟨w',n,sends,_⟩ := locks w.target k lock
      exact fails sends

theorem stuckDrained (reg : Registry σ) (held : Held σ) (locks : LocksHeld σ)
    (stuck : Stuck (machine cfg) (fun _ a => TimesOut a) σ) : Drained σ := by
  have ended : ∀ i, (σ.pc i).runs = false := by
    intro i
    by_contra runs
    obtain ⟨a,out,enabled⟩ := timesOutEnabled cfg locks (by simpa using runs)
    obtain ⟨⟨σ',es⟩,taken⟩ := Option.isSome_iff_exists.mp enabled
    exact stuck a σ' es out taken
  have dead : ∀ i, (σ.session i).live = false := fun i => (reg.running i).trans (ended i)
  refine ⟨fun i _ => ended i,dead,?_,?_,?_⟩
  · rw [List.eq_nil_iff_forall_not_mem]
    intro i mem
    simpa [dead i] using ((reg.member i).mp mem).1
  · intro fd
    rw [Option.eq_none_iff_forall_ne_some]
    intro c at'
    obtain ⟨i,slot,live,_⟩ := held.held fd c at'
    simp [dead i] at live
  · intro i
    rw [Option.eq_none_iff_forall_ne_some]
    intro k taken
    obtain ⟨w,n,sends,_⟩ := locks i k taken
    simpa [ended k] using sendingRuns (p := σ.pc k) (by simp [sends])

end drain

structure Drains (cfg : Config) (σ : Server) (log : Log Server Event) (n : Nat) (σ' : Server) : Prop where
  bounded : n ≤ 2 * σ.count
  goesOn : ∃ k τ, Path (machine cfg) (fun _ a => TimesOut a) σ' k τ ∧
    Stuck (machine cfg) (fun _ a => TimesOut a) τ
  settles : Stuck (machine cfg) (fun _ a => TimesOut a) σ' → Drained σ' ∧
    ∃ more, Run (machine cfg) (fun _ _ => True) σ' (log ++ more) ∧
      ∀ c < σ'.count, closings c (log ++ more) = 1

theorem patienceBound (σ : Server) : patience σ ≤ 2 * σ.count := by
  have each : ∀ i ∈ Finset.range σ.count, (σ.pc i).patience ≤ 2 := by
    intro i _
    cases σ.pc i <;> simp [Pc.patience]
  simpa [patience,Nat.mul_comm] using Finset.sum_le_sum each

/- When all peers have gone quiet, the results that need no peer are enough: in any
order they come, every task has closed its session after at most two of them, and
then nothing is registered, open or locked and each connection was closed once. -/
theorem serverDrains (cfg : Config) (σ : Server) (log : Log Server Event)
    (run : Run (machine cfg) (fun _ _ => True) σ log) (n : Nat) (σ' : Server)
    (quiet : Path (machine cfg) (fun _ a => TimesOut a) σ n σ') : Drains cfg σ log n σ' := by
  have falls : ∀ {σ a σ' es}, Registry σ → TimesOut a → (machine cfg).step σ a = some (σ',es) →
      Registry σ' ∧ patience σ' < patience σ := fun reg out taken =>
    ⟨registryMoves reg (stepMoves taken),patienceFalls reg out (stepMoves taken)⟩
  obtain ⟨reg,bound⟩ := pathBounded falls (registryRun run) quiet
  refine ⟨by have := patienceBound σ; omega,pathStuck falls reg,fun stuck => ?_⟩
  obtain ⟨more,later⟩ := runPath run (fun _ _ _ => trivial) quiet
  have drained := stuckDrained (registryRun later) (heldRun later) (locksRun later) stuck
  refine ⟨drained,more,later,fun c below => (shutRun later).shut c below ?_⟩
  rintro ⟨fd,at'⟩
  simp [drained.closed fd] at at'

theorem serverDrainsThree : ∃ σ log n σ', Run (machine (plainConfig 120 none)) (fun _ _ => True) σ log ∧
    σ.pc 0 = .recvMessage ∧ (σ.pc 1).sending.isSome ∧ (σ.session 0).wlock = some 1 ∧
    (σ.pc 2).write.isSome ∧
    Path (machine (plainConfig 120 none)) (fun _ a => TimesOut a) σ n σ' ∧ Drained σ' := by
  obtain ⟨σ,log,run,shows⟩ := replayReaches (machine (plainConfig 120 none)) (fun _ _ => True)
    (loginActions 0 5 2 (tokenOf 7) ++ connectActions 1 6 (tokenOf 7) .zero ++ [.lock 1] ++
      connectActions 2 7 (tokenOf 7) .zero)
    (fun r => r.1.pc 0 = .recvMessage ∧ (r.1.pc 1).sending.isSome ∧ (r.1.session 0).wlock = some 1 ∧
      (r.1.pc 2).write.isSome) (by decide)
  obtain ⟨waits,sends,locked,queued⟩ := of_decide_eq_true shows
  obtain ⟨n,σ',path,stuck⟩ := (serverDrains (plainConfig 120 none) σ log run 0 σ (.done σ)).goesOn
  have drained := ((serverDrains (plainConfig 120 none) σ log run n σ' path).settles stuck).1
  exact ⟨σ,log,n,σ',run,waits,sends,locked,queued,path,drained⟩

end HevFsh.SessionTask
