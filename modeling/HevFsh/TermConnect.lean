import HevFsh.TaskIoSplice

/-! The terminal side of a session: hev_task_io_us_splice from the socket to the
standard output and from the standard input to the socket, with a yielder that
looks for the peer's close. -/
namespace HevFsh.TermConnect
open Transitions BoundedQueue TaskIoSplice

structure Peek where
  recv : Int
  io : Int
  deriving DecidableEq, Repr

def termConnectYielder (type : YieldType) (y : Peek) : Int :=
  if type = .waitio then
    if y.recv = 0 then -1 else y.io
  else y.io

section closing
variable {size : Nat} {r : Relay size} {log : Log (Relay size) (Event Peek)}

def PeerClosed (log : Log (Relay size) (Event Peek)) : Prop :=
  ∃ before r₁ y, log = before ++ [(r₁,.yielded .waitio y)] ∧ y.recv = 0

def Delivered (log : Log (Relay size) (Event Peek)) : Prop :=
  writtenBytes (history .forward log) = readBytes (history .forward log)

theorem yieldedFrom {yielder : YieldType → Peek → Int} {before : Log (Relay size) (Event Peek)} {r₁ : Relay size}
    {type : YieldType} {y : Peek} (run : Run (relay size yielder) (fun _ _ => True) r log)
    (last : log = before ++ [(r₁,.yielded type y)]) :
    Run (relay size yielder) (fun _ _ => True) r₁ before ∧ r₁.pc = .yielding type := by
  obtain ⟨pre,a,r₂,es₁,es₂,run',-,taken,left,-⟩ := runAt run last
  have moves := TaskIoSplice.stepMoves taken
  have mem : Event.yielded type y ∈ es₁ ++ .yielded type y :: es₂ := by simp
  generalize shape : es₁ ++ .yielded type y :: es₂ = es at moves mem
  cases moves with
  | skips here ended => contradiction
  | reads here going half => simp at mem
  | writes here half => simp at mem
  | @yields type' y' here =>
    cases List.mem_singleton.mp mem
    have first : es₁ = [] := by
      have size := congrArg List.length shape
      simp at size
      exact List.eq_nil_of_length_eq_zero (by omega)
    rw [first,List.map_nil,List.append_nil] at left
    exact ⟨left ▸ run',here⟩

theorem waitingDelivered {h : List Io} {sp : Splicer size} (carried : Carried sp false h)
    (code : sp.res = -1 ∨ sp.res = 0) (clean : .writeFailed ∉ h) :
    writtenBytes h = readBytes h ↔ lastOf isWrite h ≠ some .writeAgain := by
  rw [carried.conserved,List.self_eq_append_right]
  constructor
  · intro empty stuck
    exact carried.stuck stuck empty
  · intro free
    cases code with
    | inl ended => exact (carried.drained rfl (by rw [ended]; decide)).resolve_left clean
    | inr waits => exact Classical.byContradiction (fun some' => free (carried.waits rfl waits some'))

theorem outputDelivered (size : Nat) {r : Relay size} {log : Log (Relay size) (Event Peek)}
    (run : Run (relay size termConnectYielder) (fun _ _ => True) r log) (closed : PeerClosed log)
    (clean : .writeFailed ∉ history .forward log) :
    Delivered log ↔ lastOf isWrite (history .forward log) ≠ some .writeAgain := by
  obtain ⟨before,r₁,y,last,-⟩ := closed
  obtain ⟨run',here⟩ := yieldedFrom run last
  have inv := TaskIoSplice.runInv run'
  have same : history .forward log = history .forward before := by
    rw [last]
    simp [history]
  have carried : Carried r₁.f false (history .forward log) := by
    have carried := inv.carries .forward
    rw [here] at carried
    rw [same]
    exact carried
  exact waitingDelivered carried (yieldTypeWaits (inv.carries .forward).code (inv.carries .backward).code
    (inv.typed _ here)) clean

def slowTerminal : List (Action Peek) :=
  [.readv (.returned [97]),.writev (.failed true),.readv (.failed true),.writev (.failed true),.yielder ⟨0,0⟩]

theorem lastOutputLost : ¬ ∀ (r : Relay 8192) (log : Log (Relay 8192) (Event Peek)),
    Run (relay 8192 termConnectYielder) (fun _ _ => True) r log → PeerClosed log →
      .writeFailed ∉ history .forward log → Delivered log := by
  intro always
  obtain ⟨r,log,run,shows⟩ := replayReaches (relay 8192 termConnectYielder) (fun _ _ => True) slowTerminal
    (fun x => decide (history .forward x.2 = [.splice,.read [97],.writeAgain] ∧
      x.2[5]?.map Prod.snd = some (Event.yielded YieldType.waitio (⟨0,0⟩ : Peek)) ∧ x.2.length = 6)) (by decide)
  obtain ⟨forward,asked,size⟩ := of_decide_eq_true shows
  obtain ⟨r₁,split⟩ := cutAt asked
  rw [List.drop_of_length_le (by omega)] at split
  have delivered := always r log run ⟨_,r₁,_,split,rfl⟩ (by simp [forward])
  rw [Delivered,forward] at delivered
  simp [readBytes,writtenBytes] at delivered

def fastTerminal : List (Action Peek) :=
  [.readv (.returned [97]),.writev (.returned 1),.readv (.failed true),.writev (.failed true),.yielder ⟨1,0⟩,
    .readv (.failed true),.writev (.failed true),.readv (.failed true),.writev (.failed true),.yielder ⟨0,0⟩]

theorem outputDeliveredFast : ∃ (r : Relay 8192) (log : Log (Relay 8192) (Event Peek)),
    Run (relay 8192 termConnectYielder) (fun _ _ => True) r log ∧ PeerClosed log ∧
      .writeFailed ∉ history .forward log ∧ Delivered log := by
  obtain ⟨r,log,run,shows⟩ := replayReaches (relay 8192 termConnectYielder) (fun _ _ => True) fastTerminal
    (fun x => decide (history .forward x.2 = [.splice,.read [97],.wrote [97],.splice,.readAgain] ∧
      x.2[10]?.map Prod.snd = some (Event.yielded YieldType.waitio (⟨0,0⟩ : Peek)) ∧ x.2.length = 11)) (by decide)
  obtain ⟨forward,asked,size⟩ := of_decide_eq_true shows
  obtain ⟨r₁,split⟩ := cutAt asked
  rw [List.drop_of_length_le (by omega)] at split
  have closed : PeerClosed log := ⟨_,r₁,_,split,rfl⟩
  have clean : .writeFailed ∉ history .forward log := by simp [forward]
  refine ⟨r,log,run,closed,clean,(outputDelivered 8192 run closed clean).mpr ?_⟩
  rw [forward]
  decide

end closing

end HevFsh.TermConnect
