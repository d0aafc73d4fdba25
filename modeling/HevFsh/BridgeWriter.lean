import HevFsh.Transitions
import Mathlib.Data.List.Basic
import Mathlib.Data.List.Infix

/-! hev_bridge_writer of hev-bridge.c. What recv returns and how much WriteFile takes is up
to the environment; the log keeps what was received and what was passed on. -/
namespace HevFsh.BridgeWriter
open Transitions

abbrev Bytes := List UInt8

def lineFeed : UInt8 := 10

def carriageReturn : UInt8 := 13

inductive Pc where
  | receiving
  | writing
  | ended
  | failed
  deriving DecidableEq, Repr

structure Writer where
  pc : Pc
  buf : Bytes
  off : Nat
  last : UInt8
  deriving DecidableEq, Repr

inductive Outcome where
  | recv (chunk : Bytes)
  | write (ok : Bool) (s : Nat)
  deriving DecidableEq, Repr

inductive Io where
  | received (chunk : Bytes)
  | passed (bytes : Bytes)
  deriving DecidableEq, Repr

def translate (last : UInt8) : Bytes → Bytes × UInt8
  | [] => ([],last)
  | c::cs =>
      let (buf,last') := translate c cs
      ((if c = lineFeed ∧ last ≠ carriageReturn then carriageReturn else c) :: buf,last')

def bufSize : Nat := 8192

def step (lf2cr : Bool) (self : Writer) (outcome : Outcome) : Option (Writer × List Io) :=
  match self.pc,outcome with
  | .receiving,.recv chunk =>
      if bufSize < chunk.length then none
      else if chunk = [] then some ({ self with pc := .ended },[])
      else if lf2cr then
        let (buf,last) := translate self.last chunk
        some (⟨.writing,buf,0,last⟩,[.received chunk])
      else some ({ self with pc := .writing, buf := chunk, off := 0 },[.received chunk])
  | .writing,.write ok s =>
      let wrote := Io.passed ((self.buf.drop self.off).take s)
      if self.buf.length - self.off < s then none
      -- what a failing call has taken is out as well
      else if ¬ ok ∨ s = 0 then some ({ self with pc := .failed },[wrote])
      else if self.off + s < self.buf.length then some ({ self with off := self.off + s },[wrote])
      else some ({ self with pc := .receiving, off := self.off + s },[wrote])
  | _,_ => none

def writer (lf2cr : Bool) : Machine Writer Outcome Io := ⟨⟨.receiving,[],0,0⟩,step lf2cr⟩

def received (log : Log Writer Io) : Bytes :=
  log.flatMap (fun e => match e.2 with
    | .received chunk => chunk
    | .passed _ => [])

def passed (log : Log Writer Io) : Bytes :=
  log.flatMap (fun e => match e.2 with
    | .received _ => []
    | .passed bytes => bytes)

def expected (lf2cr : Bool) (input : Bytes) : Bytes :=
  if lf2cr then
    input.mapIdx (fun i c =>
      if c = lineFeed ∧ ¬ (0 < i ∧ input[i - 1]? = some carriageReturn) then carriageReturn else c)
  else input

section stream
variable {a b : Bytes} {last : UInt8}

theorem translateLength : (translate last b).1.length = b.length := by
  induction b generalizing last with
  | nil => rfl
  | cons c b ih => simp only [translate,List.length_cons,ih]

theorem translateLast : (translate last b).2 = b.getLast?.getD last := by
  induction b generalizing last with
  | nil => rfl
  | cons c b ih =>
    simp only [translate,ih]
    cases b with
    | nil => rfl
    | cons d b =>
      rw [List.getLast?_cons_cons]
      cases more : (d::b).getLast? with
      | none => simp at more
      | some x => rfl

theorem translateGet {i : Nat} : (translate last b).1[i]? = b[i]?.map (fun c =>
    if c = lineFeed ∧ (if i = 0 then last else b.getD (i - 1) 0) ≠ carriageReturn then carriageReturn else c) := by
  induction b generalizing last i with
  | nil => rfl
  | cons c b ih =>
    simp only [translate]
    cases i with
    | zero => simp
    | succ i =>
      rw [List.getElem?_cons_succ,List.getElem?_cons_succ,ih]
      cases i with
      | zero => simp
      | succ i => simp

theorem carriedReturn {o : Option UInt8} : o.getD 0 = carriageReturn ↔ o = some carriageReturn := by
  cases o with
  | none => simp [carriageReturn]
  | some x => simp

theorem beforeAppend {k : Nat} : (0 < a.length + k ∧ (a ++ b)[a.length + k - 1]? = some carriageReturn) ↔
    (if k = 0 then a.getLast?.getD 0 else b.getD (k - 1) 0) = carriageReturn := by
  cases k with
  | zero =>
    rw [if_pos rfl,carriedReturn,List.getLast?_eq_getElem?]
    cases a with
    | nil => simp
    | cons c a => rw [List.getElem?_append_left (by simp)]; simp
  | succ k =>
    rw [if_neg (Nat.succ_ne_zero k),List.getD_eq_getElem?_getD,carriedReturn,
      show a.length + (k + 1) - 1 = a.length + k from rfl,
      List.getElem?_append_right (Nat.le_add_right _ _),Nat.add_sub_cancel_left]
    exact and_iff_right (by omega)

theorem expectedAppend :
    expected true (a ++ b) = expected true a ++ (translate (a.getLast?.getD 0) b).1 := by
  apply List.ext_getElem?
  intro i
  have size : (expected true a).length = a.length := by simp [expected]
  by_cases inside : i < a.length
  · rw [List.getElem?_append_left (by rwa [size])]
    have before : (a ++ b)[i - 1]? = a[i - 1]? := List.getElem?_append_left (by omega)
    simp only [expected,if_true,List.getElem?_mapIdx,List.getElem?_append_left inside,before]
  · obtain ⟨k,rfl⟩ := Nat.exists_eq_add_of_le (Nat.not_lt.mp inside)
    rw [List.getElem?_append_right (by rw [size]; omega),size,Nat.add_sub_cancel_left,translateGet]
    simp only [expected,if_true,List.getElem?_mapIdx,List.getElem?_append_right (Nat.le_add_right _ _),
      Nat.add_sub_cancel_left]
    congr 1
    funext c
    exact if_congr (and_congr_right fun _ => not_congr beforeAppend) rfl rfl

end stream

section runs
variable {lf2cr : Bool} {s s' : Writer} {log : Log Writer Io} {es : List Io}

inductive Moves (lf2cr : Bool) (s : Writer) : Writer → List Io → Prop where
  | receives (chunk buf : Bytes) (last : UInt8) (here : s.pc = .receiving) (some' : chunk ≠ [])
      (translated : (buf,last) = if lf2cr then translate s.last chunk else (chunk,s.last)) :
      Moves lf2cr s ⟨.writing,buf,0,last⟩ [.received chunk]
  | ends (here : s.pc = .receiving) : Moves lf2cr s { s with pc := .ended } []
  | fails (n : Nat) (here : s.pc = .writing) :
      Moves lf2cr s { s with pc := .failed } [.passed ((s.buf.drop s.off).take n)]
  | writes (n : Nat) (here : s.pc = .writing) (short : s.off + n < s.buf.length) :
      Moves lf2cr s ⟨.writing,s.buf,s.off + n,s.last⟩ [.passed ((s.buf.drop s.off).take n)]
  | completes (n : Nat) (here : s.pc = .writing) (all : s.buf.length ≤ s.off + n) :
      Moves lf2cr s { s with pc := .receiving, off := s.off + n } [.passed ((s.buf.drop s.off).take n)]

theorem stepMoves {outcome : Outcome} (taken : step lf2cr s outcome = some (s',es)) :
    Moves lf2cr s s' es := by
  cases outcome with
  | recv chunk =>
    cases here : s.pc <;> simp only [step,here,reduceCtorEq] at taken
    split at taken <;> try contradiction
    split at taken
    · cases taken; exact .ends here
    · rename_i some'
      cases lf2cr with
      | true => cases taken; exact .receives chunk _ _ here some' rfl
      | false => cases taken; exact .receives chunk _ _ here some' rfl
  | write ok n =>
    cases here : s.pc <;> simp only [step,here,reduceCtorEq] at taken
    split at taken <;> try contradiction
    split at taken
    · cases taken; exact .fails n here
    · split at taken
      · rename_i short
        cases taken
        exact .writes n here short
      · rename_i all
        cases taken
        exact .completes n here (Nat.not_lt.mp all)

structure Passing (lf2cr : Bool) (s : Writer) (log : Log Writer Io) : Prop where
  carried : lf2cr → s.last = (received log).getLast?.getD 0
  even : s.pc = .receiving ∨ s.pc = .ended → passed log = expected lf2cr (received log)
  rest : s.pc = .writing → ∃ before, expected lf2cr (received log) = before ++ s.buf ∧
    passed log = before ++ s.buf.take s.off ∧ s.off < s.buf.length
  cut : s.pc = .failed → passed log <+: expected lf2cr (received log)

theorem receivedReceived {chunk : Bytes} : received (log ++ [(s,.received chunk)]) = received log ++ chunk := by
  simp [received]

theorem receivedPassed {bytes : Bytes} : received (log ++ [(s,.passed bytes)]) = received log := by
  simp [received]

theorem passedReceived {chunk : Bytes} : passed (log ++ [(s,.received chunk)]) = passed log := by
  simp [passed]

theorem passedPassed {bytes : Bytes} : passed (log ++ [(s,.passed bytes)]) = passed log ++ bytes := by
  simp [passed]

theorem expectedNext {input : Bytes} (chunk : Bytes) (carried : lf2cr → s.last = input.getLast?.getD 0) :
    expected lf2cr (input ++ chunk) =
      expected lf2cr input ++ (if lf2cr then translate s.last chunk else (chunk,s.last)).1 := by
  cases lf2cr with
  | false => rfl
  | true => rw [carried rfl]; exact expectedAppend

theorem partPassed {n : Nat} (inv : Passing lf2cr s log) (here : s.pc = .writing) :
    ∃ before, expected lf2cr (received log) = before ++ s.buf ∧
      passed log ++ (s.buf.drop s.off).take n = before ++ s.buf.take (s.off + n) := by
  obtain ⟨before,whole,part,-⟩ := inv.rest here
  refine ⟨before,whole,?_⟩
  rw [part,List.append_assoc,← List.take_add]

theorem movesPassing (moves : Moves lf2cr s s' es) (inv : Passing lf2cr s log) :
    Passing lf2cr s' (log ++ es.map (s,·)) := by
  cases moves with
  | receives chunk buf last here some' translated =>
    have next := expectedNext chunk inv.carried
    rw [← translated] at next
    have size : buf.length = chunk.length := by
      cases lf2cr with
      | false => cases translated; rfl
      | true => rw [show buf = _ from congrArg Prod.fst translated]; exact translateLength
    refine { carried := fun on => ?_, even := nofun, rest := fun _ => ⟨expected lf2cr (received log),
        ?_⟩, cut := nofun }
    · subst on
      rw [List.map_singleton,receivedReceived,List.getLast?_append,
        show last = _ from congrArg Prod.snd translated,if_pos rfl,translateLast,inv.carried rfl]
      cases chunk.getLast? <;> rfl
    · rw [List.map_singleton,receivedReceived,passedReceived,List.take_zero,List.append_nil]
      exact ⟨next,inv.even (.inl here),by rw [size]; exact List.length_pos_of_ne_nil some'⟩
  | ends here =>
    have even := inv.even (.inl here)
    exact { carried := by simpa using inv.carried, even := fun _ => by simpa using even, rest := nofun, cut := nofun }
  | fails n here =>
    obtain ⟨before,whole,part⟩ := partPassed (n := n) inv here
    rw [List.map_singleton]
    refine { carried := ?_, even := nofun, rest := nofun, cut := fun _ => ?_ }
    · rw [receivedPassed]; exact inv.carried
    · rw [receivedPassed,passedPassed,whole,part,List.prefix_append_right_inj]
      exact List.take_prefix _ _
  | writes n here short =>
    obtain ⟨before,whole,part⟩ := partPassed (n := n) inv here
    rw [List.map_singleton]
    refine { carried := ?_, even := nofun, rest := fun _ => ⟨before,?_⟩, cut := nofun }
    · rw [receivedPassed]; exact inv.carried
    · rw [receivedPassed,passedPassed]
      exact ⟨whole,part,short⟩
  | completes n here all =>
    obtain ⟨before,whole,part⟩ := partPassed (n := n) inv here
    rw [List.map_singleton]
    refine { carried := ?_, even := fun _ => ?_, rest := nofun, cut := nofun }
    · rw [receivedPassed]; exact inv.carried
    · rw [receivedPassed,passedPassed,whole,part,List.take_of_length_le all]

theorem runPassing (run : Run (writer lf2cr) (fun _ _ => True) s log) : Passing lf2cr s log := by
  refine runInvariant (P := fun s log => Passing lf2cr s log) ?_ (fun _ _ taken inv =>
      movesPassing (stepMoves taken) inv) run
  refine { carried := fun _ => rfl, even := fun _ => ?_, rest := nofun, cut := nofun }
  cases lf2cr <;> rfl

/- Only a failed write leaves the output short of what was received before it. -/
theorem writerPasses (run : Run (writer lf2cr) (fun _ _ => True) s log) :
    passed log <+: expected lf2cr (received log) ∧
      (s.pc = .receiving ∨ s.pc = .ended → passed log = expected lf2cr (received log)) := by
  have inv := runPassing run
  refine ⟨?_,inv.even⟩
  cases here : s.pc with
  | receiving => rw [inv.even (.inl here)]
  | ended => rw [inv.even (.inr here)]
  | failed => exact inv.cut here
  | writing =>
    obtain ⟨before,whole,part,-⟩ := inv.rest here
    rw [whole,part,List.prefix_append_right_inj]
    exact List.take_prefix _ _

theorem writerPassesCut : ∃ s log, (Run (writer true) (fun _ _ => True) s log ∧
    (s.pc = .ended ∧ received log = [97,13,10,10,10] ∧ passed log = [97,13,10,13,13])) ∧
    passed log <+: expected true (received log) ∧
      (s.pc = .receiving ∨ s.pc = .ended → passed log = expected true (received log)) := by
  obtain ⟨s,log,run,shows⟩ := replayReaches (writer true) (fun _ _ => True)
    [.recv [97,13],.write true 2,.recv [10,10,10],.write true 1,.write true 2,.recv []]
    (fun out => decide (out.1.pc = .ended ∧ received out.2 = [97,13,10,10,10] ∧ passed out.2 = [97,13,10,13,13]))
    (by decide +kernel)
  exact ⟨s,log,⟨run,of_decide_eq_true shows⟩,writerPasses run⟩

end runs

end HevFsh.BridgeWriter
