import HevFsh.BridgeReader
import HevFsh.BridgeWriter

/-! The waits of a terminal session on Windows, once its bridge is up: ReadFile and
WriteFile on the two pipes of the pseudo console, recv and send on the socket pair, the
waiter in WaitForSingleObject and in ClosePseudoConsole, which does not return before the
console has got rid of its output. The two workers are the loops of hev-bridge.c. -/
namespace HevFsh.ConsoleDrain
open Transitions

abbrev Bytes := List UInt8

/- The sizes of the buffers, what the console still draws when it is closed, whether
DuplicateHandle gave the handle that the shell is terminated by, and HEV_BRIDGE_DRAIN. -/
structure Setting where
  outSize : Nat
  inSize : Nat
  sockSize : Nat
  frame : Bytes
  killable : Bool
  drain : Bool
  room : 0 < outSize

/- hev_fsh_client_term_accept_task_entry: in its splice, behind the close of the front,
and behind the end of the shell. -/
inductive Main where
  | splicing | killing | ended
  deriving DecidableEq, Repr

inductive Waiter where
  | waiting | closing | ended
  deriving DecidableEq, Repr

structure Session where
  main : Main
  alive : Bool
  waiter : Waiter
  pending : Bytes
  output : Bytes
  input : Bytes
  toFront : Bytes
  toWorker : Bytes
  reader : BridgeReader.Reader
  writer : BridgeWriter.Writer

inductive Action where
  | shellWrites (bs : Bytes)
  | shellExits
  | consoleWrites (n : Nat)
  | consoleBreaks
  | consoleReads (n : Nat)
  | waiterWakes
  | consoleCloses
  | reader (o : BridgeReader.Outcome)
  | writer (o : BridgeWriter.Outcome)
  | spliceReads (n : Nat)
  | spliceWrites (bs : Bytes)
  | leaves
  | kills
  deriving DecidableEq, Repr

inductive Event where
  | reader (io : BridgeReader.Io)
  | writer (io : BridgeWriter.Io)
  deriving DecidableEq, Repr

def init : Session where
  main := .splicing
  alive := true
  waiter := .waiting
  pending := []
  output := []
  input := []
  toFront := []
  toWorker := []
  reader := ⟨.reading,[],0,false⟩
  writer := ⟨.receiving,[],0,0⟩

def writerOver (σ : Session) : Bool := σ.writer.pc = .ended || σ.writer.pc = .failed

def released (σ : Session) : Bool := σ.reader.pc.over && writerOver σ

/- A read waits for output; it fails when the console is closed and all has been read. A
send waits for room, also when nobody is there to make any. -/
def readable (k : Setting) (σ : Session) : BridgeReader.Outcome → Option Session
  | .read ok chunk =>
      if ok = true ∧ chunk ≠ [] then
        if chunk <+: σ.output then some {σ with output := σ.output.drop chunk.length} else none
      else if σ.waiter = .ended ∧ σ.output = [] then some σ
      else none
  | .send s =>
      if s ≤ 0 then some σ
      else if σ.toFront.length + s.toNat ≤ k.sockSize then
        some {σ with toFront := σ.toFront ++ (σ.reader.buf.drop σ.reader.off).take s.toNat}
      else none

def writable (k : Setting) (σ : Session) : BridgeWriter.Outcome → Option Session
  | .recv chunk =>
      if chunk <+: σ.toWorker then some {σ with toWorker := σ.toWorker.drop chunk.length} else none
  | .write _ s =>
      if s = 0 then some σ
      else if σ.waiter ≠ .ended ∧ σ.input.length + s ≤ k.inSize then
        some {σ with input := σ.input ++ (σ.writer.buf.drop σ.writer.off).take s}
      else none

def step (k : Setting) (σ : Session) : Action → Option (Session × List Event)
  | .shellWrites bs =>
      if σ.alive = true ∧ bs ≠ [] then some ({σ with pending := σ.pending ++ bs},[]) else none
  | .shellExits => if σ.alive = true then some ({σ with alive := false},[]) else none
  | .consoleWrites n =>
      if σ.waiter ≠ .ended ∧ released σ = false ∧ 0 < n ∧ n ≤ σ.pending.length ∧
          σ.output.length + n ≤ k.outSize then
        some ({σ with pending := σ.pending.drop n, output := σ.output ++ σ.pending.take n},[])
      else none
  | .consoleBreaks =>
      if σ.waiter ≠ .ended ∧ released σ = true ∧ σ.pending ≠ [] then some ({σ with pending := []},[])
      else none
  | .consoleReads n =>
      if σ.waiter ≠ .ended ∧ 0 < n ∧ n ≤ σ.input.length then some ({σ with input := σ.input.drop n},[])
      else none
  | .waiterWakes =>
      if σ.waiter = .waiting ∧ σ.alive = false then
        some ({σ with waiter := .closing, pending := σ.pending ++ k.frame},[])
      else none
  | .consoleCloses =>
      if σ.waiter = .closing ∧ σ.pending = [] then some ({σ with waiter := .ended},[]) else none
  | .reader o => do
      let τ ← readable k σ o
      let r ← BridgeReader.step k.drain σ.reader o
      some ({τ with reader := r.1},r.2.map .reader)
  | .writer o => do
      let τ ← writable k σ o
      let w ← BridgeWriter.step true σ.writer o
      some ({τ with writer := w.1},w.2.map .writer)
  | .spliceReads n =>
      if σ.main = .splicing ∧ 0 < n ∧ n ≤ σ.toFront.length then
        some ({σ with toFront := σ.toFront.drop n},[])
      else none
  | .spliceWrites bs =>
      if σ.main = .splicing ∧ writerOver σ = false ∧ bs ≠ [] ∧
          σ.toWorker.length + bs.length ≤ k.sockSize then
        some ({σ with toWorker := σ.toWorker ++ bs},[])
      else none
  | .leaves => if σ.main = .splicing then some ({σ with main := .killing},[]) else none
  | .kills =>
      if σ.main = .killing then some ({σ with main := .ended, alive := σ.alive && !k.killable},[])
      else none

def machine (k : Setting) : Machine Session Action Event := ⟨init,step k⟩

def Action.quiet : Action → Bool
  | .shellWrites _ => false
  | _ => true

inductive Due (σ : Session) : Action → Prop where
  | consoleWrites {n} : Due σ (.consoleWrites n)
  | consoleBreaks : Due σ .consoleBreaks
  | waiterWakes : Due σ .waiterWakes
  | consoleCloses : Due σ .consoleCloses
  | kills : Due σ .kills
  | reads {ok chunk} : Due σ (.reader (.read ok chunk))
  | sends {s} (some' : 0 < s) : Due σ (.reader (.send s))
  | sendFails {s} (closed : σ.main ≠ .splicing) : Due σ (.reader (.send s))
  | receives {chunk} (some' : chunk ≠ []) : Due σ (.writer (.recv chunk))
  | receivesEnd (closed : σ.main ≠ .splicing) (empty : σ.toWorker = []) : Due σ (.writer (.recv []))
  | writes {s} (some' : 0 < s) : Due σ (.writer (.write true s))
  | writeFails {ok s} (closed : σ.waiter = .ended) : Due σ (.writer (.write ok s))

structure AtRest (σ : Session) : Prop where
  main : σ.main = .ended
  shell : σ.alive = false
  waiter : σ.waiter = .ended
  reader : σ.reader.pc = .ended
  writer : writerOver σ = true
  shown : σ.pending = [] ∧ σ.output = []

section steps
variable {k : Setting} {σ σ' : Session} {a : Action} {es : List Event}

inductive Moves (k : Setting) (σ : Session) : Action → Session → Prop where
  | shellWrites {bs} (alive : σ.alive = true) : Moves k σ (.shellWrites bs) {σ with pending := σ.pending ++ bs}
  | shellExits (alive : σ.alive = true) : Moves k σ .shellExits {σ with alive := false}
  | consoleWrites {n} (open' : σ.waiter ≠ .ended) (positive : 0 < n) (inside : n ≤ σ.pending.length) :
      Moves k σ (.consoleWrites n)
        {σ with pending := σ.pending.drop n, output := σ.output ++ σ.pending.take n}
  | consoleBreaks (some' : σ.pending ≠ []) : Moves k σ .consoleBreaks {σ with pending := []}
  | consoleReads {n} (positive : 0 < n) (inside : n ≤ σ.input.length) :
      Moves k σ (.consoleReads n) {σ with input := σ.input.drop n}
  | waiterWakes (waiting : σ.waiter = .waiting) (dead : σ.alive = false) :
      Moves k σ .waiterWakes {σ with waiter := .closing, pending := σ.pending ++ k.frame}
  | consoleCloses (closing : σ.waiter = .closing) (none' : σ.pending = []) :
      Moves k σ .consoleCloses {σ with waiter := .ended}
  | reader {o τ r ios} (given : readable k σ o = some τ)
      (stepped : BridgeReader.step k.drain σ.reader o = some (r,ios)) : Moves k σ (.reader o) {τ with reader := r}
  | writer {o τ w ios} (given : writable k σ o = some τ)
      (stepped : BridgeWriter.step true σ.writer o = some (w,ios)) : Moves k σ (.writer o) {τ with writer := w}
  | spliceReads {n} (splicing : σ.main = .splicing) :
      Moves k σ (.spliceReads n) {σ with toFront := σ.toFront.drop n}
  | spliceWrites {bs} (splicing : σ.main = .splicing) :
      Moves k σ (.spliceWrites bs) {σ with toWorker := σ.toWorker ++ bs}
  | leaves (splicing : σ.main = .splicing) : Moves k σ .leaves {σ with main := .killing}
  | kills (killing : σ.main = .killing) :
      Moves k σ .kills {σ with main := .ended, alive := σ.alive && !k.killable}

theorem readerTaken {o} (taken : step k σ (.reader o) = some (σ',es)) : ∃ τ r ios, readable k σ o = some τ ∧
    BridgeReader.step k.drain σ.reader o = some (r,ios) ∧ σ' = {τ with reader := r} ∧ es = ios.map .reader := by
  obtain ⟨τ,given,rest⟩ := Option.bind_eq_some_iff.mp taken
  obtain ⟨⟨r,ios⟩,stepped,last⟩ := Option.bind_eq_some_iff.mp rest
  cases Option.some.inj last
  exact ⟨τ,r,ios,given,stepped,rfl,rfl⟩

theorem writerTaken {o} (taken : step k σ (.writer o) = some (σ',es)) : ∃ τ w ios, writable k σ o = some τ ∧
    BridgeWriter.step true σ.writer o = some (w,ios) ∧ σ' = {τ with writer := w} ∧ es = ios.map .writer := by
  obtain ⟨τ,given,rest⟩ := Option.bind_eq_some_iff.mp taken
  obtain ⟨⟨w,ios⟩,stepped,last⟩ := Option.bind_eq_some_iff.mp rest
  cases Option.some.inj last
  exact ⟨τ,w,ios,given,stepped,rfl,rfl⟩

theorem stepMoves (taken : step k σ a = some (σ',es)) : Moves k σ a σ' := by
  cases a with
  | reader o =>
    obtain ⟨τ,r,ios,given,stepped,rfl,rfl⟩ := readerTaken taken
    exact .reader given stepped
  | writer o =>
    obtain ⟨τ,w,ios,given,stepped,rfl,rfl⟩ := writerTaken taken
    exact .writer given stepped
  | shellWrites bs =>
    obtain ⟨can,is⟩ := Option.ite_none_right_eq_some.mp taken
    cases is
    exact .shellWrites can.1
  | shellExits =>
    obtain ⟨alive,is⟩ := Option.ite_none_right_eq_some.mp taken
    cases is
    exact .shellExits alive
  | consoleWrites n =>
    obtain ⟨can,is⟩ := Option.ite_none_right_eq_some.mp taken
    cases is
    exact .consoleWrites can.1 can.2.2.1 can.2.2.2.1
  | consoleBreaks =>
    obtain ⟨can,is⟩ := Option.ite_none_right_eq_some.mp taken
    cases is
    exact .consoleBreaks can.2.2
  | consoleReads n =>
    obtain ⟨can,is⟩ := Option.ite_none_right_eq_some.mp taken
    cases is
    exact .consoleReads can.2.1 can.2.2
  | waiterWakes =>
    obtain ⟨can,is⟩ := Option.ite_none_right_eq_some.mp taken
    cases is
    exact .waiterWakes can.1 can.2
  | consoleCloses =>
    obtain ⟨can,is⟩ := Option.ite_none_right_eq_some.mp taken
    cases is
    exact .consoleCloses can.1 can.2
  | spliceReads n =>
    obtain ⟨can,is⟩ := Option.ite_none_right_eq_some.mp taken
    cases is
    exact .spliceReads can.1
  | spliceWrites bs =>
    obtain ⟨can,is⟩ := Option.ite_none_right_eq_some.mp taken
    cases is
    exact .spliceWrites can.1
  | leaves =>
    obtain ⟨splicing,is⟩ := Option.ite_none_right_eq_some.mp taken
    cases is
    exact .leaves splicing
  | kills =>
    obtain ⟨killing,is⟩ := Option.ite_none_right_eq_some.mp taken
    cases is
    exact .kills killing

theorem readableKeeps {o τ} (given : readable k σ o = some τ) :
    τ.main = σ.main ∧ τ.alive = σ.alive ∧ τ.waiter = σ.waiter ∧ τ.pending = σ.pending ∧
      (σ.output = [] → τ.output = []) := by
  cases o with
  | read ok chunk =>
    simp only [readable] at given
    split at given
    · split at given <;> try contradiction
      cases given
      exact ⟨rfl,rfl,rfl,rfl,fun none' => by simp [none']⟩
    · split at given <;> try contradiction
      cases given
      exact ⟨rfl,rfl,rfl,rfl,id⟩
  | send s =>
    simp only [readable] at given
    split at given
    · cases given
      exact ⟨rfl,rfl,rfl,rfl,id⟩
    · split at given <;> try contradiction
      cases given
      exact ⟨rfl,rfl,rfl,rfl,id⟩

theorem writableKeeps {o τ} (given : writable k σ o = some τ) :
    τ.main = σ.main ∧ τ.alive = σ.alive ∧ τ.waiter = σ.waiter ∧ τ.pending = σ.pending ∧
      τ.output = σ.output ∧ τ.reader = σ.reader := by
  cases o with
  | recv chunk =>
    simp only [writable] at given
    split at given <;> try contradiction
    cases given
    exact ⟨rfl,rfl,rfl,rfl,rfl,rfl⟩
  | write ok s =>
    simp only [writable] at given
    split at given
    · cases given
      exact ⟨rfl,rfl,rfl,rfl,rfl,rfl⟩
    · split at given <;> try contradiction
      cases given
      exact ⟨rfl,rfl,rfl,rfl,rfl,rfl⟩

end steps

section work

def readerWork (r : BridgeReader.Reader) : Nat := match r.pc with
  | .reading => 1
  | .sending => r.buf.length - r.off + 2
  | .ended | .left => 0

def writerWork (w : BridgeWriter.Writer) : Nat := match w.pc with
  | .receiving => 1
  | .writing => 2 * (w.buf.length - w.off) + 2
  | .ended | .failed => 0

def Main.work : Main → Nat
  | .splicing => 2
  | .killing => 1
  | .ended => 0

def Waiter.work (k : Setting) : Waiter → Nat
  | .waiting => 4 * k.frame.length + 2
  | .closing => 1
  | .ended => 0

def work (k : Setting) (σ : Session) : Nat :=
  σ.main.work + σ.alive.toNat + σ.waiter.work k + 4 * σ.pending.length + 3 * σ.output.length +
    σ.input.length + 4 * σ.toWorker.length + readerWork σ.reader + writerWork σ.writer

variable {k : Setting} {σ σ' : Session} {a : Action} {es : List Event}

theorem readWork {drain ok chunk} {r r' : BridgeReader.Reader} {ios}
    (taken : BridgeReader.step drain r (.read ok chunk) = some (r',ios)) :
    readerWork r = 1 ∧ readerWork r' ≤ chunk.length + 2 ∧
      (¬ (ok = true ∧ chunk ≠ []) → readerWork r' = 0) := by
  cases here : r.pc <;> simp only [BridgeReader.step,here,reduceCtorEq] at taken
  refine ⟨by simp [readerWork,here],?_⟩
  split at taken <;> try contradiction
  split at taken
  · cases taken
    exact ⟨by simp [readerWork],fun _ => rfl⟩
  · rename_i more
    have some' : ok = true ∧ chunk ≠ [] := by simpa using more
    split at taken
    · cases taken
      exact ⟨by simp [readerWork],fun none' => absurd some' none'⟩
    · cases taken
      exact ⟨by simp [readerWork],fun none' => absurd some' none'⟩

theorem sendWork {drain s} {r r' : BridgeReader.Reader} {ios}
    (taken : BridgeReader.step drain r (.send s) = some (r',ios)) : readerWork r' < readerWork r := by
  cases here : r.pc <;> simp only [BridgeReader.step,here,reduceCtorEq] at taken
  split at taken <;> try contradiction
  split at taken
  · cases taken
    simp only [readerWork,here]
    split <;> simp_all
    omega
  · split at taken <;> cases taken <;> simp [readerWork,here]

theorem recvWork {chunk} {w w' : BridgeWriter.Writer} {ios}
    (taken : BridgeWriter.step true w (.recv chunk) = some (w',ios)) :
    writerWork w = 1 ∧ (chunk = [] → writerWork w' = 0) ∧ writerWork w' ≤ 2 * chunk.length + 2 := by
  cases here : w.pc <;> simp only [BridgeWriter.step,here,reduceCtorEq] at taken
  refine ⟨by simp [writerWork,here],?_⟩
  split at taken <;> try contradiction
  split at taken
  · cases taken
    exact ⟨fun _ => rfl,by simp [writerWork]⟩
  · rename_i some'
    simp only [if_true] at taken
    cases taken
    exact ⟨fun none' => absurd none' some',by simp [writerWork,BridgeWriter.translateLength]⟩

theorem writeWork {ok s} {w w' : BridgeWriter.Writer} {ios}
    (taken : BridgeWriter.step true w (.write ok s) = some (w',ios)) : writerWork w' + s < writerWork w := by
  cases here : w.pc <;> simp only [BridgeWriter.step,here,reduceCtorEq] at taken
  split at taken <;> try contradiction
  split at taken
  · cases taken
    simp only [writerWork,here]
    omega
  · split at taken <;> cases taken <;> simp only [writerWork,here] <;> simp_all <;> omega

theorem readerShrinks {o τ r ios} (given : readable k σ o = some τ)
    (stepped : BridgeReader.step k.drain σ.reader o = some (r,ios)) :
    work k {τ with reader := r} < work k σ := by
  cases o with
  | read ok chunk =>
    obtain ⟨before,after,none'⟩ := readWork stepped
    simp only [readable] at given
    split at given
    · rename_i some'
      split at given <;> try contradiction
      rename_i front
      cases given
      have positive := List.length_pos_of_ne_nil some'.2
      have inside := front.length_le
      simp only [work,List.length_drop]
      omega
    · rename_i finished
      split at given <;> try contradiction
      cases given
      have nothing := none' finished
      simp only [work]
      omega
  | send s =>
    have less := sendWork stepped
    simp only [readable] at given
    split at given
    · cases given
      simp only [work]
      omega
    · split at given <;> try contradiction
      cases given
      simp only [work]
      omega

theorem writerShrinks {o τ w ios} (given : writable k σ o = some τ)
    (stepped : BridgeWriter.step true σ.writer o = some (w,ios)) :
    work k {τ with writer := w} < work k σ := by
  cases o with
  | recv chunk =>
    obtain ⟨before,none',after⟩ := recvWork stepped
    simp only [writable] at given
    split at given <;> try contradiction
    rename_i front
    cases given
    have inside := front.length_le
    simp only [work,List.length_drop]
    cases chunk with
    | nil =>
      have nothing := none' rfl
      simp only [List.length_nil] at inside ⊢
      omega
    | cons c chunk =>
      simp only [List.length_cons] at inside after ⊢
      omega
  | write ok s =>
    have less := writeWork stepped
    simp only [writable] at given
    split at given
    · cases given
      simp only [work]
      omega
    · split at given <;> try contradiction
      cases given
      simp only [work,List.length_append,List.length_take]
      omega

theorem quietShrinks (behind : σ.main ≠ .splicing) (quiet : a.quiet = true) (move : Moves k σ a σ') :
    σ'.main ≠ .splicing ∧ work k σ' < work k σ := by
  cases move with
  | shellWrites alive => contradiction
  | shellExits alive => exact ⟨behind,by simp [work,alive]⟩
  | consoleWrites open' positive inside =>
    refine ⟨behind,?_⟩
    simp only [work,List.length_drop,List.length_append,List.length_take]
    omega
  | consoleBreaks some' =>
    have positive := List.length_pos_of_ne_nil some'
    refine ⟨behind,?_⟩
    simp only [work,List.length_nil]
    omega
  | consoleReads positive inside =>
    refine ⟨behind,?_⟩
    simp only [work,List.length_drop]
    omega
  | waiterWakes waiting dead =>
    refine ⟨behind,?_⟩
    simp only [work,waiting,Waiter.work,List.length_append]
    omega
  | consoleCloses closing none' =>
    refine ⟨behind,?_⟩
    simp only [work,closing,Waiter.work]
    omega
  | reader given stepped => exact ⟨by simpa [(readableKeeps given).1] using behind,readerShrinks given stepped⟩
  | writer given stepped => exact ⟨by simpa [(writableKeeps given).1] using behind,writerShrinks given stepped⟩
  | spliceReads splicing => exact absurd splicing behind
  | spliceWrites splicing => exact absurd splicing behind
  | leaves splicing => exact absurd splicing behind
  | kills killing =>
    have bit : (σ.alive && !k.killable).toNat ≤ σ.alive.toNat := by
      cases σ.alive <;> simp [Bool.toNat_le]
    refine ⟨by simp,?_⟩
    simp only [work,killing,Main.work]
    omega

end work

section runs
variable {k : Setting} {σ σ' : Session} {a : Action} {log : Log Session Event}
  {ok : Session → Action → Prop}

structure Ordered (k : Setting) (σ : Session) : Prop where
  killed : σ.main = .ended → k.killable = true → σ.alive = false
  dead : σ.waiter ≠ .waiting → σ.alive = false
  shown : σ.waiter = .ended → σ.pending = []
  ended : σ.reader.pc = .ended → σ.waiter = .ended ∧ σ.output = []

theorem readEnds {o τ r ios} (given : readable k σ o = some τ)
    (stepped : BridgeReader.step k.drain σ.reader o = some (r,ios)) (ended : r.pc = .ended) :
    σ.waiter = .ended ∧ τ.output = [] := by
  cases o with
  | read ok chunk =>
    obtain ⟨-,-,none'⟩ := readWork stepped
    simp only [readable] at given
    split at given
    · rename_i some'
      cases here : σ.reader.pc <;> simp only [BridgeReader.step,here,reduceCtorEq] at stepped
      split at stepped <;> try contradiction
      rw [if_neg (by simpa using some')] at stepped
      split at stepped <;> cases stepped <;> simp_all
    · split at given <;> try contradiction
      rename_i closed
      cases given
      exact closed
  | send s =>
    cases here : σ.reader.pc <;> simp only [BridgeReader.step,here,reduceCtorEq] at stepped
    split at stepped <;> try contradiction
    split at stepped
    · cases stepped
      revert ended
      simp only
      split <;> simp
    · split at stepped <;> cases stepped <;> simp at ended

theorem orderedMoves (inv : Ordered k σ) (move : Moves k σ a σ') : Ordered k σ' := by
  cases move with
  | shellWrites alive =>
    have waits : σ.waiter = .waiting := by
      by_contra woken
      simp [inv.dead woken] at alive
    exact ⟨inv.killed,inv.dead,fun ended => by simp [waits] at ended,inv.ended⟩
  | shellExits alive => exact ⟨fun _ _ => rfl,fun _ => rfl,inv.shown,inv.ended⟩
  | consoleWrites open' positive inside =>
    refine ⟨inv.killed,inv.dead,fun ended => absurd ended open',fun ended => ?_⟩
    exact absurd (inv.ended ended).1 open'
  | consoleBreaks some' => exact ⟨inv.killed,inv.dead,fun _ => rfl,inv.ended⟩
  | consoleReads positive inside => exact ⟨inv.killed,inv.dead,inv.shown,inv.ended⟩
  | waiterWakes waiting dead =>
    refine ⟨inv.killed,fun _ => dead,fun ended => by simp at ended,fun ended => ?_⟩
    have closed := (inv.ended ended).1
    simp [waiting] at closed
  | consoleCloses closing none' =>
    exact ⟨inv.killed,fun _ => inv.dead (by simp [closing]),fun _ => none',
      fun ended => ⟨rfl,(inv.ended ended).2⟩⟩
  | reader given stepped =>
    obtain ⟨main,alive,waiter,pending,_⟩ := readableKeeps given
    refine ⟨?_,?_,?_,fun ended => ?_⟩
    · simpa [main,alive] using inv.killed
    · simpa [waiter,alive] using inv.dead
    · simpa [waiter,pending] using inv.shown
    · simpa [waiter] using readEnds given stepped ended
  | writer given stepped =>
    obtain ⟨main,alive,waiter,pending,output,reader⟩ := writableKeeps given
    refine ⟨?_,?_,?_,?_⟩
    · simpa [main,alive] using inv.killed
    · simpa [waiter,alive] using inv.dead
    · simpa [waiter,pending] using inv.shown
    · simpa [waiter,output,reader] using inv.ended
  | spliceReads splicing => exact ⟨inv.killed,inv.dead,inv.shown,inv.ended⟩
  | spliceWrites splicing => exact ⟨inv.killed,inv.dead,inv.shown,inv.ended⟩
  | leaves splicing => exact ⟨fun ended => by simp at ended,inv.dead,inv.shown,inv.ended⟩
  | kills killing =>
    refine ⟨fun _ killable => by simp [killable],fun woken => by simp [inv.dead woken],inv.shown,inv.ended⟩

theorem orderedRun (run : Run (machine k) ok σ log) : Ordered k σ := by
  refine runInvariant (P := fun σ _ => Ordered k σ) ?_ ?_ run
  · exact ⟨nofun,fun woken => absurd rfl woken,nofun,nofun⟩
  · intro s log a s' es _ _ taken inv
    exact orderedMoves inv (stepMoves taken)

def Event.readerIo : Event → Option BridgeReader.Io
  | .reader io => some io
  | .writer _ => none

theorem readerRun (run : Run (machine k) ok σ log) : Run (BridgeReader.reader k.drain) (fun _ _ => True) σ.reader
    (log.filterMap (fun e => (e.2.readerIo).map (e.1.reader,·))) := by
  refine runView Session.reader Event.readerIo rfl ?_ run
  intro s a s' es _ taken
  cases a with
  | reader o =>
    obtain ⟨τ,r,ios,given,stepped,rfl,rfl⟩ := readerTaken taken
    have all : (ios.map Event.reader).filterMap Event.readerIo = ios := by
      simp [List.filterMap_map,Function.comp_def,Event.readerIo]
    exact .inr ⟨o,trivial,by rw [all]; exact stepped⟩
  | writer o =>
    obtain ⟨τ,w,ios,given,stepped,rfl,rfl⟩ := writerTaken taken
    have none' : (ios.map Event.writer).filterMap Event.readerIo = [] := by
      simp [List.filterMap_map,Function.comp_def,Event.readerIo]
    exact .inl ⟨(writableKeeps given).2.2.2.2.2,none'⟩
  | _ =>
    simp only [machine,step] at taken
    split at taken <;> try contradiction
    cases taken
    exact .inl ⟨rfl,rfl⟩

theorem oneRead (here : σ.reader.pc = .reading) (some' : σ.output ≠ []) :
    step k σ (.reader (.read true (σ.output.take 1))) ≠ none := by
  have front : σ.output.take 1 <+: σ.output := List.take_prefix 1 σ.output
  have nonempty : σ.output.take 1 ≠ [] := by simpa using some'
  have short : ¬ BridgeReader.bufSize < (σ.output.take 1).length := by
    rw [List.length_take,BridgeReader.bufSize]
    omega
  generalize σ.output.take 1 = chunk at front nonempty short ⊢
  cases drop : σ.reader.drop <;>
    simp [step,readable,BridgeReader.step,here,front,nonempty,short,drop]

theorem lastRead (here : σ.reader.pc = .reading) (closed : σ.waiter = .ended) (none' : σ.output = []) :
    step k σ (.reader (.read false [])) ≠ none := by
  simp [step,readable,BridgeReader.step,here,closed,none']

theorem failedSend (here : σ.reader.pc = .sending) : step k σ (.reader (.send 0)) ≠ none := by
  have short : ¬ ((σ.reader.buf.length - σ.reader.off : Nat) : Int) < 0 := by omega
  cases drain : k.drain <;> simp [step,readable,BridgeReader.step,here,short,drain]

theorem oneReceive (here : σ.writer.pc = .receiving) : step k σ (.writer (.recv (σ.toWorker.take 1))) ≠ none := by
  have front : σ.toWorker.take 1 <+: σ.toWorker := List.take_prefix 1 σ.toWorker
  have short : ¬ BridgeWriter.bufSize < (σ.toWorker.take 1).length := by
    rw [List.length_take,BridgeWriter.bufSize]
    omega
  generalize σ.toWorker.take 1 = chunk at front short ⊢
  by_cases none' : chunk = [] <;>
    simp [step,writable,BridgeWriter.step,here,front,short,none']

theorem failedWrite (here : σ.writer.pc = .writing) : step k σ (.writer (.write false 0)) ≠ none := by
  simp [step,writable,BridgeWriter.step,here]

theorem stuckRests (inv : Ordered k σ) (stays : σ.reader.pc ≠ .left) (behind : σ.main ≠ .splicing)
    (mortal : k.killable = true ∨ σ.alive = false) (stuck : Stuck (machine k) Due σ) : AtRest σ := by
  have never : ∀ a, Due σ a → step k σ a = none := fun a due => stuckNone stuck due
  have main : σ.main = .ended := by
    cases at' : σ.main with
    | splicing => exact absurd at' behind
    | killing =>
      have := never .kills .kills
      simp [step,at'] at this
    | ended => rfl
  have dead : σ.alive = false := mortal.elim (inv.killed main) id
  have unsent : σ.reader.pc ≠ .sending := fun here => failedSend here (never _ (.sendFails behind))
  have drained : σ.reader.pc = .reading → σ.output = [] := by
    intro here
    by_contra some'
    exact oneRead here some' (never _ .reads)
  have waiter : σ.waiter = .ended := by
    cases at' : σ.waiter with
    | waiting =>
      have := never .waiterWakes .waiterWakes
      simp [step,at',dead] at this
    | ended => rfl
    | closing =>
      have reading : σ.reader.pc = .reading := by
        cases here : σ.reader.pc with
        | reading => rfl
        | sending => exact absurd here unsent
        | ended => exact absurd (inv.ended here).1 (by simp [at'])
        | left => exact absurd here stays
      by_cases none' : σ.pending = []
      · have := never .consoleCloses .consoleCloses
        simp [step,at',none'] at this
      · have positive := List.length_pos_of_ne_nil none'
        have := never (.consoleWrites 1) .consoleWrites
        have room := k.room
        have open' : released σ = false := by simp [released,reading,BridgeReader.Pc.over]
        simp [step,at',open',drained reading] at this
        omega
  have reader : σ.reader.pc = .ended := by
    cases here : σ.reader.pc with
    | reading => exact absurd (never _ .reads) (lastRead here waiter (drained here))
    | sending => exact absurd here unsent
    | ended => rfl
    | left => exact absurd here stays
  have writer : writerOver σ = true := by
    cases here : σ.writer.pc with
    | receiving =>
      refine absurd (never _ ?_) (oneReceive here)
      by_cases none' : σ.toWorker = []
      · rw [none']
        exact .receivesEnd behind none'
      · exact .receives (by simpa using none')
    | writing => exact absurd (never _ (.writeFails waiter)) (failedWrite here)
    | ended => simp [writerOver,here]
    | failed => simp [writerOver,here]
  exact ⟨main,dead,waiter,reader,writer,inv.shown waiter,(inv.ended reader).2⟩

/- From a state behind the splice: each continuation in which the shell writes nothing
more is bounded, and what is bound to come brings it to rest. -/
structure Settles (k : Setting) (σ : Session) : Prop where
  bounded : ∀ n σ', Path (machine k) (fun _ a => a.quiet = true) σ n σ' → n ≤ work k σ
  rests : ∀ n σ', Path (machine k) (fun _ a => a.quiet = true) σ n σ' →
    ∃ m τ, Path (machine k) Due σ' m τ ∧ AtRest τ

theorem dueQuiet (due : Due σ a) : a.quiet = true := by
  cases due <;> rfl

theorem mortalKept (mortal : k.killable = true ∨ σ.alive = false) (move : Moves k σ a σ') :
    k.killable = true ∨ σ'.alive = false := by
  refine mortal.imp id (fun dead => ?_)
  cases move with
  | shellWrites alive => exact dead
  | shellExits alive => rfl
  | reader given stepped => exact (readableKeeps given).2.1.trans dead
  | writer given stepped => exact (writableKeeps given).2.1.trans dead
  | kills killing => simp [dead]
  | _ => exact dead

theorem sessionSettles (run : Run (machine k) (fun _ _ => True) σ log) (drain : k.drain = true)
    (behind : σ.main ≠ .splicing) (mortal : k.killable = true ∨ σ.alive = false) : Settles k σ := by
  have shrinks : ∀ {σ a σ' es}, (σ.main ≠ .splicing ∧ (k.killable = true ∨ σ.alive = false)) →
      Action.quiet a = true → (machine k).step σ a = some (σ',es) →
      (σ'.main ≠ .splicing ∧ (k.killable = true ∨ σ'.alive = false)) ∧ work k σ' < work k σ := by
    intro σ a σ' es inv quiet taken
    obtain ⟨behind',less⟩ := quietShrinks inv.1 quiet (stepMoves taken)
    exact ⟨⟨behind',mortalKept inv.2 (stepMoves taken)⟩,less⟩
  refine ⟨fun n σ' path => ?_,fun n σ' path => ?_⟩
  · have bound := (pathBounded shrinks ⟨behind,mortal⟩ path).2
    omega
  · have start := (pathBounded shrinks ⟨behind,mortal⟩ path).1
    obtain ⟨more,run'⟩ := runPath run (fun _ _ _ => trivial) path
    have due : ∀ {σ a σ' es}, (σ.main ≠ .splicing ∧ (k.killable = true ∨ σ.alive = false)) →
        Due σ a → (machine k).step σ a = some (σ',es) →
        (σ'.main ≠ .splicing ∧ (k.killable = true ∨ σ'.alive = false)) ∧ work k σ' < work k σ :=
      fun inv is taken => shrinks inv (dueQuiet is) taken
    obtain ⟨m,τ,path',stuck⟩ := pathStuck due start
    obtain ⟨behind',mortal'⟩ := (pathBounded due start path').1
    obtain ⟨more',run''⟩ := runPath run' (fun _ _ _ => trivial) path'
    have stays := (BridgeReader.runFlow (readerRun run'')).stays drain
    exact ⟨m,τ,path',stuckRests (orderedRun run'') stays behind' mortal' stuck⟩

def narrow (drain : Bool) : Setting := ⟨1,1,8,[],true,drain,Nat.one_pos⟩

def blocked : List Action :=
  [.shellWrites [1,2,3],.consoleWrites 1,.reader (.read true [1]),.spliceWrites [4,5,6],
    .writer (.recv [4,5,6]),.writer (.write true 1),.leaves,.reader (.send 0),.consoleWrites 1,.kills,.waiterWakes]

theorem blockedReached (drain : Bool) : ∃ σ log, Run (machine (narrow drain)) (fun _ _ => True) σ log ∧
    σ.main = .ended ∧ σ.alive = false ∧ σ.waiter = .closing ∧ σ.pending = [3] ∧ σ.output = [2] ∧
    σ.input.length = 1 ∧ σ.writer.pc = .writing ∧ σ.reader.pc = if drain then .reading else .left := by
  obtain ⟨σ,log,run,shows⟩ := replayReaches (machine (narrow drain)) (fun _ _ => True) blocked
    (fun r => r.1.main = .ended ∧ r.1.alive = false ∧ r.1.waiter = .closing ∧ r.1.pending = [3] ∧
      r.1.output = [2] ∧ r.1.input.length = 1 ∧ r.1.writer.pc = .writing ∧
      r.1.reader.pc = if drain then .reading else .left) (by cases drain <;> decide +kernel)
  exact ⟨σ,log,run,of_decide_eq_true shows⟩

/- Without HEV_BRIDGE_DRAIN the console waits for room in its output, its waiter for the
console, and the writer for room in its input, which keeps the output pipe open. -/
theorem blockedStuck (main : σ.main = .ended) (closing : σ.waiter = .closing)
    (pending : σ.pending = [3]) (output : σ.output = [2]) (input : σ.input.length = 1)
    (writing : σ.writer.pc = .writing) (left : σ.reader.pc = .left) : Stuck (machine (narrow false)) Due σ := by
  intro a σ' es due taken
  have move := stepMoves taken
  cases due with
  | consoleWrites =>
    simp [machine,step,closing,pending,output,narrow] at taken
    omega
  | consoleBreaks => simp [machine,step,released,writerOver,writing] at taken
  | waiterWakes => simp [machine,step,closing] at taken
  | consoleCloses => simp [machine,step,pending] at taken
  | kills => simp [machine,step,main] at taken
  | reads =>
    cases move with
    | reader given stepped => simp [BridgeReader.step,left] at stepped
  | sends some' =>
    cases move with
    | reader given stepped => simp [BridgeReader.step,left] at stepped
  | sendFails closed =>
    cases move with
    | reader given stepped => simp [BridgeReader.step,left] at stepped
  | receives some' =>
    cases move with
    | writer given stepped => simp [BridgeWriter.step,writing] at stepped
  | receivesEnd closed empty =>
    cases move with
    | writer given stepped => simp [BridgeWriter.step,writing] at stepped
  | @writes s some' =>
    cases move with
    | writer given stepped =>
      have size : (narrow false).inSize = 1 := rfl
      have full : ¬ (σ.waiter ≠ .ended ∧ σ.input.length + s ≤ (narrow false).inSize) := by
        rw [input,size]
        omega
      simp only [writable] at given
      rw [if_neg (by omega),if_neg full] at given
      contradiction
  | writeFails closed => simp [closing] at closed

/- With HEV_BRIDGE_DRAIN the threads of a session come to rest by themselves once the main
task has left its splice and the shell has ended or can be ended; without it the waiter may
stay in ClosePseudoConsole. -/
theorem consoleSettles :
    (∀ k : Setting, k.drain = true → ∀ σ log, Run (machine k) (fun _ _ => True) σ log →
      σ.main ≠ .splicing → (k.killable = true ∨ σ.alive = false) → Settles k σ) ∧
    ∃ k : Setting, k.drain = false ∧ ∃ σ log, Run (machine k) (fun _ _ => True) σ log ∧
      σ.main ≠ .splicing ∧ (k.killable = true ∨ σ.alive = false) ∧
      σ.waiter = .closing ∧ Stuck (machine k) Due σ := by
  constructor
  · intro k drain σ log run behind mortal
    exact sessionSettles run drain behind mortal
  · obtain ⟨σ,log,run,main,dead,closing,pending,output,input,writing,left⟩ := blockedReached false
    have stuck := blockedStuck main closing pending output input writing left
    exact ⟨narrow false,rfl,σ,log,run,by simp [main],.inr dead,closing,stuck⟩

theorem consoleSettlesBlocked : ∃ σ log, Run (machine (narrow true)) (fun _ _ => True) σ log ∧
    σ.waiter = .closing ∧ σ.pending = [3] ∧ σ.output = [2] ∧ σ.writer.pc = .writing ∧
      Settles (narrow true) σ := by
  obtain ⟨σ,log,run,main,dead,closing,pending,output,_,writing,_⟩ := blockedReached true
  have settled := consoleSettles.1 (narrow true) rfl σ log run (by simp [main]) (.inr dead)
  exact ⟨σ,log,run,closing,pending,output,writing,settled⟩

end runs

end HevFsh.ConsoleDrain
