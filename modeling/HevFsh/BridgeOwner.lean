import HevFsh.Transitions
import Mathlib.Data.List.Count

/-! hev_bridge_new, hev_bridge_spawn and hev_bridge_unref of hev-bridge.c, the ends of the
two workers, and a caller that closes the handles itself when the result is negative.
What each call returns is given; the parties take turns in any order. -/
namespace HevFsh.BridgeOwner
open Transitions

inductive Resource where
  | input
  | output
  | worker
  | front
  | object
  deriving DecidableEq, Repr

/- Which handles are not NULL, and HEV_BRIDGE_OWN. -/
structure Call where
  input : Bool
  output : Bool
  own : Bool
  deriving DecidableEq, Repr

structure Outcomes where
  socketpair : Bool
  calloc : Bool
  ioctlsocket : Bool
  reader : Bool
  writer : Bool
  deriving DecidableEq, Repr

inductive Kind where
  | reader
  | writer
  deriving DecidableEq, Repr

/- The places in hev_bridge_unref. -/
inductive Unref where
  | decrement
  | closeWorker
  | closeIn
  | closeOut
  | free
  deriving DecidableEq, Repr

inductive Worker where
  | absent
  | running
  | unref (at' : Unref)
  | ended
  deriving DecidableEq, Repr

/- hev_bridge_new and, after it returned, its caller. -/
inductive Pc where
  | socketpair
  | calloc
  | ioctlsocket
  | increment (k : Kind)
  | createThread (k : Kind)
  | decrement (k : Kind)
  | shutdown
  | unref (made : Bool) (at' : Unref)
  | closeFront
  | failFree
  | failFront
  | failWorker
  | callerIn
  | callerOut
  | serving
  | done (made : Bool)
  deriving DecidableEq, Repr

structure Bridge where
  pc : Pc
  reader : Worker
  writer : Worker
  refs : Int
  deriving DecidableEq, Repr

inductive Party where
  | main
  | worker (k : Kind)
  deriving DecidableEq, Repr

def handle (some' : Bool) (r : Resource) : List Resource := if some' then [r] else []

def hevBridgeUnref (call : Call) (refs : Int) : Unref → Int × Option Unref × List Resource
  | .decrement => (refs - 1,if refs - 1 ≠ 0 then none else some .closeWorker,[])
  | .closeWorker => (refs,some (if call.own then .closeIn else .free),[.worker])
  | .closeIn => (refs,some .closeOut,handle call.input .input)
  | .closeOut => (refs,some .free,handle call.output .output)
  | .free => (refs,none,[.object])

def Bridge.worker (self : Bridge) : Kind → Worker
  | .reader => self.reader
  | .writer => self.writer

def Bridge.setWorker (self : Bridge) (w : Worker) : Kind → Bridge
  | .reader => { self with reader := w }
  | .writer => { self with writer := w }

def spawned : Kind → Pc
  | .reader => .increment .writer
  | .writer => .unref true .decrement

def unspawned : Kind → Pc
  | .reader => .failFree
  | .writer => .shutdown

def Call.given (call : Call) : Kind → Bool
  | .reader => call.input
  | .writer => call.output

def Outcomes.created (o : Outcomes) : Kind → Bool
  | .reader => o.reader
  | .writer => o.writer

def mainStep (call : Call) (o : Outcomes) (self : Bridge) : Option (Bridge × List Resource) :=
  match self.pc with
  | .socketpair => some ({ self with pc := if o.socketpair then .calloc else .callerIn },[])
  | .calloc =>
      if o.calloc then some ({ self with pc := .ioctlsocket, refs := 1 },[])
      else some ({ self with pc := .failFront },[])
  | .ioctlsocket => some ({ self with pc := if o.ioctlsocket then .increment .reader else .failFree },[])
  | .increment k =>
      if call.given k then some ({ self with pc := .createThread k, refs := self.refs + 1 },[])
      else some ({ self with pc := spawned k },[])
  | .createThread k =>
      if o.created k then some ({ self with pc := spawned k }.setWorker .running k,[])
      else some ({ self with pc := .decrement k },[])
  | .decrement k => some ({ self with pc := unspawned k, refs := self.refs - 1 },[])
  | .shutdown => some ({ self with pc := .unref false .decrement },[])
  | .unref made at' =>
      let (refs,next,released) := hevBridgeUnref call self.refs at'
      let pc := match next with
        | some at' => .unref made at'
        | none => if made then .serving else .closeFront
      some ({ self with pc := pc, refs := refs },released)
  | .closeFront => some ({ self with pc := .callerIn },[.front])
  | .failFree => some ({ self with pc := .failFront },[.object])
  | .failFront => some ({ self with pc := .failWorker },[.front])
  | .failWorker => some ({ self with pc := .callerIn },[.worker])
  | .callerIn => some ({ self with pc := .callerOut },handle call.input .input)
  | .callerOut => some ({ self with pc := .done false },handle call.output .output)
  | .serving => some ({ self with pc := .done true },[.front])
  | .done _ => none

def workerStep (call : Call) (self : Bridge) (k : Kind) : Option (Bridge × List Resource) :=
  match self.worker k with
  | .running => some (self.setWorker (.unref .decrement) k,[])
  | .unref at' =>
      let (refs,next,released) := hevBridgeUnref call self.refs at'
      let w := match next with
        | some at' => .unref at'
        | none => .ended
      some ({ self with refs := refs }.setWorker w k,released)
  | .absent | .ended => none

def step (call : Call) (o : Outcomes) (self : Bridge) : Party → Option (Bridge × List Resource)
  | .main => mainStep call o self
  | .worker k => workerStep call self k

def bridge (call : Call) (o : Outcomes) : Machine Bridge Party Resource :=
  ⟨⟨.socketpair,.absent,.absent,0⟩,step call o⟩

def owed (call : Call) (o : Outcomes) : List Resource :=
  handle call.input .input ++ handle call.output .output ++ handle o.socketpair .worker ++
    handle o.socketpair .front ++ handle (o.socketpair && o.calloc) .object

def released (log : Log Bridge Resource) : List Resource := log.map Prod.snd

def uses : Kind → Resource → Bool
  | .reader,.input => true
  | .writer,.output => true
  | _,.worker => true
  | _,.object => true
  | _,_ => false

def Worker.Ended (w : Worker) : Prop := w ≠ .running ∧ w ≠ .unref .decrement

def Settled (s : Bridge) : Prop :=
  (∃ made, s.pc = .done made) ∧ ∀ k, s.worker k = .absent ∨ s.worker k = .ended

structure Owned (call : Call) (o : Outcomes) (s : Bridge) (log : Log Bridge Resource) : Prop where
  once : ∀ r, r ≠ .front → (released log).count r ≤ (owed call o).count r
  all : Settled s → ∀ r, r ≠ .front → (released log).count r = (owed call o).count r
  last : ∀ s₁ r, (s₁,r) ∈ log → ∀ k, uses k r → (s₁.worker k).Ended

def WriterFails (call : Call) (o : Outcomes) : Prop :=
  o.socketpair ∧ o.calloc ∧ o.ioctlsocket ∧ (call.input → o.reader) ∧ call.output ∧ ¬ o.writer

section ends
variable {call : Call} {o : Outcomes} {s s' : Bridge} {log : Log Bridge Resource} {es : List Resource}
  {k : Kind}

inductive WorkerMoves (call : Call) (s : Bridge) (k : Kind) : Bridge → List Resource → Prop where
  | ends (place : s.worker k = .running) : WorkerMoves call s k (s.setWorker (.unref .decrement) k) []
  | unrefs {at' : Unref} {refs : Int} {next : Option Unref} {out : List Resource} (place : s.worker k = .unref at')
      (does : hevBridgeUnref call s.refs at' = (refs,next,out)) :
      WorkerMoves call s k ({ s with refs := refs }.setWorker (next.elim .ended .unref) k) out

theorem workerMoves (taken : workerStep call s k = some (s',es)) : WorkerMoves call s k s' es := by
  cases place : s.worker k with
  | absent => simp [workerStep,place] at taken
  | ended => simp [workerStep,place] at taken
  | running =>
    simp only [workerStep,place,Option.some.injEq,Prod.mk.injEq] at taken
    obtain ⟨rfl,rfl⟩ := taken
    exact .ends place
  | unref at' =>
    simp only [workerStep,place,Option.some.injEq,Prod.mk.injEq] at taken
    generalize does : hevBridgeUnref call s.refs at' = out at taken
    obtain ⟨refs,next,out⟩ := out
    obtain ⟨rfl,rfl⟩ := taken
    cases next with
    | none => exact .unrefs place does
    | some at'' => exact .unrefs place does

theorem setRefsWorker {refs : Int} : ({ s with refs := refs } : Bridge).worker k = s.worker k := by cases k <;> rfl

def unrefRank : Unref → Nat
  | .decrement => 5
  | .closeWorker => 4
  | .closeIn => 3
  | .closeOut => 2
  | .free => 1

def workerRank : Worker → Nat
  | .running => 6
  | .unref at' => unrefRank at'
  | .absent | .ended => 0

def pcRank : Pc → Nat
  | .socketpair => 29
  | .calloc => 28
  | .ioctlsocket => 27
  | .increment .reader => 26
  | .createThread .reader => 25
  | .increment .writer => 18
  | .createThread .writer => 17
  | .decrement _ => 11
  | .shutdown => 10
  | .unref _ at' => 4 + unrefRank at'
  | .failFree => 5
  | .failFront => 4
  | .failWorker | .closeFront => 3
  | .callerIn => 2
  | .callerOut | .serving => 1
  | .done _ => 0

def rank (s : Bridge) : Nat := pcRank s.pc + workerRank s.reader + workerRank s.writer

theorem unrefShrinks (call : Call) (refs : Int) (at' : Unref) :
    (hevBridgeUnref call refs at').2.1.elim 0 unrefRank < unrefRank at' := by
  cases at' with
  | decrement =>
    by_cases last : refs - 1 = 0 <;> simp [hevBridgeUnref,last,unrefRank]
  | closeWorker => cases own : call.own <;> simp [hevBridgeUnref,own,unrefRank]
  | _ => simp [hevBridgeUnref,unrefRank]

theorem setWorkerRank (s : Bridge) (w : Worker) (k : Kind) :
    rank (s.setWorker w k) + workerRank (s.worker k) = rank s + workerRank w := by
  cases k <;> simp only [rank,Bridge.setWorker,Bridge.worker] <;> omega

theorem workerShrinks (taken : workerStep call s k = some (s',es)) : rank s' < rank s := by
  cases workerMoves taken with
  | ends place =>
    have moved := setWorkerRank s (.unref .decrement) k
    rw [place] at moved
    simp only [workerRank,unrefRank] at moved
    omega
  | @unrefs at' refs next out place does =>
    have shrinks := unrefShrinks call s.refs at'
    have moved := setWorkerRank { s with refs := refs } (next.elim .ended .unref) k
    have after : workerRank (next.elim .ended .unref) = next.elim 0 unrefRank := by cases next <;> rfl
    rw [setRefsWorker,place,after,show rank { s with refs := refs } = rank s from rfl,
      show workerRank (.unref at') = unrefRank at' from rfl] at moved
    rw [does] at shrinks
    simp only at shrinks
    omega

theorem mainShrinks (taken : mainStep call o s = some (s',es)) : rank s' < rank s := by
  cases here : s.pc with
  | socketpair | ioctlsocket =>
    simp only [mainStep,here,Option.some.injEq,Prod.mk.injEq] at taken
    obtain ⟨rfl,-⟩ := taken
    simp only [rank,here]
    split <;> simp [pcRank]
  | calloc =>
    simp only [mainStep,here] at taken
    split at taken
    · cases taken
      simp [rank,here,pcRank]
    · cases taken
      simp [rank,here,pcRank]
  | increment k =>
    simp only [mainStep,here] at taken
    split at taken
    · cases taken
      cases k <;> simp [rank,here,pcRank]
    · cases taken
      cases k <;> simp [rank,here,pcRank,spawned,unrefRank]
  | createThread k =>
    simp only [mainStep,here] at taken
    split at taken
    · cases taken
      have moved := setWorkerRank { s with pc := spawned k } .running k
      have less : pcRank (spawned k) + workerRank .running < pcRank (.createThread k) := by cases k <;> decide
      have start : rank { s with pc := spawned k } + pcRank s.pc = rank s + pcRank (spawned k) := by
        simp only [rank]
        omega
      rw [here] at start
      omega
    · cases taken
      cases k <;> simp [rank,here,pcRank]
  | unref made at' =>
    have shrinks := unrefShrinks call s.refs at'
    simp only [mainStep,here,Option.some.injEq,Prod.mk.injEq] at taken
    generalize hevBridgeUnref call s.refs at' = out at shrinks taken
    obtain ⟨refs,next,out⟩ := out
    obtain ⟨rfl,-⟩ := taken
    cases next with
    | none => cases made <;> simp [rank,here,pcRank] <;> omega
    | some at'' =>
      simp only [Option.elim_some] at shrinks
      simp [rank,here,pcRank]
      omega
  | done made => simp [mainStep,here] at taken
  | decrement k =>
    simp only [mainStep,here,Option.some.injEq,Prod.mk.injEq] at taken
    obtain ⟨rfl,-⟩ := taken
    cases k <;> simp [rank,here,pcRank,unspawned]
  | _ =>
    simp only [mainStep,here,Option.some.injEq,Prod.mk.injEq] at taken
    obtain ⟨rfl,-⟩ := taken
    simp [rank,here,pcRank,unrefRank]

theorem unsettledMoves (call : Call) (o : Outcomes) (open' : ¬ Settled s) :
    ∃ party s' es, step call o s party = some (s',es) := by
  by_cases finished : ∃ made, s.pc = .done made
  · have busy : ∃ k, s.worker k ≠ .absent ∧ s.worker k ≠ .ended := by
      by_contra none'
      refine open' ⟨finished,fun k => ?_⟩
      by_contra neither
      exact none' ⟨k,not_or.mp neither⟩
    obtain ⟨k,there,going⟩ := busy
    refine ⟨.worker k,?_⟩
    cases place : s.worker k with
    | absent => contradiction
    | ended => contradiction
    | _ => simp [step,workerStep,place]
  · refine ⟨.main,?_⟩
    cases here : s.pc with
    | done made => exact absurd ⟨made,here⟩ finished
    | calloc => cases made : o.calloc <;> simp [step,mainStep,here,made]
    | increment k => cases given : call.given k <;> simp [step,mainStep,here,given]
    | createThread k => cases created : o.created k <;> simp [step,mainStep,here,created]
    | _ => simp [step,mainStep,here]

theorem runSettles (run : Run (bridge call o) (fun _ _ => True) s log) :
    ∃ s' more, Run (bridge call o) (fun _ _ => True) s' (log ++ more) ∧ Settled s' := by
  induction size : rank s using Nat.strongRecOn generalizing s log with
  | ind n ih =>
    by_cases settled : Settled s
    · exact ⟨s,[],by simpa using run,settled⟩
    · obtain ⟨party,s₁,es,taken⟩ := unsettledMoves call o settled
      have shrinks : rank s₁ < rank s := by
        cases party with
        | main => exact mainShrinks taken
        | worker k => exact workerShrinks taken
      obtain ⟨s',more,run',settled'⟩ := ih _ (size ▸ shrinks) (.next run trivial taken) rfl
      exact ⟨s',es.map (s,·) ++ more,by simpa using run',settled'⟩

end ends

section ledger
variable {call : Call} {o : Outcomes} {s s' : Bridge} {log : Log Bridge Resource} {es : List Resource}
  {k : Kind} {w : Worker} {pc : Pc} {refs : Int} {r : Resource}

def unrefShare : Unref → Int
  | .decrement => 1
  | _ => 0

def pcShare : Pc → Int
  | .ioctlsocket | .increment _ | .shutdown => 1
  | .createThread _ | .decrement _ => 2
  | .unref _ at' => unrefShare at'
  | _ => 0

def workerShare : Worker → Int
  | .running => 1
  | .unref at' => unrefShare at'
  | _ => 0

def handles (call : Call) : List Resource := handle call.input .input ++ handle call.output .output

def unrefDebt (call : Call) : Unref → List Resource
  | .decrement => []
  | .closeWorker => .worker :: handles call ++ [.object]
  | .closeIn => handles call ++ [.object]
  | .closeOut => handle call.output .output ++ [.object]
  | .free => [.object]

def pcDebt (call : Call) : Pc → List Resource
  | .unref _ at' => unrefDebt call at'
  | .failFree => .object :: .worker :: handles call
  | .failFront | .failWorker => .worker :: handles call
  | .callerIn => handles call
  | .callerOut => handle call.output .output
  | _ => []

def workerDebt (call : Call) : Worker → List Resource
  | .unref at' => unrefDebt call at'
  | _ => []

def early : Pc → Bool
  | .socketpair | .calloc => true
  | _ => false

def failing : Pc → Bool
  | .failFree | .failFront | .failWorker | .callerIn | .callerOut | .done false => true
  | _ => false

def without : Pc → Kind → Bool
  | .socketpair,_ | .calloc,_ | .ioctlsocket,_ => true
  | .increment .reader,_ | .createThread .reader,_ | .decrement .reader,_ => true
  | .increment .writer,.writer | .createThread .writer,.writer | .decrement .writer,.writer => true
  | .failFree,_ | .failFront,_ | .failWorker,_ | .callerIn,_ | .callerOut,_ | .done false,_ => true
  | _,_ => false

def Reached (call : Call) (o : Outcomes) : Pc → Prop
  | .socketpair => True
  | .calloc => o.socketpair
  | .ioctlsocket => o.socketpair ∧ o.calloc
  | .increment .reader => o.socketpair ∧ o.calloc ∧ o.ioctlsocket
  | .createThread .reader => o.socketpair ∧ o.calloc ∧ o.ioctlsocket
  | .decrement .reader => o.socketpair ∧ o.calloc
  | .increment .writer => o.socketpair ∧ o.calloc ∧ o.ioctlsocket ∧ (call.input → o.reader)
  | .createThread .writer => o.socketpair ∧ o.calloc ∧ o.ioctlsocket ∧ (call.input → o.reader) ∧ call.output
  | .unref true _ | .serving | .done true => o.socketpair ∧ o.calloc
  | .decrement .writer | .shutdown | .unref false _ | .closeFront => False
  | .failFree | .failFront | .failWorker | .callerIn | .callerOut | .done false => True

def shares (s : Bridge) : Int := pcShare s.pc + workerShare s.reader + workerShare s.writer

def debts (call : Call) (s : Bridge) : List Resource :=
  pcDebt call s.pc ++ workerDebt call s.reader ++ workerDebt call s.writer

def standing (s : Bridge) : Bool := early s.pc || (!failing s.pc && decide (0 < s.refs))

structure Ledger (call : Call) (o : Outcomes) (s : Bridge) (log : Log Bridge Resource) : Prop where
  path : Reached call o s.pc
  counted : failing s.pc = false → s.refs = shares s
  alone : ∀ k, without s.pc k → s.worker k = .absent
  paid : ∀ r, r ≠ .front → (released log).count r + (debts call s).count r +
    (if standing s then (owed call o).count r else 0) = (owed call o).count r
  last : ∀ s₁ r, (s₁,r) ∈ log → ∀ k, uses k r → (s₁.worker k).Ended

theorem unrefShareNonneg {at' : Unref} : 0 ≤ unrefShare at' := by
  cases at' <;> decide

theorem pcShareNonneg (pc : Pc) : 0 ≤ pcShare pc := by
  cases pc with
  | unref made at' => exact unrefShareNonneg
  | _ => simp [pcShare]

theorem workerShareNonneg (w : Worker) : 0 ≤ workerShare w := by
  cases w with
  | unref at' => exact unrefShareNonneg
  | _ => simp [workerShare]

theorem endedShare : workerShare w = 0 ↔ w.Ended := by
  cases w with
  | unref at' => cases at' <;> simp [workerShare,unrefShare,Worker.Ended]
  | _ => simp [workerShare,Worker.Ended]

theorem setWorkerOther {j : Kind} (other : j ≠ k) : (s.setWorker w k).worker j = s.worker j := by
  cases k <;> cases j <;> first | rfl | contradiction

theorem setWorkerPc : (s.setWorker w k).pc = s.pc := by cases k <;> rfl

theorem setWorkerRefs : (s.setWorker w k).refs = s.refs := by cases k <;> rfl

theorem setWorkerShares (s : Bridge) (w : Worker) (k : Kind) :
    shares (s.setWorker w k) + workerShare (s.worker k) = shares s + workerShare w := by
  cases k <;> simp only [shares,Bridge.setWorker,Bridge.worker] <;> omega

theorem setWorkerDebts (call : Call) (s : Bridge) (w : Worker) (k : Kind) (r : Resource) :
    (debts call (s.setWorker w k)).count r + (workerDebt call (s.worker k)).count r =
    (debts call s).count r + (workerDebt call w).count r := by
  cases k <;> simp only [debts,Bridge.setWorker,Bridge.worker,List.count_append] <;> omega

theorem sharesNonneg : 0 ≤ shares s := by
  have main := pcShareNonneg s.pc
  have reader := workerShareNonneg s.reader
  have writer := workerShareNonneg s.writer
  simp only [shares]
  omega

theorem shareLe (s : Bridge) (k : Kind) : workerShare (s.worker k) + pcShare s.pc ≤ shares s := by
  have reader := workerShareNonneg s.reader
  have writer := workerShareNonneg s.writer
  cases k <;> simp only [shares,Bridge.worker] <;> omega

theorem ledgerNext (inv : Ledger call o s log) (path : Reached call o s'.pc)
    (counted : failing s'.pc = false → s'.refs = shares s') (alone : ∀ k, without s'.pc k → s'.worker k = .absent)
    (balance : ∀ r, r ≠ .front → es.count r + (debts call s').count r +
      (if standing s' then (owed call o).count r else 0) =
      (debts call s).count r + (if standing s then (owed call o).count r else 0))
    (ended : ∀ r ∈ es, ∀ k, uses k r → (s.worker k).Ended) : Ledger call o s' (log ++ es.map (s,·)) := by
  refine { path := path, counted := counted, alone := alone, paid := fun r back => ?_, last := fun s₁ r mem k => ?_ }
  · have before := inv.paid r back
    have now := balance r back
    simp only [released,List.map_append,List.map_map,List.count_append] at before ⊢
    rw [show (es.map (Prod.snd ∘ fun x => (s,x))) = es from List.map_id es]
    omega
  · rcases memNext.mp mem with old | ⟨rfl,now⟩
    · exact inv.last s₁ r old k
    · exact ended r now k

theorem standingFree (inv : Ledger call o s log) (stands : standing s) (back : r ≠ .front) :
    (debts call s).count r = 0 := by
  have paid := inv.paid r back
  rw [if_pos stands] at paid
  omega

theorem fallenShares (inv : Ledger call o s log) (late : early s.pc = false) (going : failing s.pc = false)
    (fallen : standing s = false) : ∀ k, (s.worker k).Ended := by
  intro k
  have counted := inv.counted going
  have le := shareLe s k
  have worker := workerShareNonneg (s.worker k)
  have main := pcShareNonneg s.pc
  simp only [standing,late,going,Bool.false_or,Bool.not_false,Bool.true_and,decide_eq_false_iff_not] at fallen
  exact endedShare.mp (by omega)

theorem owedAll (made : o.socketpair ∧ o.calloc) (back : r ≠ .front) :
    (unrefDebt call .closeWorker).count r = (owed call o).count r := by
  simp only [unrefDebt,owed,handles,handle,made.1,made.2,if_true,Bool.and_self,List.count_append,List.count_cons,
    List.count_nil]
  cases r with
  | front => contradiction
  | _ => simp

inductive UnrefMoves (call : Call) (refs : Int) : Unref → Int → Option Unref → List Resource → Prop where
  | keeps (more : refs - 1 ≠ 0) : UnrefMoves call refs .decrement (refs - 1) none []
  | takes (last : refs - 1 = 0) : UnrefMoves call refs .decrement (refs - 1) (some .closeWorker) []
  | releases {at' : Unref} {next : Option Unref} {out : List Resource} (holds : .object ∈ unrefDebt call at')
      (share : unrefShare at' = 0) (share' : next.elim 0 unrefShare = 0)
      (pays : unrefDebt call at' = out ++ next.elim [] (unrefDebt call)) : UnrefMoves call refs at' refs next out

theorem unrefMoves (own : call.own = true) (refs : Int) (at' : Unref) : UnrefMoves call refs at'
    (hevBridgeUnref call refs at').1 (hevBridgeUnref call refs at').2.1 (hevBridgeUnref call refs at').2.2 := by
  cases at' with
  | decrement =>
    by_cases last : refs - 1 = 0
    · simpa [hevBridgeUnref,last] using UnrefMoves.takes last
    · simpa [hevBridgeUnref,last] using UnrefMoves.keeps last
  | closeWorker =>
    refine .releases ?_ rfl ?_ ?_ <;> simp [hevBridgeUnref,unrefDebt,own,unrefShare]
  | closeIn => refine .releases ?_ rfl ?_ ?_ <;> simp [hevBridgeUnref,unrefDebt,handles,unrefShare]
  | closeOut => refine .releases ?_ rfl ?_ ?_ <;> simp [hevBridgeUnref,unrefDebt,unrefShare]
  | free => refine .releases ?_ rfl ?_ ?_ <;> simp [hevBridgeUnref,unrefDebt]

theorem ledgerUnref (inv : Ledger call o s log) {at' : Unref} {next : Option Unref} {out : List Resource}
    (moves : UnrefMoves call s.refs at' refs next out) (count : s'.refs = refs)
    (share : shares s' + unrefShare at' = shares s + next.elim 0 unrefShare)
    (debt : ∀ r, (debts call s').count r + (unrefDebt call at').count r =
      (debts call s).count r + (next.elim [] (unrefDebt call)).count r)
    (part : unrefDebt call at' ⊆ debts call s)
    (here : early s.pc = false ∧ failing s.pc = false) (there : early s'.pc = false ∧ failing s'.pc = false)
    (made : o.socketpair ∧ o.calloc) (path : Reached call o s'.pc)
    (alone : ∀ k, without s'.pc k → s'.worker k = .absent) : Ledger call o s' (log ++ out.map (s,·)) := by
  have counted := inv.counted here.2
  have nonneg := sharesNonneg (s := s')
  have stands : standing s = decide (0 < s.refs) := by simp [standing,here]
  have stands' : standing s' = decide (0 < s'.refs) := by simp [standing,there]
  cases moves with
  | keeps more =>
    simp only [unrefShare,Option.elim_none] at share
    refine ledgerNext inv path (fun _ => by omega) alone (fun r _ => ?_) (by simp)
    have same := debt r
    simp only [unrefDebt,Option.elim_none] at same
    rw [stands,stands',if_pos (decide_eq_true (by omega)),if_pos (decide_eq_true (by omega))]
    simpa using same
  | takes last =>
    simp only [unrefShare,Option.elim_some] at share
    refine ledgerNext inv path (fun _ => by omega) alone (fun r back => ?_) (by simp)
    have more := debt r
    rw [Option.elim_some,owedAll made back] at more
    rw [stands,stands',if_neg (by simp; omega),if_pos (decide_eq_true (by omega))]
    simpa [unrefDebt] using more
  | releases holds share' share'' pays =>
    have fallen : standing s = false := by
      refine Bool.eq_false_iff.mpr (fun stood => ?_)
      have none' := standingFree (r := .object) inv stood (by simp)
      exact List.count_eq_zero.mp none' (part holds)
    have fallen' : standing s' = false := by rw [stands',count,← stands,fallen]
    refine ledgerNext inv path (fun _ => by omega) alone (fun r _ => ?_)
      (fun _ _ k _ => fallenShares inv here.1 here.2 fallen k)
    have rest := debt r
    rw [pays,List.count_append] at rest
    rw [fallen,fallen']
    simp only [Bool.false_eq_true,if_false]
    omega

theorem presentMade (present : without pc k = false) (path : Reached call o pc) :
    (early pc = false ∧ failing pc = false) ∧ o.socketpair ∧ o.calloc := by
  cases pc with
  | increment j | createThread j | decrement j =>
    cases j <;> cases k <;> simp_all [without,early,failing,Reached]
  | unref made at' | done made => cases made <;> simp_all [without,early,failing,Reached]
  | _ => simp_all [without,early,failing,Reached]

theorem workerLedger (inv : Ledger call o s log) (own : call.own = true)
    (taken : workerStep call s k = some (s',es)) : Ledger call o s' (log ++ es.map (s,·)) := by
  have moves := workerMoves taken
  have there : s.worker k ≠ .absent := by
    cases moves with
    | ends place => rw [place]; nofun
    | unrefs place does => rw [place]; nofun
  have present : without s.pc k = false := Bool.eq_false_iff.mpr (fun before => there (inv.alone k before))
  have alone : ∀ w refs j, without s.pc j → ({ s with refs := refs }.setWorker w k).worker j = .absent := by
    intro w refs j before
    by_cases same : j = k
    · exact absurd (inv.alone k (same ▸ before)) there
    · rw [setWorkerOther same]
      exact inv.alone j before
  obtain ⟨here,made⟩ := presentMade present inv.path
  cases moves with
  | ends place =>
    have share := setWorkerShares s (.unref .decrement) k
    rw [place] at share
    refine ledgerNext inv (by rw [setWorkerPc]; exact inv.path) (fun _ => ?_)
      (by rw [setWorkerPc]; exact alone _ s.refs) (fun r _ => ?_) (by simp)
    · rw [setWorkerRefs,inv.counted here.2]
      simp only [workerShare,unrefShare] at share
      omega
    · have debt := setWorkerDebts call s (.unref .decrement) k r
      rw [place] at debt
      simpa [workerDebt,unrefDebt,standing,setWorkerPc,setWorkerRefs] using debt
  | @unrefs at' refs next out place does =>
    have unref := unrefMoves own s.refs at'
    rw [does] at unref
    have share := setWorkerShares { s with refs := refs } (next.elim .ended .unref) k
    have debt := setWorkerDebts call { s with refs := refs } (next.elim .ended .unref) k
    have share' : workerShare (next.elim .ended .unref) = next.elim 0 unrefShare := by cases next <;> rfl
    have debt' : workerDebt call (next.elim .ended .unref) = next.elim [] (unrefDebt call) := by cases next <;> rfl
    rw [setRefsWorker,place,share'] at share
    rw [setRefsWorker,place,debt'] at debt
    refine ledgerUnref inv unref (by rw [setWorkerRefs]) share debt ?_ here (by rw [setWorkerPc]; exact here) made
      (by rw [setWorkerPc]; exact inv.path) (by rw [setWorkerPc]; exact alone _ refs)
    intro r mem
    have owes : workerDebt call (s.worker k) = unrefDebt call at' := by rw [place]; rfl
    rw [← owes] at mem
    cases k <;> simp [debts,Bridge.worker] at mem ⊢ <;> tauto

theorem owedHandles (closed : o.socketpair = false) : (handles call).count r = (owed call o).count r := by
  simp [owed,handles,handle,closed]

theorem owedWorker (opened : o.socketpair = true) (lacks : o.calloc = false) (back : r ≠ .front) :
    (.worker :: handles call).count r = (owed call o).count r := by
  simp only [owed,handles,handle,opened,lacks,if_true,Bool.and_false,Bool.false_eq_true,if_false,List.count_append,
    List.count_cons,List.count_nil]
  cases r with
  | front => contradiction
  | _ => simp

theorem absentEnded (absent : s.worker k = .absent) : (s.worker k).Ended := by
  rw [absent]
  exact ⟨nofun,nofun⟩

theorem mainNext (inv : Ledger call o s log) (path : Reached call o pc)
    (counted : failing pc = false → refs - pcShare pc = shares s - pcShare s.pc)
    (alone : ∀ k, without pc k → s.worker k = .absent)
    (balance : ∀ r, r ≠ .front → es.count r + (pcDebt call pc).count r +
      (if standing { s with pc := pc, refs := refs } then (owed call o).count r else 0) =
      (pcDebt call s.pc).count r + (if standing s then (owed call o).count r else 0))
    (ended : ∀ r ∈ es, ∀ k, uses k r → (s.worker k).Ended) :
    Ledger call o { s with pc := pc, refs := refs } (log ++ es.map (s,·)) := by
  refine ledgerNext inv path (fun going => ?_) (fun k before => ?_) (fun r back => ?_) ended
  · have same := counted going
    simp only [shares] at same ⊢
    omega
  · rw [← alone k before]
    cases k <;> rfl
  · have same := balance r back
    simp only [debts,List.count_append] at same ⊢
    omega

theorem failingFallen (fails : failing s.pc) : standing s = false := by
  have late : early s.pc = false := by
    cases here : s.pc with
    | socketpair | calloc => rw [here] at fails; contradiction
    | _ => rfl
  simp [standing,late,fails]

theorem mainAbandons (inv : Ledger call o s log) (stands : standing s) (fails : failing pc)
    (debt : ∀ r, r ≠ .front → (pcDebt call pc).count r = (owed call o).count r) (path : Reached call o pc)
    (absent : ∀ k, s.worker k = .absent) : Ledger call o { s with pc := pc, refs := refs } log := by
  have next : Ledger call o { s with pc := pc, refs := refs } (log ++ ([] : List Resource).map (s,·)) :=
    mainNext inv path (by simp [fails]) (fun k _ => absent k) (fun r back => ?_) (by simp)
  · simpa using next
  · have none' := standingFree inv stands back
    have fallen : standing { s with pc := pc, refs := refs } = false := failingFallen fails
    simp only [debts,List.count_append] at none'
    rw [fallen,stands,debt r back]
    simp
    omega

theorem shareRefs (inv : Ledger call o s log) (going : failing s.pc = false) : pcShare s.pc ≤ s.refs := by
  have counted := inv.counted going
  have le := shareLe s .reader
  have worker := workerShareNonneg (s.worker .reader)
  omega

theorem mainAdvances (inv : Ledger call o s log) (stands : standing s)
    (stands' : standing { s with pc := pc, refs := refs }) (going : failing s.pc = false)
    (share : refs - pcShare pc = s.refs - pcShare s.pc) (debt : pcDebt call pc = pcDebt call s.pc)
    (alone : ∀ k, without pc k → without s.pc k) (path : Reached call o pc) :
    Ledger call o { s with pc := pc, refs := refs } log := by
  have next : Ledger call o { s with pc := pc, refs := refs } (log ++ ([] : List Resource).map (s,·)) :=
    mainNext inv path (fun _ => by rw [share,inv.counted going]) (fun k before => inv.alone k (alone k before))
      (fun r _ => by rw [stands,stands',debt]; simp) (by simp)
  simpa using next

theorem mainPays (inv : Ledger call o s log) (fails : failing s.pc) (fails' : failing pc)
    (debt : ∀ r, r ≠ .front → es.count r + (pcDebt call pc).count r = (pcDebt call s.pc).count r)
    (path : Reached call o pc) (before : ∀ k, without s.pc k) :
    Ledger call o { s with pc := pc } (log ++ es.map (s,·)) := by
  have absent k := inv.alone k (before k)
  refine mainNext inv path (by simp [fails']) (fun k _ => absent k) (fun r back => ?_)
    (fun _ _ k _ => absentEnded (absent k))
  rw [failingFallen fails,show standing { s with pc := pc } = false from failingFallen fails',debt r back]

theorem standsGoing (some' : 0 < s.refs) (going : failing s.pc = false) : standing s := by
  simp [standing,going,some']

theorem socketpairLedger (inv : Ledger call o s log) (here : s.pc = .socketpair)
    (taken : mainStep call o s = some (s',es)) : Ledger call o s' (log ++ es.map (s,·)) := by
  have stands : standing s := by simp [standing,here,early]
  simp only [mainStep,here,Option.some.injEq,Prod.mk.injEq] at taken
  obtain ⟨rfl,rfl⟩ := taken
  rw [List.map_nil,List.append_nil]
  cases opened : o.socketpair with
  | false =>
    exact mainAbandons inv stands rfl (fun r _ => owedHandles opened) trivial
      (fun k => inv.alone k (by rw [here]; rfl))
  | true =>
    exact mainAdvances inv stands rfl (by rw [here]; rfl) (by rw [here]; rfl) (by rw [here]; rfl)
      (fun k _ => by rw [here]; rfl) opened

theorem callocLedger (inv : Ledger call o s log) (here : s.pc = .calloc)
    (taken : mainStep call o s = some (s',es)) : Ledger call o s' (log ++ es.map (s,·)) := by
  have stands : standing s := by simp [standing,here,early]
  have absent k : s.worker k = .absent := inv.alone k (by rw [here]; rfl)
  have opened := inv.path
  rw [here] at opened
  cases made : o.calloc with
  | false =>
    simp only [mainStep,here,made,Bool.false_eq_true,if_false,Option.some.injEq,Prod.mk.injEq] at taken
    obtain ⟨rfl,rfl⟩ := taken
    rw [List.map_nil,List.append_nil]
    exact mainAbandons inv stands rfl (fun r back => owedWorker opened made back) trivial absent
  | true =>
    have zero : s.refs = 0 := by
      have reader := absent .reader
      have writer := absent .writer
      simp only [Bridge.worker] at reader writer
      rw [inv.counted (by rw [here]; rfl),shares,here,reader,writer]
      rfl
    simp only [mainStep,here,made,if_true,Option.some.injEq,Prod.mk.injEq] at taken
    obtain ⟨rfl,rfl⟩ := taken
    rw [List.map_nil,List.append_nil]
    exact mainAdvances inv stands rfl (by rw [here]; rfl) (by rw [here,zero]; rfl) (by rw [here]; rfl)
      (fun k _ => by rw [here]; rfl) ⟨opened,made⟩

theorem owedFailFree (made : o.socketpair ∧ o.calloc) (back : r ≠ .front) :
    (pcDebt call .failFree).count r = (owed call o).count r := by
  rw [← owedAll made back]
  simp only [pcDebt,unrefDebt,List.count_append,List.count_cons,List.count_nil]
  omega

theorem ioctlsocketLedger (inv : Ledger call o s log) (here : s.pc = .ioctlsocket)
    (taken : mainStep call o s = some (s',es)) : Ledger call o s' (log ++ es.map (s,·)) := by
  have going : failing s.pc = false := by rw [here]; rfl
  have some' := shareRefs inv going
  have path := inv.path
  rw [here] at path some'
  have stands := standsGoing some' going
  simp only [mainStep,here,Option.some.injEq,Prod.mk.injEq] at taken
  obtain ⟨rfl,rfl⟩ := taken
  rw [List.map_nil,List.append_nil]
  cases blocking : o.ioctlsocket with
  | false =>
    exact mainAbandons inv stands rfl (fun r back => owedFailFree path back) trivial
      (fun k => inv.alone k (by rw [here]; rfl))
  | true =>
    exact mainAdvances inv stands (standsGoing some' rfl) going (by rw [here]; rfl)
      (by rw [here]; rfl) (fun k _ => by rw [here]; rfl) ⟨path.1,path.2,blocking⟩

theorem incrementLedger (inv : Ledger call o s log) (here : s.pc = .increment k)
    (taken : mainStep call o s = some (s',es)) : Ledger call o s' (log ++ es.map (s,·)) := by
  have going : failing s.pc = false := by rw [here]; rfl
  have some' : 1 ≤ s.refs := by
    have le := shareRefs inv going
    rwa [here] at le
  have path := inv.path
  rw [here] at path
  have stands := standsGoing some' going
  cases given : call.given k with
  | true =>
    simp only [mainStep,here,given,if_true,Option.some.injEq,Prod.mk.injEq] at taken
    obtain ⟨rfl,rfl⟩ := taken
    rw [List.map_nil,List.append_nil]
    refine mainAdvances inv stands (standsGoing (by simp; omega) rfl) going (by rw [here]; simp [pcShare]; omega)
      (by rw [here]; rfl) (fun j before => ?_) ?_
    · rw [here]
      cases k <;> cases j <;> first | rfl | contradiction
    · cases k with
      | reader => exact path
      | writer => exact ⟨path.1,path.2.1,path.2.2.1,path.2.2.2,given⟩
  | false =>
    simp only [mainStep,here,given,Bool.false_eq_true,if_false,Option.some.injEq,Prod.mk.injEq] at taken
    obtain ⟨rfl,rfl⟩ := taken
    rw [List.map_nil,List.append_nil]
    refine mainAdvances inv stands (standsGoing some' (by cases k <;> rfl)) going (by rw [here]; cases k <;> rfl)
      (by rw [here]; cases k <;> rfl) (fun j before => ?_) ?_
    · rw [here]
      cases k <;> cases j <;> first | rfl | contradiction
    · cases k with
      | reader => exact ⟨path.1,path.2.1,path.2.2,fun used => by rw [Call.given] at given; simp [given] at used⟩
      | writer => exact ⟨path.1,path.2.1⟩

theorem decrementLedger (inv : Ledger call o s log) (here : s.pc = .decrement k)
    (taken : mainStep call o s = some (s',es)) : Ledger call o s' (log ++ es.map (s,·)) := by
  have path := inv.path
  cases k with
  | writer => rw [here] at path; exact path.elim
  | reader =>
    have going : failing s.pc = false := by rw [here]; rfl
    have some' := shareRefs inv going
    rw [here] at some' path
    have stands := standsGoing (by simp only [pcShare] at some'; omega) going
    simp only [mainStep,here,Option.some.injEq,Prod.mk.injEq] at taken
    obtain ⟨rfl,rfl⟩ := taken
    rw [List.map_nil,List.append_nil]
    exact mainAbandons inv stands rfl (fun r back => owedFailFree path back) trivial
      (fun j => inv.alone j (by rw [here]; rfl))

theorem createThreadLedger (inv : Ledger call o s log) (here : s.pc = .createThread k) (spared : ¬ WriterFails call o)
    (taken : mainStep call o s = some (s',es)) : Ledger call o s' (log ++ es.map (s,·)) := by
  have going : failing s.pc = false := by rw [here]; rfl
  have some' : 2 ≤ s.refs := by
    have le := shareRefs inv going
    rwa [here] at le
  have path := inv.path
  rw [here] at path
  have stands := standsGoing (by omega) going
  have fresh : s.worker k = .absent := inv.alone k (by rw [here]; cases k <;> rfl)
  cases created : o.created k with
  | true =>
    simp only [mainStep,here,created,if_true,Option.some.injEq,Prod.mk.injEq] at taken
    obtain ⟨rfl,rfl⟩ := taken
    have fresh' : ({ s with pc := spawned k } : Bridge).worker k = .absent := by rw [← fresh]; cases k <;> rfl
    have going' : failing (spawned k) = false := by cases k <;> rfl
    refine ledgerNext inv ?_ (fun _ => ?_) (fun j before => ?_) (fun r _ => ?_) (by simp)
    · rw [setWorkerPc]
      cases k with
      | reader => exact ⟨path.1,path.2.1,path.2.2,fun _ => created⟩
      | writer => exact ⟨path.1,path.2.1⟩
    · have share := setWorkerShares { s with pc := spawned k } .running k
      have moved : pcShare (spawned k) = 1 := by cases k <;> rfl
      have held : pcShare (.createThread k) = 2 := rfl
      have before : shares s = 2 + workerShare s.reader + workerShare s.writer := by simp only [shares,here,held]
      have after : shares { s with pc := spawned k } = 1 + workerShare s.reader + workerShare s.writer := by
        simp only [shares,moved]
      rw [fresh',show workerShare .absent = 0 from rfl,show workerShare .running = 1 from rfl] at share
      have counted := inv.counted going
      rw [setWorkerRefs,show ({ s with pc := spawned k } : Bridge).refs = s.refs from rfl]
      omega
    · rw [setWorkerPc] at before
      cases k <;> cases j <;> first | contradiction | exact inv.alone .writer (by rw [here]; rfl)
    · have debt := setWorkerDebts call { s with pc := spawned k } .running k r
      have moved : pcDebt call (spawned k) = [] := by cases k <;> rfl
      have held : pcDebt call (.createThread k) = [] := rfl
      rw [fresh',show workerDebt call .absent = [] from rfl,show workerDebt call .running = [] from rfl] at debt
      have stands' := standsGoing (s := { s with pc := spawned k }.setWorker .running k)
        (by rw [setWorkerRefs]; exact Int.lt_of_lt_of_le (by decide) some') (by rw [setWorkerPc]; exact going')
      rw [stands,stands']
      simp only [debts,here,moved,held,List.count_nil,List.nil_append] at debt ⊢
      omega
  | false =>
    simp only [mainStep,here,created,Bool.false_eq_true,if_false,Option.some.injEq,Prod.mk.injEq] at taken
    obtain ⟨rfl,rfl⟩ := taken
    rw [List.map_nil,List.append_nil]
    cases k with
    | writer =>
      obtain ⟨opened,made,blocking,reader,output⟩ := path
      exact absurd ⟨opened,made,blocking,reader,output,by simpa [Outcomes.created] using created⟩ spared
    | reader =>
      exact mainAdvances inv stands (standsGoing (by simp; omega) rfl) going (by rw [here]; rfl) (by rw [here]; rfl)
        (fun j _ => by rw [here]; rfl) ⟨path.1,path.2.1⟩

theorem unrefLedger {made : Bool} {at' : Unref} (inv : Ledger call o s log) (own : call.own = true)
    (here : s.pc = .unref made at') (taken : mainStep call o s = some (s',es)) :
    Ledger call o s' (log ++ es.map (s,·)) := by
  have path := inv.path
  cases made with
  | false => rw [here] at path; exact path.elim
  | true =>
    rw [here] at path
    have moves := unrefMoves own s.refs at'
    simp only [mainStep,here,Option.some.injEq,Prod.mk.injEq] at taken
    generalize hevBridgeUnref call s.refs at' = out at moves taken
    obtain ⟨refs,next,out⟩ := out
    obtain ⟨rfl,rfl⟩ := taken
    have part : unrefDebt call at' ⊆ debts call s := fun r mem => by simp [debts,here,pcDebt,mem]
    have here' : early s.pc = false ∧ failing s.pc = false := by rw [here]; exact ⟨rfl,rfl⟩
    cases next with
    | none =>
      refine ledgerUnref inv moves rfl ?_ (fun r => ?_) part here'
          ⟨rfl,rfl⟩ path path (fun j before => by contradiction)
      · simp only [shares,here,if_true,pcShare,Option.elim_none]
        omega
      · simp only [debts,here,if_true,pcDebt,List.count_append,Option.elim_none,List.count_nil]
        omega
    | some at'' =>
      refine ledgerUnref inv moves rfl ?_ (fun r => ?_) part here'
          ⟨rfl,rfl⟩ path path (fun j before => by contradiction)
      · simp only [shares,here,pcShare,Option.elim_some]
        omega
      · simp only [debts,here,pcDebt,List.count_append,Option.elim_some]
        omega

theorem mainLedger (inv : Ledger call o s log) (own : call.own = true) (spared : ¬ WriterFails call o)
    (taken : mainStep call o s = some (s',es)) : Ledger call o s' (log ++ es.map (s,·)) := by
  have path := inv.path
  cases here : s.pc with
  | socketpair => exact socketpairLedger inv here taken
  | calloc => exact callocLedger inv here taken
  | ioctlsocket => exact ioctlsocketLedger inv here taken
  | increment k => exact incrementLedger inv here taken
  | createThread k => exact createThreadLedger inv here spared taken
  | decrement k => exact decrementLedger inv here taken
  | unref made at' => exact unrefLedger inv own here taken
  | shutdown | closeFront => rw [here] at path; exact path.elim
  | failFree | failFront | failWorker | callerIn | callerOut =>
    simp only [mainStep,here,Option.some.injEq,Prod.mk.injEq] at taken
    obtain ⟨rfl,rfl⟩ := taken
    refine mainPays inv (by rw [here]; rfl) rfl (fun r back => ?_) trivial (fun k => by rw [here]; rfl)
    cases r with
    | front => contradiction
    | _ => simp [here,pcDebt,handles,Nat.add_comm]
  | serving =>
    rw [here] at path
    simp only [mainStep,here,Option.some.injEq,Prod.mk.injEq] at taken
    obtain ⟨rfl,rfl⟩ := taken
    refine mainNext inv path
      (fun _ => by rw [inv.counted (by rw [here]; rfl),here]; rfl) (fun k before => by contradiction)
      (fun r back => ?_) (fun r mem k used => ?_)
    · cases r with
      | front => contradiction
      | _ => simp [here,pcDebt,standing,early,failing]
    · cases List.mem_singleton.mp mem
      cases k <;> contradiction
  | done made => simp [mainStep,here] at taken

theorem runLedger (own : call.own = true) (spared : ¬ WriterFails call o)
    (run : Run (bridge call o) (fun _ _ => True) s log) : Ledger call o s log := by
  refine runInvariant (P := fun s log => Ledger call o s log) ?_ ?_ run
  · exact ⟨trivial,fun _ => rfl,fun k _ => by cases k <;> rfl,
      fun r _ => by simp [released,debts,bridge,pcDebt,workerDebt,standing,early],
      fun s₁ r mem => (List.not_mem_nil mem).elim⟩
  · intro s log party s' es _ _ taken inv
    cases party with
    | main => exact mainLedger inv own spared taken
    | worker k => exact workerLedger inv own taken

theorem settledDebts (call : Call) (settled : Settled s) : debts call s = [] ∧ shares s = 0 := by
  obtain ⟨⟨made,here⟩,workers⟩ := settled
  have reader := workers .reader
  have writer := workers .writer
  simp only [Bridge.worker] at reader writer
  rcases reader with reader | reader <;> rcases writer with writer | writer <;>
    simp [debts,shares,here,reader,writer,pcDebt,workerDebt,pcShare,workerShare]

theorem ledgerOwned (inv : Ledger call o s log) : Owned call o s log := by
  refine { once := fun r back => ?_, all := fun settled r back => ?_, last := inv.last }
  · have paid := inv.paid r back
    omega
  · have paid := inv.paid r back
    obtain ⟨free,none'⟩ := settledDebts call settled
    have fallen : standing s = false := by
      obtain ⟨⟨made,here⟩,-⟩ := settled
      cases made with
      | false => simp [standing,here,early,failing]
      | true =>
        have counted := inv.counted (by rw [here]; rfl)
        simp [standing,here,early,failing,counted,none']
    simpa [free,fallen] using paid

theorem writerFailsTwice (input output : Bool) (fails : WriterFails ⟨input,output,true⟩ o) :
    ∃ s log, Run (bridge ⟨input,output,true⟩ o) (fun _ _ => True) s log ∧
      (released log).count .output = 2 ∧ (owed ⟨input,output,true⟩ o).count .output = 1 := by
  obtain ⟨opened,made,blocking,reader,given,lacks⟩ := fails
  obtain ⟨socketpair,calloc,ioctlsocket,created,writer⟩ := o
  simp only [Bool.not_eq_true] at opened made blocking reader given lacks
  subst opened made blocking given lacks
  cases input with
  | true =>
    obtain rfl := reader rfl
    obtain ⟨s,log,run,shows⟩ := replayReaches (bridge ⟨true,true,true⟩
        ⟨true,true,true,true,false⟩) (fun _ _ => True)
      (List.replicate 13 Party.main ++ List.replicate 6 (Party.worker .reader))
      (fun out => decide ((released out.2).count .output = 2)) (by decide +kernel)
    exact ⟨s,log,run,of_decide_eq_true shows,by decide⟩
  | false =>
    obtain ⟨s,log,run,shows⟩ := replayReaches (bridge ⟨false,true,true⟩
        ⟨true,true,true,created,false⟩) (fun _ _ => True)
      (List.replicate 16 .main) (fun out => decide ((released out.2).count .output = 2))
      (by cases created <;> decide +kernel)
    exact ⟨s,log,run,of_decide_eq_true shows,by cases created <;> decide⟩

/- Everything that there is gets released exactly once, by nobody who is too early, unless the
writer is needed and cannot be created. -/
theorem ownedOnce (input output : Bool) (o : Outcomes) :
    (∀ {s log}, Run (bridge ⟨input,output,true⟩ o) (fun _ _ => True) s log →
    Owned ⟨input,output,true⟩ o s log) ↔
      ¬ WriterFails ⟨input,output,true⟩ o := by
  constructor
  · intro owned fails
    obtain ⟨s,log,run,twice,one⟩ := writerFailsTwice input output fails
    have once := (owned run).once .output nofun
    omega
  · intro spared s log run
    exact ledgerOwned (runLedger rfl spared run)

theorem outputClosedTwice : ¬ ∀ {s log},
    Run (bridge ⟨true,true,true⟩ ⟨true,true,true,true,false⟩) (fun _ _ => True) s log →
      Owned ⟨true,true,true⟩ ⟨true,true,true,true,false⟩ s log := by
  intro owned
  obtain ⟨s,log,run,twice,one⟩ := writerFailsTwice true true (o := ⟨true,true,true,true,false⟩)
    ⟨rfl,rfl,rfl,fun _ => rfl,rfl,nofun⟩
  have once := (owned run).once .output nofun
  omega

end ledger

end HevFsh.BridgeOwner
