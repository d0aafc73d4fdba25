import HevFsh.Transitions
import Mathlib.Data.List.Perm.Subperm
import Mathlib.Logic.Function.Basic

/-! Threads that make objects, use and release them, count the references to what they
share, start each other and wait for each other. A script is what a thread has still to
do; the calls in it may fail. A checker passes over a script with what its thread has in
its hands, and under it nothing is used or released that is not there, nothing is left
behind, and nobody waits for ever. -/
namespace HevFsh.Scripts
open Transitions

/- What a thread may have in its hands: an object, one of the counted references to a
shared object, the knowledge that nobody else has one, and the duty to raise a flag. -/
inductive Token (R F : Type) where
  | object (r : R)
  | share (r : R)
  | sole (r : R)
  | promise (f : F)
  deriving DecidableEq, Repr

/- `pack` sets a reference count to one, `share` adds to it and `drop` takes from it; the
last one to drop goes on with `last`. `unpack`, `promise` and `given` do nothing: they
say that a count is known to be one, who is to raise a flag, and what a new thread gets. -/
inductive Script (R C F : Type) where
  | done
  | call (c : C) (made : List R) (yes no : Script R C F)
  | use (r : R) (next : Script R C F)
  | free (r : R) (next : Script R C F)
  | pack (r : R) (next : Script R C F)
  | unpack (r : R) (next : Script R C F)
  | share (r : R) (next : Script R C F)
  | drop (r : R) (last next : Script R C F)
  | promise (f : F) (next : Script R C F)
  | signal (f : F) (next : Script R C F)
  | await (f : F) (next : Script R C F)
  | fork (given : List (Token R F)) (child next : Script R C F)

inductive Event (R C F : Type) where
  | called (i : Nat) (c : C) (ok : Bool)
  | made (r : R)
  | used (r : R)
  | freed (r : R)
  | signalled (f : F)
  deriving DecidableEq, Repr

structure State (R C F : Type) where
  thread : Nat → Script R C F
  count : Nat
  refs : R → Nat
  up : F → Bool

section machine
variable {R C F : Type} [DecidableEq R] [DecidableEq F]

def State.goto (σ : State R C F) (i : Nat) (s : Script R C F) : State R C F :=
  {σ with thread := Function.update σ.thread i s}

/- A thread takes its next step; `ok` is the outcome if that is a call. -/
def step (σ : State R C F) (a : Nat × Bool) : Option (State R C F × List (Event R C F)) :=
  let i := a.1
  match σ.thread i with
  | .done => none
  | .call c made yes no =>
      some (if a.2 then (σ.goto i yes,.called i c true :: made.map .made) else (σ.goto i no,[.called i c false]))
  | .use r next => some (σ.goto i next,[.used r])
  | .free r next => some (σ.goto i next,[.freed r])
  | .pack r next => some ({σ.goto i next with refs := Function.update σ.refs r 1},[.used r])
  | .unpack _ next => some (σ.goto i next,[])
  | .share r next => some ({σ.goto i next with refs := Function.update σ.refs r (σ.refs r + 1)},[.used r])
  | .drop r last next =>
      some ({σ.goto i (if σ.refs r = 1 then last else next) with
        refs := Function.update σ.refs r (σ.refs r - 1)},[.used r])
  | .promise _ next => some (σ.goto i next,[])
  | .signal f next => some ({σ.goto i next with up := Function.update σ.up f true},[.signalled f])
  | .await f next => if σ.up f then some (σ.goto i next,[]) else none
  | .fork _ child next =>
      some ({(σ.goto i next).goto σ.count child with count := σ.count + 1},[])

def start (s : Script R C F) : State R C F where
  thread := Function.update (fun _ => .done) 0 s
  count := 1
  refs _ := 0
  up _ := false

def machine (s : Script R C F) : Machine (State R C F) (Nat × Bool) (Event R C F) := ⟨start s,step⟩

def AtRest (σ : State R C F) : Prop := ∀ i, σ.thread i = .done

def Script.size : Script R C F → Nat
  | .done => 0
  | .call _ _ yes no => 1 + max yes.size no.size
  | .use _ next | .free _ next | .pack _ next | .unpack _ next | .share _ next => 1 + next.size
  | .drop _ last next => 1 + max last.size next.size
  | .promise _ next | .signal _ next | .await _ next => 1 + next.size
  | .fork _ child next => 1 + child.size + next.size

def Script.makes (r : R) : Script R C F → Nat
  | .done => 0
  | .call _ made yes no => max (made.count r + yes.makes r) (no.makes r)
  | .use _ next | .free _ next | .pack _ next | .unpack _ next | .share _ next => next.makes r
  | .drop _ last next => max (last.makes r) (next.makes r)
  | .promise _ next | .signal _ next | .await _ next => next.makes r
  | .fork _ child next => child.makes r + next.makes r

end machine

/- What a shared object comes with, itself included; the order in which flags may be waited
for; the outcomes that calls may have; what a thread leaves behind, told from its calls that failed. -/
structure Rules (R C F : Type) where
  payload : R → List R
  level : F → Nat
  may : C → Bool → Bool
  left : List C → List (Token R F)

section checker
variable {R C F : Type} [DecidableEq R] [DecidableEq C] [DecidableEq F] (rules : Rules R C F)

def Rules.contents (r : R) : List (Token R F) := (rules.payload r).map .object

def unsole (r : R) (hold : List (Token R F)) : List (Token R F) := hold.filter (· ≠ .sole r)

def usable (r : R) (hold : List (Token R F)) : Bool :=
  hold.any (fun t => match t with
    | .object r' => r' = r
    | .share a => r ∈ rules.payload a
    | _ => false)

def below (f : F) (hold : List (Token R F)) : Bool :=
  hold.all (fun t => match t with
    | .promise g => rules.level f < rules.level g
    | _ => true)

def remains (hold given : List (Token R F)) : List (Token R F) :=
  (hold.diff given).filter (fun t => match t with
    | .sole a => Token.share a ∉ given
    | _ => true)

def noSole (given : List (Token R F)) : Bool :=
  given.all (fun t => match t with
    | .sole _ => false
    | _ => true)

/- `known` are the flags that somebody is to raise, `fails` the calls that failed. -/
def Script.check : List F → List C → List (Token R F) → Script R C F → Bool
  | _,fails,hold,.done => decide (hold.Perm (rules.left fails))
  | known,fails,hold,.call c made yes no =>
      (!rules.may c true || Script.check known fails (made.map .object ++ hold) yes) &&
        (!rules.may c false || Script.check known (fails ++ [c]) hold no)
  | known,fails,hold,.use r next => usable rules r hold && Script.check known fails hold next
  | known,fails,hold,.free r next =>
      decide (Token.object r ∈ hold) && Script.check known fails (hold.erase (.object r)) next
  | known,fails,hold,.pack r next =>
      decide (r ∈ rules.payload r) && decide ((rules.contents r).Subperm hold) &&
        Script.check known fails (.sole r :: .share r :: hold.diff (rules.contents r)) next
  | known,fails,hold,.unpack r next =>
      decide (Token.sole r ∈ hold) && decide (hold.count (.share r) = 1) &&
        Script.check known fails (rules.contents r ++ unsole r (hold.erase (.share r))) next
  | known,fails,hold,.share r next =>
      decide (Token.share r ∈ hold) && Script.check known fails (.share r :: hold) next
  | known,fails,hold,.drop r last next =>
      decide (Token.share r ∈ hold) &&
        (decide (2 ≤ hold.count (.share r)) ||
          Script.check known fails (rules.contents r ++ unsole r (hold.erase (.share r))) last) &&
        (decide (hold.count (.share r) = 1 ∧ Token.sole r ∈ hold) ||
          Script.check known fails (hold.erase (.share r)) next)
  | known,fails,hold,.promise f next => Script.check (f :: known) fails (.promise f :: hold) next
  | known,fails,hold,.signal f next =>
      decide (Token.promise f ∈ hold) && Script.check known fails (hold.erase (.promise f)) next
  | known,fails,hold,.await f next =>
      decide (f ∈ known) && below rules f hold && Script.check known fails hold next
  | known,fails,hold,.fork given child next =>
      noSole given && decide (given.Subperm hold) && Script.check known [] given child &&
        Script.check known fails (remains hold given) next

end checker

end HevFsh.Scripts
