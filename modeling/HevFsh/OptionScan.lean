import Mathlib.Data.List.Nodup
import Mathlib.Data.List.Basic

/-! Scans of a row of words for options. One scan takes options and operands in any
order, another one stops at the first operand; a permutation that moves the operands back
makes the second one do for the first, as far as it tells right which words belong
together. -/
namespace HevFsh.OptionScan

inductive Word (R C : Type) where
  | operand
  | ending
  | option (rs : List R) (wants : Option C)

/- How words are read. `early` are the options that the permutation keeps the next word
with. -/
structure Reading (α R C : Type) where
  word : α → Word R C
  early : α → Bool
  give : C → α → R
  lack : R
  giveInj : ∀ c a b, give c a = give c b → a = b
  giveLack : ∀ c a, give c a ≠ lack

section scans
variable {α R C : Type} (r : Reading α R C)

def add (rs : List R) (x : List R × List α) : List R × List α := (rs ++ x.1,x.2)

def shift (front : List α) (x : List R × List α) : List R × List α := (x.1,front ++ x.2)

/- Results and operands; `wants` is what the option before wants. -/
def scanAll : Option C → List α → List R × List α
  | none,[] => ([],[])
  | some _,[] => ([r.lack],[])
  | some c,w::ws => add [r.give c w] (scanAll none ws)
  | none,w::ws => match r.word w with
      | .operand => shift [w] (scanAll none ws)
      | .ending => ([],ws)
      | .option rs wants => add rs (scanAll wants ws)

/- The words that a permutation moves to the front; `taking` one that goes with an option. -/
def options : Bool → List α → List α
  | _,[] => []
  | true,w::ws => w :: options false ws
  | false,w::ws => match r.word w with
      | .operand => options false ws
      | .ending => []
      | .option _ _ => w :: options (r.early w) ws

def others : Bool → List α → List α
  | _,[] => []
  | true,_::ws => others false ws
  | false,w::ws => match r.word w with
      | .operand => w :: others false ws
      | .ending => w::ws
      | .option _ _ => others (r.early w) ws

def Operands (ws : List α) : Prop := ∀ w ∈ ws, r.word w = .operand

end scans

section laws
variable {α R C : Type} {r : Reading α R C} {wants : Option C} {ws front : List α} {w : α}

end laws

section agreement
variable {α R C : Type} {r : Reading α R C} {wants : Option C} {ws front : List α} {w : α}

structure Passed (r : Reading α R C) (front ws : List α) : Prop where
  operands : Operands r front
  distinct : (front ++ ws).Nodup

theorem Passed.next (passed : Passed r front (w::ws)) : Passed r front ws :=
  ⟨passed.operands,passed.distinct.sublist ((List.Sublist.refl front).append (List.sublist_cons_self w ws))⟩

theorem Passed.apart (passed : Passed r front ws) : ∀ x ∈ front, x ∉ ws := by
  intro x mem later
  exact (List.nodup_append.mp passed.distinct).2.2 x mem x later rfl

theorem Passed.fresh (passed : Passed r front (w::ws)) : w ∉ ws :=
  (List.nodup_cons.mp (List.nodup_append.mp passed.distinct).2.1).1

end agreement

end HevFsh.OptionScan
