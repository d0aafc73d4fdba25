import Mathlib.Data.List.Basic

/-! A bounded first-in first-out queue, and the last entry of a history that is of
some kind. -/
namespace HevFsh.BoundedQueue

structure Fifo (α : Type) (capacity : Nat) where
  items : List α
  fits : items.length ≤ capacity
  deriving DecidableEq, Repr

section queue
variable {α : Type} {capacity : Nat}

def Fifo.empty (α : Type) (capacity : Nat) : Fifo α capacity := ⟨[],Nat.zero_le _⟩

def Fifo.room (q : Fifo α capacity) : Nat := capacity - q.items.length

def Fifo.push (q : Fifo α capacity) (chunk : List α) (fit : chunk.length ≤ q.room) : Fifo α capacity :=
  ⟨q.items ++ chunk,by
    have fits := q.fits
    rw [Fifo.room] at fit
    rw [List.length_append]
    omega⟩

def Fifo.pop (q : Fifo α capacity) (n : Nat) : Fifo α capacity :=
  ⟨q.items.drop n,by
    have fits := q.fits
    rw [List.length_drop]
    omega⟩

@[simp] theorem emptyItems : (Fifo.empty α capacity).items = [] := rfl

@[simp] theorem pushItems (q : Fifo α capacity) (chunk : List α) (fit : chunk.length ≤ q.room) :
    (q.push chunk fit).items = q.items ++ chunk := rfl

@[simp] theorem popItems (q : Fifo α capacity) (n : Nat) : (q.pop n).items = q.items.drop n := rfl

end queue

section last
variable {E : Type} (kind : E → Bool)

def lastOf (history : List E) : Option E := (history.filter kind).getLast?

@[simp] theorem lastOfNil : lastOf kind [] = none := rfl

theorem lastOfNext (history : List E) (e : E) :
    lastOf kind (history ++ [e]) = if kind e then some e else lastOf kind history := by
  unfold lastOf
  cases here : kind e <;> simp [here]

end last

end HevFsh.BoundedQueue
