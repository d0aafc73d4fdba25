import Mathlib.Data.List.Basic

/-! Cutting a list after each separator. -/
namespace HevFsh.LineSplit
variable {α : Type} [DecidableEq α]

def cut (sep : α) : List α → List α × List α
  | [] => ([],[])
  | c::rest =>
      if c = sep then ([c],rest)
      else
        let (line,later) := cut sep rest
        (c::line,later)

def Ended (sep : α) (line : List α) : Prop := ∃ body, sep ∉ body ∧ line = body ++ [sep]

inductive Lines (sep : α) : List α → List (List α) → Prop where
  | done : Lines sep [] []
  | more {xs lines} (some' : xs ≠ []) (later : Lines sep (cut sep xs).2 lines) :
      Lines sep xs ((cut sep xs).1::lines)

variable {sep : α}

theorem cutOther {c : α} {rest : List α} (other : c ≠ sep) :
    cut sep (c::rest) = (c::(cut sep rest).1,(cut sep rest).2) := by
  rw [cut,if_neg other]

theorem cutHere (rest : List α) : cut sep (sep::rest) = ([sep],rest) := by
  rw [cut,if_pos rfl]

theorem cutWhole (sep : α) (xs : List α) : (cut sep xs).1 ++ (cut sep xs).2 = xs := by
  induction xs with
  | nil => rfl
  | cons c rest ih =>
    by_cases here : c = sep
    · subst here
      rw [cutHere]
      rfl
    · rw [cutOther here,List.cons_append,ih]

theorem cutShape (xs : List α) : Ended sep (cut sep xs).1 ∨ sep ∉ (cut sep xs).1 ∧ (cut sep xs).2 = [] := by
  induction xs with
  | nil => exact .inr ⟨List.not_mem_nil,rfl⟩
  | cons c rest ih =>
    by_cases here : c = sep
    · subst here
      rw [cutHere]
      exact .inl ⟨[],List.not_mem_nil,rfl⟩
    · rw [cutOther here]
      rcases ih with ⟨body,free,line⟩ | ⟨free,none'⟩
      · refine .inl ⟨c::body,?_,by rw [line]; rfl⟩
        simp [free,Ne.symm here]
      · refine .inr ⟨?_,none'⟩
        simp [free,Ne.symm here]

theorem cutSome (sep : α) {xs : List α} (some' : xs ≠ []) : 0 < (cut sep xs).1.length := by
  cases xs with
  | nil => contradiction
  | cons c rest =>
    by_cases here : c = sep
    · subst here
      rw [cutHere]
      exact Nat.zero_lt_one
    · rw [cutOther here]
      exact Nat.zero_lt_succ _

theorem cutShorter (sep : α) {xs : List α} (some' : xs ≠ []) : (cut sep xs).2.length < xs.length := by
  have line := cutSome sep some'
  have whole := congrArg List.length (cutWhole sep xs)
  rw [List.length_append] at whole
  omega

theorem linesFlatten {xs : List α} {lines : List (List α)} (split : Lines sep xs lines) : lines.flatten = xs := by
  induction split with
  | done => rfl
  | more some' later ih => rw [List.flatten_cons,ih,cutWhole]

theorem linesLast {xs line : List α} {lines : List (List α)} (split : Lines sep xs (line::lines)) :
    Ended sep line ∨ sep ∉ line ∧ lines = [] := by
  cases split with
  | more some' later =>
    refine (cutShape xs).imp id (fun ⟨free,none'⟩ => ⟨free,?_⟩)
    rw [none'] at later
    cases later with
    | done => rfl
    | more some'' _ => contradiction

theorem linesEnded {xs : List α} {lines : List (List α)} (split : Lines sep xs lines) :
    ∀ line ∈ lines.dropLast, Ended sep line := by
  induction split with
  | done => simp
  | @more xs lines some' later ih =>
    intro line mem
    cases lines with
    | nil => simp at mem
    | cons next lines =>
      rcases List.mem_cons.mp mem with rfl | mem
      · exact (linesLast (.more some' later)).resolve_right (fun ⟨_,none'⟩ => List.cons_ne_nil _ _ none')
      · exact ih line mem

theorem linesOpen {xs : List α} {lines : List (List α)} (split : Lines sep xs lines) :
    ∀ line ∈ lines, Ended sep line ∨ sep ∉ line := by
  induction split with
  | done => simp
  | more some' later ih =>
    intro line mem
    rcases List.mem_cons.mp mem with rfl | mem
    · exact (cutShape _).imp id And.left
    · exact ih line mem

end HevFsh.LineSplit
