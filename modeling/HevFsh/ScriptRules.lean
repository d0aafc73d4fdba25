import HevFsh.Scripts
import Mathlib.Algebra.BigOperators.Group.Finset.Basic
import Mathlib.Algebra.Order.BigOperators.Group.Finset

/-! What the checker of Scripts is worth: each step of a thread keeps the account of who
has what, and from it no object is used or released that is not there, none is released
twice, and threads wait only for what is going to happen. -/
namespace HevFsh.Scripts
open Transitions

section sums
variable {α : Type} (f : α → Nat) (g : Nat → α) {n i : Nat}

theorem sumUpdate (inside : i < n) (x : α) :
    ∑ j ∈ Finset.range n, f (Function.update g i x j) + f (g i) = ∑ j ∈ Finset.range n, f (g j) + f x := by
  have mem := Finset.mem_range.mpr inside
  have same : ∑ j ∈ (Finset.range n).erase i, f (Function.update g i x j) =
      ∑ j ∈ (Finset.range n).erase i, f (g j) :=
    Finset.sum_congr rfl fun j other => by rw [Function.update_of_ne (Finset.ne_of_mem_erase other)]
  rw [← Finset.add_sum_erase _ _ mem,← Finset.add_sum_erase _ (fun j => f (g j)) mem,same,Function.update_self]
  omega

theorem sumPart (inside : i < n) : f (g i) ≤ ∑ j ∈ Finset.range n, f (g j) :=
  Finset.single_le_sum (f := fun j => f (g j)) (fun _ _ => Nat.zero_le _) (Finset.mem_range.mpr inside)

theorem sumNew (x : α) : ∑ j ∈ Finset.range (n + 1), f (Function.update g n x j) =
    ∑ j ∈ Finset.range n, f (g j) + f x := by
  rw [Finset.sum_range_succ,Function.update_self]
  congr 1
  exact Finset.sum_congr rfl fun j mem => by rw [Function.update_of_ne (Nat.ne_of_lt (Finset.mem_range.mp mem))]

end sums

section invariant
variable {R C F : Type} [DecidableEq R] [DecidableEq C] [DecidableEq F]

def Event.failure (i : Nat) : Event R C F → Option C
  | .called j c false => if j = i then some c else none
  | _ => none

def failed (i : Nat) (log : List (Event R C F)) : List C := log.filterMap (Event.failure i)

def total (n : Nat) (hold : Nat → List (Token R F)) (t : Token R F) : Nat :=
  ∑ i ∈ Finset.range n, (hold i).count t

def packed (rules : Rules R C F) (arcs : List R) (r : R) : Nat := (arcs.flatMap rules.payload).count r

/- Every object that was made and not released is in one thread's hands or in one shared
object; a count says how many references there are. -/
structure Sound (rules : Rules R C F) (σ : State R C F) (log : List (Event R C F))
    (known : Nat → List F) (hold : Nat → List (Token R F)) (arcs : List R) : Prop where
  checked : ∀ i, i < σ.count → (σ.thread i).check rules (known i) (failed i log) (hold i) = true
  ahead : ∀ i, σ.count ≤ i → σ.thread i = .done ∧ hold i = [] ∧ known i = [] ∧ failed i log = []
  objects : ∀ r, log.count (.made r) =
    log.count (.freed r) + total σ.count hold (.object r) + packed rules arcs r
  single : ∀ r, log.count (.made r) + ∑ i ∈ Finset.range σ.count, (σ.thread i).makes r ≤ 1
  shares : ∀ a, total σ.count hold (.share a) = if a ∈ arcs then σ.refs a else 0
  positive : ∀ a ∈ arcs, 0 < σ.refs a
  soles : ∀ i a, .sole a ∈ hold i → a ∈ arcs ∧ ∀ j, j ≠ i → .share a ∉ hold j
  kept : ∀ i f, f ∈ known i → σ.up f = true ∨ 0 < total σ.count hold (.promise f)
  distinct : arcs.Nodup
  own : ∀ a ∈ arcs, a ∈ rules.payload a

variable {rules : Rules R C F} {σ σ' : State R C F} {log es : List (Event R C F)} {known : Nat → List F}
  {hold : Nat → List (Token R F)} {arcs : List R} {i : Nat} {r : R}

omit [DecidableEq R] [DecidableEq C] [DecidableEq F] in
theorem failedAppend : failed i (log ++ es) = failed i log ++ failed i es := List.filterMap_append

theorem heldInside (inv : Sound rules σ log known hold arcs) {t : Token R F} (mem : t ∈ hold i) : i < σ.count := by
  by_contra beyond
  rw [(inv.ahead i (Nat.le_of_not_lt beyond)).2.1] at mem
  simp at mem

theorem heldTotal (inv : Sound rules σ log known hold arcs) (t : Token R F) :
    (hold i).count t ≤ total σ.count hold t := by
  by_cases inside : i < σ.count
  · exact sumPart (fun l => l.count t) hold inside
  · rw [(inv.ahead i (Nat.le_of_not_lt inside)).2.1]
    exact Nat.zero_le _

theorem shareArc (inv : Sound rules σ log known hold arcs) {a : R} (mem : .share a ∈ hold i) : a ∈ arcs := by
  by_contra gone
  have none' := inv.shares a
  rw [if_neg gone] at none'
  have some' := heldTotal inv (i := i) (.share a)
  have here := List.count_pos_iff.mpr mem
  omega

theorem refsShares (inv : Sound rules σ log known hold arcs) {a : R} (mem : .share a ∈ hold i) :
    (hold i).count (.share a) ≤ σ.refs a := by
  have counted := inv.shares a
  rw [if_pos (shareArc inv mem)] at counted
  exact counted ▸ heldTotal inv (.share a)

theorem refsSole (inv : Sound rules σ log known hold arcs) {a : R} (mem : .sole a ∈ hold i) :
    σ.refs a = (hold i).count (.share a) := by
  obtain ⟨arc,others⟩ := inv.soles i a mem
  have counted := inv.shares a
  rw [if_pos arc] at counted
  rw [← counted]
  refine Finset.sum_eq_single i (fun j _ other => List.count_eq_zero.mpr (others j other)) (fun out => ?_)
  exact absurd (Finset.mem_range.mpr (heldInside inv mem)) out

omit [DecidableEq C] [DecidableEq F] in
theorem packedMem {a : R} (arc : a ∈ arcs) (mem : r ∈ rules.payload a) : 0 < packed rules arcs r :=
  List.count_pos_iff.mpr (List.mem_flatMap.mpr ⟨a,arc,mem⟩)

def Alive (r : R) (log : List (Event R C F)) : Prop := .made r ∈ log ∧ .freed r ∉ log

theorem aliveCounts (inv : Sound rules σ log known hold arcs)
    (there : 0 < total σ.count hold (.object r) + packed rules arcs r) : Alive r log := by
  have made := inv.objects r
  have once := inv.single r
  exact ⟨List.count_pos_iff.mp (by omega),List.count_eq_zero.mp (by omega)⟩

theorem aliveHeld (inv : Sound rules σ log known hold arcs) (mem : .object r ∈ hold i) : Alive r log := by
  have here := List.count_pos_iff.mpr mem
  have all := heldTotal inv (i := i) (.object r)
  exact aliveCounts inv (by omega)

theorem aliveShared (inv : Sound rules σ log known hold arcs) {a : R} (mem : .share a ∈ hold i)
    (part : r ∈ rules.payload a) : Alive r log :=
  aliveCounts inv (Nat.lt_of_lt_of_le (packedMem (shareArc inv mem) part) (Nat.le_add_left _ _))

theorem aliveUsable (inv : Sound rules σ log known hold arcs) (may : usable rules r (hold i) = true) :
    Alive r log := by
  obtain ⟨t,mem,is⟩ := List.any_eq_true.mp may
  cases t with
  | object r' =>
    cases of_decide_eq_true is
    exact aliveHeld inv mem
  | share a => exact aliveShared inv mem (of_decide_eq_true is)
  | sole a => contradiction
  | promise f => contradiction

theorem soundMove (inv : Sound rules σ log known hold arcs) (inside : i < σ.count) {s : Script R C F}
    {mine : List (Token R F)} (flags : List F) (arcs' : List R) (refs : R → Nat) (up : F → Bool)
    (checked : s.check rules flags (failed i log ++ failed i es) mine = true)
    (quiet : ∀ j, j ≠ i → failed j es = [])
    (makes : ∀ r, es.count (.made r) + s.makes r ≤ (σ.thread i).makes r)
    (objects : ∀ r, es.count (.made r) + (hold i).count (.object r) + packed rules arcs r =
      es.count (.freed r) + mine.count (.object r) + packed rules arcs' r)
    (shares : ∀ a, mine.count (.share a) + (if a ∈ arcs then σ.refs a else 0) =
      (hold i).count (.share a) + if a ∈ arcs' then refs a else 0)
    (positive : ∀ a ∈ arcs', 0 < refs a)
    (soles : ∀ a, .sole a ∈ mine → a ∈ arcs' ∧ ∀ j, j ≠ i → .share a ∉ hold j)
    (apart : ∀ j a, j ≠ i → .sole a ∈ hold j → a ∈ arcs' ∧ .share a ∉ mine)
    (kept : ∀ f, (f ∈ flags ∨ ∃ j, f ∈ known j) →
      up f = true ∨ 0 < total σ.count (Function.update hold i mine) (.promise f))
    (distinct : arcs'.Nodup) (own : ∀ a ∈ arcs', a ∈ rules.payload a) :
    Sound rules {σ with thread := Function.update σ.thread i s, refs := refs, up := up} (log ++ es)
      (Function.update known i flags) (Function.update hold i mine) arcs' where
  checked j bound := by
    by_cases same : j = i
    · subst same
      simpa only [Function.update_self,failedAppend] using checked
    · simpa only [Function.update_of_ne same,failedAppend,quiet j same,List.append_nil] using inv.checked j bound
  ahead j beyond := by
    have other : j ≠ i := fun same => absurd inside (Nat.not_lt.mpr (same ▸ beyond))
    simpa only [Function.update_of_ne other,failedAppend,quiet j other,List.append_nil] using inv.ahead j beyond
  objects r := by
    have before := inv.objects r
    have moved := sumUpdate (fun l => l.count (.object r)) hold inside mine
    have now := objects r
    simp only [total,List.count_append] at before moved ⊢
    omega
  single r := by
    have before := inv.single r
    have moved := sumUpdate (Script.makes r) σ.thread inside s
    have now := makes r
    simp only [List.count_append]
    omega
  shares a := by
    have before := inv.shares a
    have moved := sumUpdate (fun l => l.count (.share a)) hold inside mine
    have now := shares a
    simp only [total] at before moved ⊢
    omega
  positive := positive
  soles j a mem := by
    by_cases same : j = i
    · subst same
      rw [Function.update_self] at mem
      obtain ⟨arc,others⟩ := soles a mem
      exact ⟨arc,fun k other => by rw [Function.update_of_ne other]; exact others k other⟩
    · rw [Function.update_of_ne same] at mem
      obtain ⟨arc,out⟩ := apart j a same mem
      refine ⟨arc,fun k other => ?_⟩
      by_cases mine' : k = i
      · subst mine'
        rwa [Function.update_self]
      · rw [Function.update_of_ne mine']
        exact (inv.soles j a mem).2 k other
  kept j f mem := by
    by_cases same : j = i
    · subst same
      rw [Function.update_self] at mem
      exact kept f (.inl mem)
    · rw [Function.update_of_ne same] at mem
      exact kept f (.inr ⟨j,mem⟩)
  distinct := distinct
  own := own

theorem keptSame (inv : Sound rules σ log known hold arcs) (inside : i < σ.count) {mine : List (Token R F)} {f : F}
    (same : mine.count (.promise f) = (hold i).count (.promise f)) (mem : f ∈ known i ∨ ∃ j, f ∈ known j) :
    σ.up f = true ∨ 0 < total σ.count (Function.update hold i mine) (.promise f) := by
  have moved := sumUpdate (fun l => l.count (.promise f)) hold inside mine
  have before : σ.up f = true ∨ 0 < total σ.count hold (.promise f) := by
    rcases mem with mem | ⟨j,mem⟩
    · exact inv.kept i f mem
    · exact inv.kept j f mem
  refine before.imp_right (fun some' => ?_)
  simp only [total] at some' ⊢
  omega

theorem soundObjects (inv : Sound rules σ log known hold arcs) (inside : i < σ.count) {s : Script R C F}
    (mine : List (Token R F)) (checked : s.check rules (known i) (failed i log ++ failed i es) mine = true)
    (quiet : ∀ j, j ≠ i → failed j es = [])
    (makes : ∀ r, es.count (.made r) + s.makes r ≤ (σ.thread i).makes r)
    (objects : ∀ r, es.count (.made r) + (hold i).count (.object r) = es.count (.freed r) + mine.count (.object r))
    (same : ∀ t, (∀ r, t ≠ .object r) → mine.count t = (hold i).count t) :
    Sound rules (σ.goto i s) (log ++ es) known (Function.update hold i mine) arcs := by
  have held : ∀ t, (∀ r, t ≠ .object r) → (t ∈ mine ↔ t ∈ hold i) := fun t other => by
    rw [← List.count_pos_iff,same t other,List.count_pos_iff]
  have next := soundMove inv inside (known i) arcs σ.refs σ.up checked quiet makes
    (fun r => by have := objects r; omega) (fun a => by rw [same _ (by simp)]) inv.positive
    (fun a mem => inv.soles i a ((held _ (by simp)).mp mem))
    (fun j a other mem => ⟨(inv.soles j a mem).1,fun mem' =>
      (inv.soles j a mem).2 i (Ne.symm other) ((held _ (by simp)).mp mem')⟩)
    (fun f mem => keptSame inv inside (same _ (by simp)) mem) inv.distinct inv.own
  rwa [Function.update_eq_self] at next

theorem soundShares (inv : Sound rules σ log known hold arcs) (inside : i < σ.count) {s : Script R C F}
    {mine : List (Token R F)} {arcs' : List R} {refs : R → Nat}
    (checked : s.check rules (known i) (failed i log) mine = true) (quiet : ∀ j, failed j es = [])
    (unmade : ∀ r, es.count (.made r) = 0 ∧ es.count (.freed r) = 0)
    (makes : ∀ r, s.makes r ≤ (σ.thread i).makes r)
    (objects : ∀ r, (hold i).count (.object r) + packed rules arcs r =
      mine.count (.object r) + packed rules arcs' r)
    (shares : ∀ a, mine.count (.share a) + (if a ∈ arcs then σ.refs a else 0) =
      (hold i).count (.share a) + if a ∈ arcs' then refs a else 0)
    (positive : ∀ a ∈ arcs', 0 < refs a)
    (soles : ∀ a, .sole a ∈ mine → a ∈ arcs' ∧ ∀ j, j ≠ i → .share a ∉ hold j)
    (apart : ∀ j a, j ≠ i → .sole a ∈ hold j → a ∈ arcs' ∧ .share a ∉ mine)
    (promises : ∀ f, mine.count (.promise f) = (hold i).count (.promise f))
    (distinct : arcs'.Nodup) (own : ∀ a ∈ arcs', a ∈ rules.payload a) :
    Sound rules {σ.goto i s with refs := refs} (log ++ es) known (Function.update hold i mine) arcs' := by
  have next := soundMove inv inside (known i) arcs' refs σ.up
    (by rwa [quiet i,List.append_nil]) (fun j _ => quiet j) (fun r => by rw [(unmade r).1,Nat.zero_add]; exact makes r)
    (fun r => by rw [(unmade r).1,(unmade r).2,Nat.zero_add,Nat.zero_add]; exact objects r) shares positive soles apart
    (fun f mem => keptSame inv inside (promises f) mem) distinct own
  rwa [Function.update_eq_self] at next

theorem soundFlags (inv : Sound rules σ log known hold arcs) (inside : i < σ.count) (es : List (Event R C F))
    {s : Script R C F} (up : F → Bool) (flags : List F) (mine : List (Token R F))
    (checked : s.check rules flags (failed i log ++ failed i es) mine = true)
    (quiet : ∀ j, failed j es = []) (unmade : ∀ r, es.count (.made r) = 0 ∧ es.count (.freed r) = 0)
    (makes : ∀ r, s.makes r ≤ (σ.thread i).makes r)
    (same : ∀ t, (∀ f, t ≠ .promise f) → mine.count t = (hold i).count t)
    (kept : ∀ f, (f ∈ flags ∨ ∃ j, f ∈ known j) →
      up f = true ∨ 0 < total σ.count (Function.update hold i mine) (.promise f)) :
    Sound rules {σ.goto i s with up := up} (log ++ es) (Function.update known i flags)
      (Function.update hold i mine) arcs := by
  have held : ∀ t, (∀ f, t ≠ .promise f) → (t ∈ mine ↔ t ∈ hold i) := fun t other => by
    rw [← List.count_pos_iff,same t other,List.count_pos_iff]
  exact soundMove inv inside flags arcs σ.refs up checked (fun j _ => quiet j)
    (fun r => by have := makes r; have := (unmade r).1; omega)
    (fun r => by rw [same _ (by simp),(unmade r).1,(unmade r).2]) (fun a => by rw [same _ (by simp)]) inv.positive
    (fun a mem => inv.soles i a ((held _ (by simp)).mp mem))
    (fun j a other mem => ⟨(inv.soles j a mem).1,fun mem' =>
      (inv.soles j a mem).2 i (Ne.symm other) ((held _ (by simp)).mp mem')⟩)
    kept inv.distinct inv.own

theorem shareAlone (inv : Sound rules σ log known hold arcs) {a : R} (mem : .share a ∈ hold i)
    (one : σ.refs a = 1) :
    (hold i).count (.share a) = 1 ∧ ∀ j, j ≠ i → .share a ∉ hold j := by
  have counted := inv.shares a
  rw [if_pos (shareArc inv mem),one] at counted
  have here := List.count_pos_iff.mpr mem
  have whole := Finset.add_sum_erase _ (fun j => (hold j).count (.share a)) (Finset.mem_range.mpr (heldInside inv mem))
  simp only [total] at counted
  refine ⟨by omega,fun j other there => ?_⟩
  have part := Finset.single_le_sum (f := fun j => (hold j).count (.share a)) (fun _ _ => Nat.zero_le _)
    (Finset.mem_erase.mpr ⟨other,Finset.mem_range.mpr (heldInside inv there)⟩)
  have some' := List.count_pos_iff.mpr there
  omega

omit [DecidableEq C] in
theorem contentsCount {a : R} : (rules.contents a).count (.object r) = (rules.payload a).count r :=
  List.count_map_of_injective _ _ (fun _ _ same => Token.object.inj same) _

omit [DecidableEq C] in
theorem contentsOther {a : R} {t : Token R F} (other : ∀ r, t ≠ .object r) : (rules.contents a).count t = 0 :=
  List.count_eq_zero.mpr fun mem => by
    obtain ⟨r,_,same⟩ := List.mem_map.mp mem
    exact other r same.symm

omit [DecidableEq C] in
theorem unsoleCount {a : R} {l : List (Token R F)} {t : Token R F} (other : t ≠ .sole a) :
    (unsole a l).count t = l.count t := List.count_filter (by simpa using other)

omit [DecidableEq C] [DecidableEq F] in
theorem packedErase {a : R} (arc : a ∈ arcs) :
    packed rules arcs r = (rules.payload a).count r + packed rules (arcs.erase a) r := by
  have split := ((List.perm_cons_erase arc).flatMap_right rules.payload).count_eq r
  rwa [List.flatMap_cons,List.count_append] at split

theorem quietUsed (r : R) : (∀ j, failed j ([.used r] : List (Event R C F)) = []) ∧
    ∀ r', ([.used r] : List (Event R C F)).count (.made r') = 0 ∧
      ([.used r] : List (Event R C F)).count (.freed r') = 0 :=
  ⟨fun _ => rfl,fun _ => ⟨by simp,by simp⟩⟩

theorem soundPack (inv : Sound rules σ log known hold arcs) (inside : i < σ.count) {s : Script R C F}
    (checked : s.check rules (known i) (failed i log)
      (.sole r :: .share r :: (hold i).diff (rules.contents r)) = true)
    (makes : ∀ r, s.makes r ≤ (σ.thread i).makes r) (part : r ∈ rules.payload r)
    (all : (rules.contents r).Subperm (hold i)) :
    Sound rules {σ.goto i s with refs := Function.update σ.refs r 1} (log ++ [.used r]) known
      (Function.update hold i (.sole r :: .share r :: (hold i).diff (rules.contents r))) (r :: arcs) := by
  have held : .object r ∈ hold i := all.subset (List.mem_map.mpr ⟨r,part,rfl⟩)
  have fresh : r ∉ arcs := by
    intro arc
    have made := inv.objects r
    have once := inv.single r
    have here := List.count_pos_iff.mpr held
    have there := heldTotal inv (i := i) (.object r)
    have inside' := packedMem arc part
    omega
  have other : ∀ a ∈ arcs, a ≠ r := by
    rintro a arc rfl
    exact fresh arc
  have rest : ∀ t, ((hold i).diff (rules.contents r)).count t = (hold i).count t - (rules.contents r).count t :=
    fun t => List.count_diff ..
  have mine : ∀ t ∈ (hold i).diff (rules.contents r), t ∈ hold i := fun t mem => List.diff_subset _ _ mem
  refine soundShares inv inside checked (quietUsed r).1 (quietUsed r).2 makes (fun r' => ?_) (fun a => ?_)
    (fun a mem => ?_) (fun a mem => ?_) (fun j a apart mem => ?_) (fun f => ?_)
    (List.nodup_cons.mpr ⟨fresh,inv.distinct⟩) (fun a mem => ?_)
  · have least := all.count_le (.object r')
    rw [contentsCount] at least
    simp only [packed,List.flatMap_cons,List.count_append,List.count_cons_of_ne,ne_eq,reduceCtorEq,
      not_false_eq_true,rest,contentsCount]
    omega
  · have none' : (rules.contents r).count (.share a) = 0 := contentsOther (by simp)
    simp only [List.count_cons,rest,none',Nat.sub_zero]
    by_cases same : a = r
    · subst same
      simp [fresh]
    · simp [same,Ne.symm same]
  · rcases List.mem_cons.mp mem with rfl | old
    · simp
    · rw [Function.update_of_ne (other a old)]
      exact inv.positive a old
  · rcases List.mem_cons.mp mem with same | old
    · cases same
      exact ⟨List.mem_cons_self,fun j _ there => fresh (shareArc inv there)⟩
    · rcases List.mem_cons.mp old with same | old
      · contradiction
      · obtain ⟨arc,others⟩ := inv.soles i a (mine _ old)
        exact ⟨List.mem_cons_of_mem _ arc,others⟩
  · obtain ⟨arc,others⟩ := inv.soles j a mem
    refine ⟨List.mem_cons_of_mem _ arc,fun here => ?_⟩
    rcases List.mem_cons.mp here with same | here
    · contradiction
    · rcases List.mem_cons.mp here with same | old
      · cases same; exact fresh arc
      · exact others i (Ne.symm apart) (mine _ old)
  · have none' : (rules.contents r).count (.promise f) = 0 := contentsOther (by simp)
    simp [rest,none']
  · rcases List.mem_cons.mp mem with rfl | old
    · exact part
    · exact inv.own a old

theorem soundUnpack (inv : Sound rules σ log known hold arcs) (inside : i < σ.count)
    {s : Script R C F} (refs : R → Nat)
    (checked : s.check rules (known i) (failed i log)
      (rules.contents r ++ unsole r ((hold i).erase (.share r))) = true)
    (quiet : ∀ j, failed j es = []) (unmade : ∀ r, es.count (.made r) = 0 ∧ es.count (.freed r) = 0)
    (makes : ∀ r, s.makes r ≤ (σ.thread i).makes r) (mem : .share r ∈ hold i)
    (refs' : ∀ a, a ≠ r → refs a = σ.refs a)
    (one : σ.refs r = 1) :
    Sound rules {σ.goto i s with refs := refs} (log ++ es) known
      (Function.update hold i (rules.contents r ++ unsole r ((hold i).erase (.share r)))) (arcs.erase r) := by
  have arc := shareArc inv mem
  obtain ⟨count,alone⟩ := shareAlone inv mem one
  have inArcs : ∀ a, a ∈ arcs.erase r ↔ a ≠ r ∧ a ∈ arcs := fun a => inv.distinct.mem_erase_iff
  have mine : ∀ t, (∀ r, t ≠ .object r) → t ∈ rules.contents r ++ unsole r ((hold i).erase (.share r)) →
      t ∈ hold i ∧ t ≠ .sole r ∧ t ≠ .share r := by
    intro t other mem'
    rcases List.mem_append.mp mem' with mem' | mem'
    · have none' : (rules.contents r).count t = 0 := contentsOther other
      exact absurd mem' (List.count_eq_zero.mp none')
    · obtain ⟨mem',away⟩ := List.mem_filter.mp mem'
      refine ⟨List.mem_of_mem_erase mem',by simpa using away,?_⟩
      rintro rfl
      have left := List.count_pos_iff.mpr mem'
      rw [List.count_erase_self] at left
      omega
  have counts : ∀ t, (rules.contents r ++ unsole r ((hold i).erase (.share r))).count t =
      (rules.contents r).count t + (unsole r ((hold i).erase (.share r))).count t := fun t => List.count_append
  refine soundShares inv inside checked quiet unmade makes (fun r' => ?_) (fun a => ?_) (fun a mem' => ?_)
    (fun a mem' => ?_) (fun j a apart mem' => ?_) (fun f => ?_) (inv.distinct.erase r) (fun a mem' => ?_)
  · rw [counts,contentsCount,unsoleCount (by simp),List.count_erase_of_ne (by simp),packedErase arc]
    omega
  · rw [counts,contentsOther (by simp),unsoleCount (by simp)]
    by_cases same : a = r
    · subst same
      simp [arc,inArcs,one]
      omega
    · rw [List.count_erase_of_ne (by simpa using same)]
      simp [inArcs,same,refs']
  · obtain ⟨other,old⟩ := (inArcs a).mp mem'
    rw [refs' a other]
    exact inv.positive a old
  · obtain ⟨old,other,_⟩ := mine _ (by simp) mem'
    obtain ⟨arc',others⟩ := inv.soles i a old
    exact ⟨(inArcs a).mpr ⟨fun same => other (by rw [same]),arc'⟩,others⟩
  · obtain ⟨arc',others⟩ := inv.soles j a mem'
    refine ⟨(inArcs a).mpr ⟨?_,arc'⟩,fun here => others i (Ne.symm apart) (mine _ (by simp) here).1⟩
    rintro rfl
    exact others i (Ne.symm apart) mem
  · rw [counts,contentsOther (by simp),unsoleCount (by simp),List.count_erase_of_ne (by simp),Nat.zero_add]
  · exact inv.own a ((inArcs a).mp mem').2

theorem soundCount (inv : Sound rules σ log known hold arcs) (inside : i < σ.count) {s : Script R C F}
    {mine : List (Token R F)} {n : Nat} (checked : s.check rules (known i) (failed i log) mine = true)
    (makes : ∀ r, s.makes r ≤ (σ.thread i).makes r) (mem : .share r ∈ hold i)
    (same : ∀ t, t ≠ .share r → mine.count t = (hold i).count t)
    (count : mine.count (.share r) + σ.refs r = (hold i).count (.share r) + n) (positive : 0 < n) :
    Sound rules {σ.goto i s with refs := Function.update σ.refs r n} (log ++ [.used r]) known
      (Function.update hold i mine) arcs := by
  have arc := shareArc inv mem
  have held : ∀ t, t ≠ .share r → (t ∈ mine ↔ t ∈ hold i) := fun t other => by
    rw [← List.count_pos_iff,same t other,List.count_pos_iff]
  refine soundShares inv inside checked (quietUsed r).1 (quietUsed r).2 makes (fun r' => by rw [same _ (by simp)])
    (fun a => ?_) (fun a arc' => ?_) (fun a mem' => inv.soles i a ((held _ (by simp)).mp mem'))
    (fun j a apart mem' => ?_) (fun f => same _ (by simp)) inv.distinct inv.own
  · by_cases is : a = r
    · subst is
      rw [if_pos arc,if_pos arc,Function.update_self,count]
    · rw [same _ (by simpa using is),Function.update_of_ne is]
  · by_cases is : a = r
    · subst is
      rwa [Function.update_self]
    · rw [Function.update_of_ne is]
      exact inv.positive a arc'
  · obtain ⟨arc',others⟩ := inv.soles j a mem'
    have away := others i (Ne.symm apart)
    refine ⟨arc',fun here => away ?_⟩
    by_cases is : a = r
    · rwa [is]
    · exact (held _ (by simpa using is)).mp here

omit [DecidableEq C] in
theorem remainsCount {l given : List (Token R F)} {t : Token R F} (other : ∀ a, t ≠ .sole a) :
    (remains l given).count t = l.count t - given.count t := by
  rw [remains,List.count_filter,List.count_diff]
  cases t with
  | sole a => exact absurd rfl (other a)
  | _ => rfl

omit [DecidableEq C] in
theorem remainsMem {l given : List (Token R F)} {t : Token R F} (mem : t ∈ remains l given) :
    t ∈ l ∧ ∀ a, t = .sole a → .share a ∉ given := by
  obtain ⟨mem,away⟩ := List.mem_filter.mp mem
  refine ⟨List.diff_subset _ _ mem,?_⟩
  rintro a rfl
  simpa using away

omit [DecidableEq R] [DecidableEq C] [DecidableEq F] in
theorem noSoleMem {given : List (Token R F)} (none' : noSole given = true) {a : R} : .sole a ∉ given := by
  intro mem
  have is := List.all_eq_true.mp none' _ mem
  contradiction

theorem soundFork (inv : Sound rules σ log known hold arcs) (inside : i < σ.count) {child s : Script R C F}
    {given : List (Token R F)} (none' : noSole given = true) (all : given.Subperm (hold i))
    (checked : child.check rules (known i) [] given = true)
    (checked' : s.check rules (known i) (failed i log) (remains (hold i) given) = true)
    (makes : ∀ r, child.makes r + s.makes r ≤ (σ.thread i).makes r) :
    Sound rules {(σ.goto i s).goto σ.count child with count := σ.count + 1} log
      (Function.update known σ.count (known i))
      (Function.update (Function.update hold i (remains (hold i) given)) σ.count given) arcs := by
  have here : i ≠ σ.count := Nat.ne_of_lt inside
  have totals : ∀ t, (∀ a, t ≠ .sole a) → total (σ.count + 1)
      (Function.update (Function.update hold i (remains (hold i) given)) σ.count given) t = total σ.count hold t := by
    intro t other
    have new := sumNew (fun l => l.count t) (Function.update hold i (remains (hold i) given)) (n := σ.count) given
    have moved := sumUpdate (fun l => l.count t) hold inside (remains (hold i) given)
    have least := all.count_le t
    simp only [remainsCount other] at moved
    simp only [total] at new ⊢
    omega
  refine ⟨fun j bound => ?_,fun j beyond => ?_,fun r => ?_,fun r => ?_,fun a => ?_,inv.positive,fun j a mem => ?_,
    fun j f mem => ?_,inv.distinct,inv.own⟩
  · by_cases new : j = σ.count
    · subst new
      simpa only [State.goto,Function.update_self,(inv.ahead _ (Nat.le_refl _)).2.2.2] using checked
    · have bound' : j < σ.count := by
        have := Nat.lt_succ_iff.mp bound
        omega
      by_cases same : j = i
      · subst same
        simpa only [State.goto,Function.update_self,Function.update_of_ne new] using checked'
      · simpa only [State.goto,Function.update_of_ne new,Function.update_of_ne same] using inv.checked j bound'
  · have beyond' : σ.count + 1 ≤ j := beyond
    have new : j ≠ σ.count := by omega
    have other : j ≠ i := by omega
    simpa only [State.goto,Function.update_of_ne new,Function.update_of_ne other] using inv.ahead j (by omega)
  · rw [totals _ (by simp)]
    exact inv.objects r
  · have before := inv.single r
    have moved := sumUpdate (Script.makes r) σ.thread inside s
    have new := sumNew (Script.makes r) (Function.update σ.thread i s) (n := σ.count) child
    have now := makes r
    simp only [State.goto]
    omega
  · rw [totals _ (by simp)]
    exact inv.shares a
  · have mine : ∀ t ∈ given, t ∈ hold i := fun t mem => all.subset mem
    by_cases new : j = σ.count
    · subst new
      rw [Function.update_self] at mem
      exact absurd mem (noSoleMem none')
    rw [Function.update_of_ne new] at mem
    by_cases same : j = i
    · subst same
      rw [Function.update_self] at mem
      obtain ⟨old,away⟩ := remainsMem mem
      obtain ⟨arc,others⟩ := inv.soles j a old
      refine ⟨arc,fun k other => ?_⟩
      by_cases new' : k = σ.count
      · subst new'
        rw [Function.update_self]
        exact away a rfl
      · rw [Function.update_of_ne new',Function.update_of_ne other]
        exact others k other
    · rw [Function.update_of_ne same] at mem
      obtain ⟨arc,others⟩ := inv.soles j a mem
      have away := others i (Ne.symm same)
      refine ⟨arc,fun k other => ?_⟩
      by_cases new' : k = σ.count
      · subst new'
        rw [Function.update_self]
        exact fun here => away (mine _ here)
      · rw [Function.update_of_ne new']
        by_cases is : k = i
        · subst is
          rw [Function.update_self]
          exact fun here => away (remainsMem here).1
        · rw [Function.update_of_ne is]
          exact others k other
  · rw [totals _ (by simp)]
    by_cases new : j = σ.count
    · subst new
      rw [Function.update_self] at mem
      exact inv.kept i f mem
    · rw [Function.update_of_ne new] at mem
      exact inv.kept j f mem

end invariant

section steps
variable {R C F : Type} [DecidableEq R] [DecidableEq C] [DecidableEq F]

def Allowed (rules : Rules R C F) (σ : State R C F) (a : Nat × Bool) : Prop :=
  match σ.thread a.1 with
  | .call c _ _ _ => rules.may c a.2 = true
  | _ => True

instance (rules : Rules R C F) (σ : State R C F) (a : Nat × Bool) : Decidable (Allowed rules σ a) := by
  unfold Allowed
  split <;> infer_instance

variable {rules : Rules R C F} {σ σ' : State R C F} {log es : List (Event R C F)} {known : Nat → List F}
  {hold : Nat → List (Token R F)} {arcs : List R} {i : Nat} {r : R}

def Accounted (rules : Rules R C F) (σ : State R C F) (log : List (Event R C F)) : Prop :=
  ∃ known hold arcs, Sound rules σ log known hold arcs

def Careful (log es : List (Event R C F)) : Prop :=
  ∀ e ∈ es, ∀ r, e = .used r ∨ e = .freed r → es = [e] ∧ Alive r log

omit [DecidableEq R] [DecidableEq C] [DecidableEq F] in
theorem carefulNothing : Careful log [] := by simp [Careful]

omit [DecidableEq R] [DecidableEq C] [DecidableEq F] in
theorem carefulUsed (alive : Alive r log) : Careful log [.used r] := by
  intro e mem r' is
  rw [List.mem_singleton.mp mem] at is ⊢
  rcases is with same | same
  · cases same; exact ⟨rfl,alive⟩
  · contradiction

theorem countMade (l : List R) : (l.map (Event.made (C := C) (F := F))).count (.made r) = l.count r :=
  List.count_map_of_injective _ _ (fun _ _ same => Event.made.inj same) _

theorem soundCall (inv : Sound rules σ log known hold arcs) (inside : i < σ.count) {c : C} {made : List R}
    {yes no : Script R C F} (here : σ.thread i = .call c made yes no) {ok : Bool} (may : rules.may c ok = true) :
    Accounted rules (σ.goto i (if ok then yes else no))
      (log ++ if ok then .called i c true :: made.map .made else [.called i c false]) := by
  have checked := inv.checked i inside
  rw [here,Script.check,Bool.and_eq_true,Bool.or_eq_true,Bool.or_eq_true] at checked
  cases ok with
  | true =>
    have checked' := checked.1.resolve_left (by simp [may])
    have quiet : ∀ j, failed j (.called i c true :: made.map (Event.made (F := F))) = [] := by
      intro j
      refine List.filterMap_eq_nil_iff.mpr (fun e mem => ?_)
      rcases List.mem_cons.mp mem with rfl | mem
      · rfl
      · obtain ⟨r,_,rfl⟩ := List.mem_map.mp mem
        rfl
    refine ⟨known,_,arcs,soundObjects inv inside (made.map .object ++ hold i) ?_ (fun j _ => quiet j)
      (fun r => ?_) (fun r => ?_) (fun t other => ?_)⟩
    · rw [if_pos rfl,if_pos rfl,quiet i,List.append_nil]
      exact checked'
    · rw [if_pos rfl,if_pos rfl,here,Script.makes,List.count_cons_of_ne (by simp),countMade]
      exact Nat.le_max_left _ _
    · have none' : (made.map (Event.made (C := C) (F := F))).count (.freed r) = 0 :=
        List.count_eq_zero.mpr (by simp)
      have objects : (made.map (Token.object (F := F))).count (.object r) = made.count r :=
        List.count_map_of_injective _ _ (fun _ _ same => Token.object.inj same) _
      rw [if_pos rfl,List.count_cons_of_ne (by simp),List.count_cons_of_ne (by simp),countMade,none',
        List.count_append,objects,Nat.zero_add]
    · rw [List.count_append,List.count_eq_zero.mpr,Nat.zero_add]
      intro mem
      obtain ⟨r,_,same⟩ := List.mem_map.mp mem
      exact other r same.symm
  | false =>
    have checked' := checked.2.resolve_left (by simp [may])
    refine ⟨known,_,arcs,soundObjects inv inside (hold i) ?_ (fun j other => ?_) (fun r => ?_) (fun r => ?_)
      (fun t _ => rfl)⟩
    · simpa [failed,Event.failure] using checked'
    · simp [failed,Event.failure,Ne.symm other]
    · rw [here,Script.makes]
      simp
    · simp

theorem soundStep (inv : Sound rules σ log known hold arcs) {a : Nat × Bool} (allowed : Allowed rules σ a)
    (taken : step σ a = some (σ',es)) : Accounted rules σ' (log ++ es) ∧ Careful log es := by
  obtain ⟨i,ok⟩ := a
  have inside : i < σ.count := by
    by_contra beyond
    simp [step,(inv.ahead i (Nat.le_of_not_lt beyond)).1] at taken
  have checked := inv.checked i inside
  unfold Allowed at allowed
  cases here : σ.thread i with
  | done => simp [step,here] at taken
  | call c made yes no =>
    simp only [here] at allowed
    have sound := soundCall inv inside here allowed
    simp only [step,here,Option.some.injEq] at taken
    cases ok with
    | true =>
      cases taken
      refine ⟨sound,fun e mem r is => ?_⟩
      rcases List.mem_cons.mp mem with rfl | mem
      · rcases is with is | is <;> contradiction
      · obtain ⟨r',_,rfl⟩ := List.mem_map.mp mem
        rcases is with is | is <;> contradiction
    | false =>
      cases taken
      refine ⟨sound,fun e mem r is => ?_⟩
      rw [List.mem_singleton.mp mem] at is
      rcases is with is | is <;> contradiction
  | use r next =>
    simp only [step,here,Option.some.injEq] at taken
    cases taken
    rw [here,Script.check,Bool.and_eq_true] at checked
    refine ⟨⟨known,_,arcs,soundObjects inv inside (hold i) ?_ (fun j _ => rfl) (fun r' => ?_) (fun r' => ?_)
      (fun t _ => rfl)⟩,carefulUsed (aliveUsable inv checked.1)⟩
    · rw [show failed i [Event.used r] = [] from rfl,List.append_nil]
      exact checked.2
    · rw [here,Script.makes,((quietUsed r).2 r').1,Nat.zero_add]
    · rw [((quietUsed r).2 r').1,((quietUsed r).2 r').2]
  | free r next =>
    simp only [step,here,Option.some.injEq] at taken
    cases taken
    rw [here,Script.check,Bool.and_eq_true,decide_eq_true_eq] at checked
    refine ⟨⟨known,_,arcs,soundObjects inv inside ((hold i).erase (.object r)) ?_ (fun j _ => rfl) (fun r' => ?_)
      (fun r' => ?_) (fun t other => List.count_erase_of_ne (other r))⟩,fun e mem r' is => ?_⟩
    · rw [show failed i [Event.freed r] = [] from rfl,List.append_nil]
      exact checked.2
    · rw [here,Script.makes]
      simp
    · by_cases same : r' = r
      · subst same
        have some' := List.count_pos_iff.mpr checked.1
        rw [List.count_erase_self,List.count_singleton_self]
        simp
        omega
      · have unmade : ([.freed r] : List (Event R C F)).count (.made r') = 0 := List.count_eq_zero.mpr (by simp)
        have unfreed : ([.freed r] : List (Event R C F)).count (.freed r') = 0 :=
          List.count_eq_zero.mpr (by simpa using same)
        rw [List.count_erase_of_ne (by simpa using same),unmade,unfreed]
    · rw [List.mem_singleton.mp mem] at is ⊢
      rcases is with is | is
      · contradiction
      · cases is
        exact ⟨rfl,aliveHeld inv checked.1⟩
  | pack r next =>
    simp only [step,here,Option.some.injEq] at taken
    cases taken
    rw [here,Script.check,Bool.and_eq_true,Bool.and_eq_true,decide_eq_true_eq,decide_eq_true_eq] at checked
    obtain ⟨⟨part,all⟩,checked⟩ := checked
    refine ⟨⟨known,_,_,soundPack inv inside checked (fun r' => by rw [here,Script.makes]) part all⟩,
        carefulUsed ?_⟩
    exact aliveHeld inv (all.subset (List.mem_map.mpr ⟨r,part,rfl⟩))
  | unpack r next =>
    simp only [step,here,Option.some.injEq] at taken
    cases taken
    rw [here,Script.check,Bool.and_eq_true,Bool.and_eq_true,decide_eq_true_eq,decide_eq_true_eq] at checked
    obtain ⟨⟨sole,one⟩,checked⟩ := checked
    refine ⟨⟨known,_,_,soundUnpack inv inside σ.refs checked (fun _ => rfl) (fun _ => ⟨rfl,rfl⟩)
      (fun r' => by rw [here,Script.makes]) (List.count_pos_iff.mp (by omega)) (fun _ _ => rfl) ?_⟩,carefulNothing⟩
    rw [refsSole inv sole,one]
  | share r next =>
    simp only [step,here,Option.some.injEq] at taken
    cases taken
    rw [here,Script.check,Bool.and_eq_true,decide_eq_true_eq] at checked
    obtain ⟨mem,checked⟩ := checked
    refine ⟨⟨known,_,arcs,soundCount inv inside checked (fun r' => by rw [here,Script.makes]) mem
      (fun t other => List.count_cons_of_ne (Ne.symm other)) ?_ (Nat.succ_pos _)⟩,
      carefulUsed (aliveShared inv mem (inv.own r (shareArc inv mem)))⟩
    rw [List.count_cons_self]
    omega
  | drop r last next =>
    simp only [step,here,Option.some.injEq] at taken
    cases taken
    rw [here,Script.check,Bool.and_eq_true,Bool.and_eq_true,Bool.or_eq_true,Bool.or_eq_true,decide_eq_true_eq,
      decide_eq_true_eq,decide_eq_true_eq] at checked
    obtain ⟨⟨mem,checkedLast⟩,checkedNext⟩ := checked
    refine ⟨?_,carefulUsed (aliveShared inv mem (inv.own r (shareArc inv mem)))⟩
    have least := refsShares inv mem
    by_cases one : σ.refs r = 1
    · have checked := checkedLast.resolve_left (by omega)
      rw [if_pos one]
      refine ⟨known,_,_,soundUnpack inv inside _ checked (quietUsed r).1 (quietUsed r).2 (fun r' => ?_) mem
        (fun a other => Function.update_of_ne other _ _) one⟩
      rw [here,Script.makes]
      exact Nat.le_max_left _ _
    · have checked := checkedNext.resolve_left (fun ⟨count,sole⟩ => one (by rw [refsSole inv sole,count]))
      have positive := inv.positive r (shareArc inv mem)
      have some' := List.count_pos_iff.mpr mem
      rw [if_neg one]
      refine ⟨known,_,arcs,soundCount inv inside checked (fun r' => ?_) mem
        (fun t other => List.count_erase_of_ne other) ?_ (by omega)⟩
      · rw [here,Script.makes]
        exact Nat.le_max_right _ _
      · rw [List.count_erase_self]
        omega
  | promise f next =>
    simp only [step,here,Option.some.injEq] at taken
    cases taken
    rw [here,Script.check] at checked
    refine ⟨⟨_,_,arcs,soundFlags inv inside [] σ.up _ _ (by rwa [show failed i [] = ([] : List C) from rfl,
      List.append_nil]) (fun _ => rfl) (fun _ => ⟨rfl,rfl⟩) (fun r' => by rw [here,Script.makes])
      (fun t other => List.count_cons_of_ne (Ne.symm (other f))) (fun g mem => ?_)⟩,carefulNothing⟩
    have moved := sumUpdate (fun l => l.count (.promise g)) hold inside (.promise f :: hold i)
    by_cases same : g = f
    · subst same
      simp only [List.count_cons_self] at moved
      exact .inr (by simp only [total]; omega)
    · refine keptSame inv inside ?_ (mem.imp_left fun mem => (List.mem_cons.mp mem).resolve_left same)
      exact List.count_cons_of_ne (by simpa using Ne.symm same)
  | signal f next =>
    simp only [step,here,Option.some.injEq] at taken
    cases taken
    rw [here,Script.check,Bool.and_eq_true,decide_eq_true_eq] at checked
    refine ⟨⟨_,_,arcs,soundFlags inv inside [.signalled f] _ (known i) _ (by
      rw [show failed i [Event.signalled f] = ([] : List C) from rfl,List.append_nil]; exact checked.2) (fun _ => rfl)
      (fun _ => ⟨by simp,by simp⟩) (fun r' => by rw [here,Script.makes])
      (fun t other => List.count_erase_of_ne (other f)) (fun g mem => ?_)⟩,fun e mem r is => ?_⟩
    · by_cases same : g = f
      · exact .inl (by rw [same,Function.update_self])
      · rw [Function.update_of_ne same]
        exact keptSame inv inside (List.count_erase_of_ne (by simpa using same)) mem
    · rw [List.mem_singleton.mp mem] at is
      rcases is with is | is <;> contradiction
  | await f next =>
    simp only [step,here] at taken
    split at taken <;> try contradiction
    cases taken
    rw [here,Script.check,Bool.and_eq_true] at checked
    refine ⟨⟨_,_,arcs,soundFlags inv inside [] σ.up (known i) (hold i) ?_ (fun _ => rfl)
      (fun _ => ⟨rfl,rfl⟩) (fun r' => by rw [here,Script.makes]) (fun _ _ => rfl)
      (fun g mem => keptSame inv inside rfl mem)⟩,carefulNothing⟩
    rw [show failed i [] = ([] : List C) from rfl,List.append_nil]
    exact checked.2
  | fork given child next =>
    simp only [step,here,Option.some.injEq] at taken
    cases taken
    rw [here,Script.check,Bool.and_eq_true,Bool.and_eq_true,Bool.and_eq_true,decide_eq_true_eq] at checked
    obtain ⟨⟨⟨none',all⟩,checked⟩,checked'⟩ := checked
    rw [List.append_nil]
    exact ⟨⟨_,_,arcs,soundFork inv inside none' all checked checked' (fun r' => by rw [here,Script.makes])⟩,
        carefulNothing⟩

theorem soundStart {main : Script R C F} (checked : main.check rules [] [] [] = true)
    (single : ∀ r, main.makes r ≤ 1) : Sound rules (start main) [] (fun _ => []) (fun _ => []) [] where
  checked i inside := by
    rw [show i = 0 from Nat.lt_one_iff.mp inside]
    exact checked
  ahead i beyond := by
    have other : i ≠ 0 := Nat.pos_iff_ne_zero.mp beyond
    exact ⟨by simp [start,other],rfl,rfl,rfl⟩
  objects r := by simp [total,packed]
  single r := by simpa [start] using single r
  shares a := by simp [total]
  positive a mem := by simp at mem
  soles i a mem := by simp at mem
  kept i f mem := by simp at mem
  distinct := List.nodup_nil
  own a mem := by simp at mem

end steps

section runs
variable {R C F : Type} [DecidableEq R] [DecidableEq C] [DecidableEq F]

def events (log : Log (State R C F) (Event R C F)) : List (Event R C F) := log.map Prod.snd

variable {rules : Rules R C F} {main : Script R C F} {σ : State R C F} {log : Log (State R C F) (Event R C F)}

omit [DecidableEq R] [DecidableEq C] [DecidableEq F] in
theorem eventsNext {es : List (Event R C F)} : events (log ++ es.map (σ,·)) = events log ++ es := by
  simp [events,Function.comp_def]

structure Passes (rules : Rules R C F) (main : Script R C F) : Prop where
  checked : main.check rules [] [] [] = true
  single : ∀ r, main.makes r ≤ 1

theorem runAccounted (passes : Passes rules main) (run : Run (machine main) (Allowed rules) σ log) :
    Accounted rules σ (events log) := by
  refine runInvariant (P := fun σ log => Accounted rules σ (events log))
    ⟨_,_,_,soundStart passes.checked passes.single⟩ ?_ run
  rintro s log a s' es run allowed taken ⟨known,hold,arcs,inv⟩
  rw [eventsNext]
  exact (soundStep inv allowed taken).1

omit [DecidableEq R] [DecidableEq C] [DecidableEq F] in
theorem failedCalled {i : Nat} {c : C} {es : List (Event R C F)} : c ∈ failed i es ↔ .called i c false ∈ es := by
  refine List.mem_filterMap.trans ⟨?_,fun mem => ⟨_,mem,by simp [Event.failure]⟩⟩
  rintro ⟨e,mem,is⟩
  cases e with
  | called j c' ok =>
    cases ok with
    | true => contradiction
    | false =>
      simp only [Event.failure,Option.ite_none_right_eq_some,Option.some.injEq] at is
      obtain ⟨rfl,rfl⟩ := is
      exact mem
  | _ => contradiction

theorem failedInside (passes : Passes rules main) (run : Run (machine main) (Allowed rules) σ log) {i : Nat} {c : C}
    (mem : c ∈ failed i (events log)) : i < σ.count := by
  obtain ⟨known,hold,arcs,inv⟩ := runAccounted passes run
  by_contra beyond
  rw [(inv.ahead i (Nat.le_of_not_lt beyond)).2.2.2] at mem
  simp at mem

theorem runOnce (passes : Passes rules main) (run : Run (machine main) (Allowed rules) σ log) (r : R) :
    (events log).count (.made r) ≤ 1 := by
  obtain ⟨known,hold,arcs,inv⟩ := runAccounted passes run
  exact Nat.le_trans (Nat.le_add_right _ _) (inv.single r)

theorem runFreed (passes : Passes rules main) (run : Run (machine main) (Allowed rules) σ log) (r : R) :
    (events log).count (.freed r) ≤ (events log).count (.made r) := by
  obtain ⟨known,hold,arcs,inv⟩ := runAccounted passes run
  have objects := inv.objects r
  omega

theorem runCareful (passes : Passes rules main) (run : Run (machine main) (Allowed rules) σ log)
    {before after : Log (State R C F) (Event R C F)} {s : State R C F} {e : Event R C F} {r : R}
    (split : log = before ++ (s,e) :: after) (touches : e = .used r ∨ e = .freed r) : Alive r (events before) := by
  obtain ⟨pre,a,s₂,es₁,es₂,run',allowed,taken,left,_⟩ := runAt run split
  obtain ⟨known,hold,arcs,inv⟩ := runAccounted passes run'
  obtain ⟨alone,alive⟩ := (soundStep inv allowed taken).2 e (by simp) r touches
  have first : es₁ = [] := by
    have size := congrArg List.length alone
    simp only [List.length_append,List.length_cons,List.length_nil] at size
    exact List.eq_nil_of_length_eq_zero (by omega)
  rw [left,first]
  simpa using alive

theorem restReturned (passes : Passes rules main) (plain : ∀ fails a, .share a ∉ rules.left fails)
    (run : Run (machine main) (Allowed rules) σ log) (rest : AtRest σ) (r : R) :
    Alive r (events log) ↔ ∃ i < σ.count, .object r ∈ rules.left (failed i (events log)) := by
  obtain ⟨known,hold,arcs,inv⟩ := runAccounted passes run
  have leaves : ∀ i, i < σ.count → ∀ t, t ∈ hold i ↔ t ∈ rules.left (failed i (events log)) := by
    intro i inside t
    have checked := inv.checked i inside
    rw [rest i,Script.check,decide_eq_true_eq] at checked
    exact checked.mem_iff
  have found : ∀ t, 0 < total σ.count hold t → ∃ i < σ.count, t ∈ rules.left (failed i (events log)) := by
    intro t some'
    obtain ⟨i,mem,held⟩ := Finset.exists_ne_zero_of_sum_ne_zero (Nat.ne_of_gt some')
    have inside := Finset.mem_range.mp mem
    exact ⟨i,inside,(leaves i inside t).mp (List.count_pos_iff.mp (Nat.pos_of_ne_zero held))⟩
  have empty : arcs = [] := by
    rw [List.eq_nil_iff_forall_not_mem]
    intro a arc
    have positive := inv.positive a arc
    have counted := inv.shares a
    rw [if_pos arc] at counted
    obtain ⟨i,_,mem⟩ := found (.share a) (by omega)
    exact plain _ a mem
  constructor
  · rintro ⟨made,unfreed⟩
    have objects := inv.objects r
    have here := List.count_pos_iff.mpr made
    have gone := List.count_eq_zero.mpr unfreed
    rw [empty,show packed rules [] r = 0 from rfl] at objects
    exact found (.object r) (by omega)
  · rintro ⟨i,inside,mem⟩
    exact aliveHeld inv ((leaves i inside _).mpr mem)

omit [DecidableEq C] in
theorem goesOrWaits (possible : ∀ c, rules.may c true = true ∨ rules.may c false = true)
    (stuck : Stuck (machine main) (Allowed rules) σ) (i : Nat) :
    σ.thread i = .done ∨ ∃ f next, σ.thread i = .await f next ∧ σ.up f = false := by
  by_contra neither
  obtain ⟨busy,unwaiting⟩ := not_or.mp neither
  have goes : ∃ ok, Allowed rules σ (i,ok) ∧ (step σ (i,ok)).isSome = true := by
    cases here : σ.thread i with
    | done => contradiction
    | call c made yes no =>
      rcases possible c with may | may
      · exact ⟨true,by simpa [Allowed,here] using may,by simp [step,here]⟩
      · exact ⟨false,by simpa [Allowed,here] using may,by simp [step,here]⟩
    | await f next =>
      have up : σ.up f = true := by
        by_contra down
        exact unwaiting ⟨f,next,here,by simpa using down⟩
      exact ⟨true,by simp [Allowed,here],by simp [step,here,up]⟩
    | _ => exact ⟨true,by simp [Allowed,here],by simp [step,here]⟩
  obtain ⟨ok,allowed,some'⟩ := goes
  obtain ⟨⟨σ',es⟩,taken⟩ := Option.isSome_iff_exists.mp some'
  exact stuck (i,ok) σ' es allowed taken

theorem stuckRests (passes : Passes rules main) (possible : ∀ c, rules.may c true = true ∨ rules.may c false = true)
    (run : Run (machine main) (Allowed rules) σ log)
    (dutiful : ∀ i < σ.count, ∀ f, .promise f ∉ rules.left (failed i (events log)))
    (stuck : Stuck (machine main) (Allowed rules) σ) : AtRest σ := by
  obtain ⟨known,hold,arcs,inv⟩ := runAccounted passes run
  have never : ∀ n f i next, rules.level f = n → σ.thread i = .await f next → σ.up f = false → False := by
    intro n
    induction n using Nat.strongRecOn with
    | ind n ih =>
      intro f i next level here down
      have inside : i < σ.count := by
        by_contra beyond
        rw [(inv.ahead i (Nat.le_of_not_lt beyond)).1] at here
        contradiction
      have checked := inv.checked i inside
      rw [here,Script.check,Bool.and_eq_true,Bool.and_eq_true,decide_eq_true_eq] at checked
      have some' := (inv.kept i f checked.1.1).resolve_left (by simp [down])
      obtain ⟨j,mem,held⟩ := Finset.exists_ne_zero_of_sum_ne_zero (Nat.ne_of_gt some')
      have inside' := Finset.mem_range.mp mem
      have owes : .promise f ∈ hold j := List.count_pos_iff.mp (Nat.pos_of_ne_zero held)
      have checked' := inv.checked j inside'
      rcases goesOrWaits possible stuck j with done | ⟨g,next',waits,down'⟩
      · rw [done,Script.check,decide_eq_true_eq] at checked'
        exact dutiful j inside' f (checked'.mem_iff.mp owes)
      · rw [waits,Script.check,Bool.and_eq_true,Bool.and_eq_true] at checked'
        have lower := of_decide_eq_true (List.all_eq_true.mp checked'.1.2 _ owes)
        exact ih _ (level ▸ lower) g j next' rfl waits down'
  intro i
  rcases goesOrWaits possible stuck i with done | ⟨f,next,here,down⟩
  · exact done
  · exact (never _ f i next rfl here down).elim

def remaining (σ : State R C F) : Nat := ∑ i ∈ Finset.range σ.count, (σ.thread i).size

omit [DecidableEq C] in
theorem stepShrinks {σ' : State R C F} {a : Nat × Bool} {es : List (Event R C F)}
    (ahead : ∀ i, σ.count ≤ i → σ.thread i = .done) (taken : step σ a = some (σ',es)) :
    (∀ i, σ'.count ≤ i → σ'.thread i = .done) ∧ remaining σ' < remaining σ := by
  obtain ⟨i,ok⟩ := a
  have inside : i < σ.count := by
    by_contra beyond
    simp [step,ahead i (Nat.le_of_not_lt beyond)] at taken
  have goes : ∀ s : Script R C F, s.size < (σ.thread i).size →
      (∀ j, σ.count ≤ j → Function.update σ.thread i s j = .done) ∧
      ∑ j ∈ Finset.range σ.count, (Function.update σ.thread i s j).size < remaining σ := by
    intro s less
    have moved := sumUpdate Script.size σ.thread inside s
    refine ⟨fun j beyond => ?_,by simp only [remaining]; omega⟩
    rw [Function.update_of_ne (by omega)]
    exact ahead j beyond
  cases here : σ.thread i with
  | done => simp [step,here] at taken
  | call c made yes no =>
    simp only [step,here,Option.some.injEq] at taken
    cases ok with
    | true => cases taken; exact goes yes (by rw [here,Script.size]; omega)
    | false => cases taken; exact goes no (by rw [here,Script.size]; omega)
  | drop r last next =>
    simp only [step,here,Option.some.injEq] at taken
    cases taken
    refine goes (if σ.refs r = 1 then last else next) ?_
    rw [here,Script.size]
    split <;> omega
  | await f next =>
    simp only [step,here] at taken
    split at taken <;> try contradiction
    cases taken
    exact goes next (by rw [here,Script.size]; omega)
  | fork given child next =>
    simp only [step,here,Option.some.injEq] at taken
    cases taken
    obtain ⟨later,_⟩ := goes next (by rw [here,Script.size]; omega)
    have moved := sumUpdate Script.size σ.thread inside next
    have new := sumNew Script.size (Function.update σ.thread i next) (n := σ.count) child
    rw [here,Script.size] at moved
    refine ⟨fun j beyond => ?_,by simp only [remaining,State.goto]; omega⟩
    have beyond' : σ.count + 1 ≤ j := beyond
    simp only [State.goto]
    rw [Function.update_of_ne (by omega)]
    exact later j (by omega)
  | _ =>
    simp only [step,here,Option.some.injEq] at taken
    cases taken
    exact goes _ (by rw [here,Script.size]; omega)

theorem runSettles (passes : Passes rules main) (possible : ∀ c, rules.may c true = true ∨ rules.may c false = true)
    (dutiful : ∀ fails f, .promise f ∉ rules.left fails) (run : Run (machine main) (Allowed rules) σ log) :
    (∀ {n σ'}, Path (machine main) (Allowed rules) σ n σ' → n ≤ remaining σ) ∧
      ∃ n σ' more, Path (machine main) (Allowed rules) σ n σ' ∧
        Run (machine main) (Allowed rules) σ' (log ++ more) ∧ AtRest σ' := by
  have ahead : ∀ i, σ.count ≤ i → σ.thread i = .done := by
    obtain ⟨known,hold,arcs,inv⟩ := runAccounted passes run
    exact fun i beyond => (inv.ahead i beyond).1
  have shrinks : ∀ {s : State R C F} {a s' es}, (∀ i, s.count ≤ i →
      s.thread i = .done) → Allowed rules s a →
      (machine main).step s a = some (s',es) → (∀ i, s'.count ≤ i →
          s'.thread i = .done) ∧ remaining s' < remaining s :=
    fun before _ taken => stepShrinks before taken
  refine ⟨fun path => ?_,?_⟩
  · have bound := (pathBounded shrinks ahead path).2
    omega
  · obtain ⟨n,σ',path,stuck⟩ := pathStuck (m := machine main) shrinks ahead
    obtain ⟨more,run'⟩ := runPath run (fun _ _ allowed => allowed) path
    exact ⟨n,σ',more,path,run',stuckRests passes possible run' (fun i _ f => dutiful _ f) stuck⟩

end runs

end HevFsh.Scripts
