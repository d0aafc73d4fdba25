import Mathlib.Data.List.Basic
import Mathlib.Data.List.Perm.Basic
import Mathlib.Logic.Function.Basic

/-! Descriptors by number, for any kind of holder. A number is reused once it was
closed, so every opening gets a serial of its own; who has to close it is its owner.
What a holder holds is told by the holder's own state, a list of numbers. -/
namespace HevFsh.Custody

structure Table (H : Type) where
  fds : Int → Option Nat
  count : Nat
  owner : Nat → Option H

inductive Event (H : Type) where
  | opened (h : H) (fd : Int) (k : Nat)
  | closed (h : H) (fd : Int) (k : Option Nat)
  | given (h : H) (fd : Int) (k : Option Nat)
  deriving DecidableEq, Repr

section table
variable {H : Type} (t : Table H)

def Table.empty : Table H := ⟨fun _ => none,0,fun _ => none⟩

def Table.acquire (h : Option H) (fd : Int) : Table H where
  fds := Function.update t.fds fd (some t.count)
  count := t.count + 1
  owner := Function.update t.owner t.count h

def Table.disown (fd : Int) : Nat → Option H := match t.fds fd with
  | some k => Function.update t.owner k none
  | none => t.owner

def Table.release (fd : Int) : Table H :=
  {t with fds := Function.update t.fds fd none, owner := t.disown fd}

def Table.give (fd : Int) : Table H := {t with owner := t.disown fd}

end table

def Event.ends {H : Type} : Event H → Option Nat
  | .closed _ _ k => k
  | .given _ _ k => k
  | .opened _ _ _ => none

def Event.starts {H : Type} : Event H → Option Nat
  | .opened _ _ k => some k
  | _ => none

def Event.returns {H : Type} : Event H → Option (H × Option Nat)
  | .closed h _ k => some (h,k)
  | .given h _ k => some (h,k)
  | .opened _ _ _ => none

def endings {H : Type} (k : Nat) (log : List (Event H)) : Nat := log.countP (fun e => e.ends = some k)

/- What a step does to the table, beside what its holders hold before and after. `may`
tells which of their own numbers the others close. -/
inductive Moves {H : Type} (may : Int → Prop) :
    Table H → (H → List Int) → List (Event H) → Table H → (H → List Int) → Prop where
  | keeps {t holds holds'} (same : ∀ h, (holds' h).Perm (holds h)) : Moves may t holds [] t holds'
  | opens {t holds holds' h fd} (valid : 0 ≤ fd) (free : t.fds fd = none)
      (more : (holds' h).Perm (fd :: holds h)) (apart : ∀ g, g ≠ h → (holds' g).Perm (holds g)) :
      Moves may t holds [.opened h fd t.count] (t.acquire (some h) fd) holds'
  | closes {t holds holds' h fd} (less : (holds h).Perm (fd :: holds' h))
      (apart : ∀ g, g ≠ h → (holds' g).Perm (holds g)) :
      Moves may t holds [.closed h fd (t.fds fd)] (t.release fd) holds'
  | gives {t holds holds' h fd} (less : (holds h).Perm (fd :: holds' h))
      (apart : ∀ g, g ≠ h → (holds' g).Perm (holds g)) :
      Moves may t holds [.given h fd (t.fds fd)] (t.give fd) holds'
  | otherOpens {t holds fd} (valid : 0 ≤ fd) (free : t.fds fd = none) :
      Moves may t holds [] (t.acquire none fd) holds
  | otherCloses {t holds fd k} (allowed : may fd) (on : t.fds fd = some k) (theirs : t.owner k = none) :
      Moves may t holds [] (t.release fd) holds
  | trans {t₀ t₁ t₂ holds₀ holds₁ holds₂ es₀ es₁} (first : Moves may t₀ holds₀ es₀ t₁ holds₁)
      (second : Moves may t₁ holds₁ es₁ t₂ holds₂) : Moves may t₀ holds₀ (es₀ ++ es₁) t₂ holds₂

structure Kept {H : Type} (t : Table H) (holds : H → List Int) (log : List (Event H)) : Prop where
  held : ∀ h, ∀ fd ∈ holds h, 0 ≤ fd ∧ ∃ k, t.fds fd = some k ∧ t.owner k = some h
  once : ∀ h, (holds h).Nodup
  found : ∀ k h, t.owner k = some h → ∃ fd ∈ holds h, t.fds fd = some k
  below : ∀ fd k, t.fds fd = some k → k < t.count
  single : ∀ fd fd' k, t.fds fd = some k → t.fds fd' = some k → fd = fd'
  ahead : ∀ k, t.count ≤ k → t.owner k = none ∧ endings k log = 0 ∧ ∀ e ∈ log, e.starts ≠ some k
  owned : ∀ k h, t.owner k = some h → endings k log = 0 ∧ ∃ fd, .opened h fd k ∈ log
  ended : ∀ k, t.owner k = none → (∃ e ∈ log, e.starts = some k) → endings k log = 1
  own : ∀ e ∈ log, ∀ h k, e.returns = some (h,k) → ∃ n fd, k = some n ∧ .opened h fd n ∈ log
  unique : ∀ h g fd fd' k, .opened h fd k ∈ log → .opened g fd' k ∈ log → h = g

section kept
variable {H : Type} {t t' : Table H} {holds holds' : H → List Int} {log es : List (Event H)}

theorem keptEmpty (none' : ∀ h, holds h = []) : Kept (H := H) .empty holds [] where
  held h fd mem := by simp [none' h] at mem
  once h := by simp [none' h]
  found k h own := by simp [Table.empty] at own
  below fd k on := by simp [Table.empty] at on
  single fd fd' k on := by simp [Table.empty] at on
  ahead k _ := ⟨rfl,rfl,by simp⟩
  owned k h own := by simp [Table.empty] at own
  ended k _ some' := by simp at some'
  own e mem := by simp at mem
  unique h g fd fd' k mem := by simp at mem

theorem keptKeeps (inv : Kept t holds log) (same : ∀ h, (holds' h).Perm (holds h)) : Kept t holds' log where
  held h fd mem := inv.held h fd ((same h).mem_iff.mp mem)
  once h := (same h).nodup_iff.mpr (inv.once h)
  found k h own := by
    obtain ⟨fd,mem,on⟩ := inv.found k h own
    exact ⟨fd,(same h).mem_iff.mpr mem,on⟩
  below := inv.below
  single := inv.single
  ahead := inv.ahead
  owned := inv.owned
  ended := inv.ended
  own := inv.own
  unique := inv.unique

theorem belowAcquire (inv : Kept t holds log) {o : Option H} {fd : Int} :
    ∀ g k, (t.acquire o fd).fds g = some k → k < t.count + 1 := by
  intro g k on
  by_cases same : g = fd
  · subst same
    simp only [Table.acquire,Function.update_self,Option.some.injEq] at on
    omega
  · simp only [Table.acquire,Function.update_of_ne same] at on
    exact Nat.lt_succ_of_lt (inv.below g k on)

theorem singleAcquire (inv : Kept t holds log) {o : Option H} {fd : Int} :
    ∀ g g' k, (t.acquire o fd).fds g = some k → (t.acquire o fd).fds g' = some k → g = g' := by
  intro g g' k on on'
  by_cases same : g = fd
  · by_cases same' : g' = fd
    · rw [same,same']
    · subst same
      simp only [Table.acquire,Function.update_self,Option.some.injEq,Function.update_of_ne same'] at on on'
      have low := inv.below g' k on'
      omega
  · by_cases same' : g' = fd
    · subst same'
      simp only [Table.acquire,Function.update_self,Option.some.injEq,Function.update_of_ne same] at on on'
      have low := inv.below g k on
      omega
    · simp only [Table.acquire,Function.update_of_ne same,Function.update_of_ne same'] at on on'
      exact inv.single g g' k on on'

theorem keptOpens (inv : Kept t holds log) {h : H} {fd : Int} (valid : 0 ≤ fd) (free : t.fds fd = none)
    (more : (holds' h).Perm (fd :: holds h)) (apart : ∀ g, g ≠ h → (holds' g).Perm (holds g)) :
    Kept (t.acquire (some h) fd) holds' (log ++ [.opened h fd t.count]) := by
  have old : ∀ g fd', fd' ∈ holds g → 0 ≤ fd' ∧ ∃ k, (t.acquire (some h) fd).fds fd' = some k ∧
      (t.acquire (some h) fd).owner k = some g := by
    intro g fd' mem
    obtain ⟨valid',k,on,own⟩ := inv.held g fd' mem
    have other : fd' ≠ fd := by
      rintro rfl
      rw [free] at on
      contradiction
    have low := inv.below fd' k on
    exact ⟨valid',k,by simpa [Table.acquire,other] using on,
      by simpa [Table.acquire,Nat.ne_of_lt low] using own⟩
  have fresh : fd ∉ holds h := by
    intro mem
    obtain ⟨_,k,on,_⟩ := inv.held h fd mem
    rw [free] at on
    contradiction
  have oldOwner : ∀ k, k ≠ t.count → (t.acquire (some h) fd).owner k = t.owner k := by
    intro k other
    simp [Table.acquire,other]
  have quiet : ∀ k, endings k (log ++ [.opened h fd t.count]) = endings k log := by
    intro k
    simp [endings,Event.ends]
  refine ⟨?_,?_,?_,belowAcquire inv,singleAcquire inv,?_,?_,?_,?_,?_⟩
  · intro g fd' mem
    by_cases same : g = h
    · subst same
      rcases List.mem_cons.mp (more.mem_iff.mp mem) with rfl | mem'
      · exact ⟨valid,t.count,by simp [Table.acquire],by simp [Table.acquire]⟩
      · exact old g fd' mem'
    · exact old g fd' ((apart g same).mem_iff.mp mem)
  · intro g
    by_cases same : g = h
    · subst same
      exact more.nodup_iff.mpr (List.nodup_cons.mpr ⟨fresh,inv.once g⟩)
    · exact (apart g same).nodup_iff.mpr (inv.once g)
  · intro k g own
    by_cases new : k = t.count
    · subst new
      simp only [Table.acquire,Function.update_self,Option.some.injEq] at own
      subst own
      exact ⟨fd,more.mem_iff.mpr List.mem_cons_self,by simp [Table.acquire]⟩
    · rw [oldOwner k new] at own
      obtain ⟨fd',mem,on⟩ := inv.found k g own
      have other : fd' ≠ fd := by
        rintro rfl
        rw [free] at on
        contradiction
      refine ⟨fd',?_,by simpa [Table.acquire,other] using on⟩
      by_cases same : g = h
      · subst same
        exact more.mem_iff.mpr (List.mem_cons_of_mem _ mem)
      · exact (apart g same).mem_iff.mpr mem
  · intro k beyond
    have beyond' : t.count + 1 ≤ k := beyond
    obtain ⟨own,none',unseen⟩ := inv.ahead k (by omega)
    refine ⟨by rw [oldOwner k (by omega),own],by rw [quiet,none'],?_⟩
    intro e mem
    rcases List.mem_append.mp mem with old' | new
    · exact unseen e old'
    · rw [List.mem_singleton.mp new]
      simp only [Event.starts,ne_eq,Option.some.injEq]
      omega
  · intro k g own
    rw [quiet]
    by_cases new : k = t.count
    · subst new
      simp only [Table.acquire,Function.update_self,Option.some.injEq] at own
      subst own
      exact ⟨(inv.ahead _ (Nat.le_refl _)).2.1,fd,by simp⟩
    · rw [oldOwner k new] at own
      obtain ⟨none',fd',mem⟩ := inv.owned k g own
      exact ⟨none',fd',List.mem_append_left _ mem⟩
  · intro k own started
    have new : k ≠ t.count := by
      rintro rfl
      simp [Table.acquire] at own
    rw [oldOwner k new] at own
    rw [quiet]
    refine inv.ended k own ?_
    obtain ⟨e,mem,is⟩ := started
    rcases List.mem_append.mp mem with old' | new'
    · exact ⟨e,old',is⟩
    · rw [List.mem_singleton.mp new'] at is
      simp only [Event.starts,Option.some.injEq] at is
      exact absurd is.symm new
  · intro e mem g k is
    rcases List.mem_append.mp mem with old' | new
    · obtain ⟨n,fd',same,opened⟩ := inv.own e old' g k is
      exact ⟨n,fd',same,List.mem_append_left _ opened⟩
    · rw [List.mem_singleton.mp new] at is
      contradiction
  · -- the new serial is not in the log so far
    have unseen := (inv.ahead _ (Nat.le_refl _)).2.2
    intro g g' fd₁ fd₂ k mem mem'
    rcases List.mem_append.mp mem with old' | new <;> rcases List.mem_append.mp mem' with old₂ | new₂
    · exact inv.unique g g' fd₁ fd₂ k old' old₂
    · cases List.mem_singleton.mp new₂
      exact absurd rfl (unseen _ old')
    · cases List.mem_singleton.mp new
      exact absurd rfl (unseen _ old₂)
    · cases List.mem_singleton.mp new
      cases List.mem_singleton.mp new₂
      rfl

theorem keptReturns (inv : Kept t holds log) {h : H} {fd : Int} {e : Event H} {k : Nat}
    (less : (holds h).Perm (fd :: holds' h)) (apart : ∀ g, g ≠ h → (holds' g).Perm (holds g))
    (on : t.fds fd = some k) (count : t'.count = t.count)
    (owner : t'.owner = Function.update t.owner k none) (others : ∀ g, g ≠ fd → t'.fds g = t.fds g)
    (here : t'.fds fd = none ∨ t'.fds fd = some k) (ends : e.ends = some k) (starts : e.starts = none)
    (returns : e.returns = some (h,some k)) : Kept t' holds' (log ++ [e]) := by
  have mem : fd ∈ holds h := less.mem_iff.mpr List.mem_cons_self
  have own : t.owner k = some h := by
    obtain ⟨_,k',on',own'⟩ := inv.held h fd mem
    rw [on] at on'
    cases on'
    exact own'
  have distinct := less.nodup_iff.mp (inv.once h)
  have kept : ∀ g fd', fd' ∈ holds' g → fd' ∈ holds g ∧ fd' ≠ fd := by
    intro g fd' mem'
    by_cases same : g = h
    · subst same
      refine ⟨less.mem_iff.mpr (List.mem_cons_of_mem _ mem'),?_⟩
      rintro rfl
      exact (List.nodup_cons.mp distinct).1 mem'
    · have inside := (apart g same).mem_iff.mp mem'
      refine ⟨inside,?_⟩
      rintro rfl
      obtain ⟨_,k',on',own'⟩ := inv.held g fd' inside
      rw [on] at on'
      cases on'
      rw [own] at own'
      exact same (Option.some.inj own').symm
  have opens : ∀ g n, t'.fds g = some n → t.fds g = some n := by
    intro g n on'
    by_cases same : g = fd
    · subst same
      rcases here with none' | some'
      · rw [none'] at on'; contradiction
      · rw [some'] at on'; rw [on]; exact on'
    · rwa [others g same] at on'
  have count' : ∀ n, endings n (log ++ [e]) = endings n log + if n = k then 1 else 0 := by
    intro n
    simp [endings,ends,eq_comm]
  have logged : ∀ x ∈ log ++ [e], ∀ n, x.starts = some n → x ∈ log := by
    intro x inside n is
    rcases List.mem_append.mp inside with old | new
    · exact old
    · rw [List.mem_singleton.mp new,starts] at is
      contradiction
  refine ⟨?_,?_,?_,?_,?_,?_,?_,?_,?_,?_⟩
  · intro g fd' mem'
    obtain ⟨inside,other⟩ := kept g fd' mem'
    obtain ⟨valid,n,on',own'⟩ := inv.held g fd' inside
    have apart' : n ≠ k := by
      rintro rfl
      exact other (inv.single _ _ _ on' on)
    exact ⟨valid,n,by rw [others fd' other,on'],by rw [owner,Function.update_of_ne apart',own']⟩
  · intro g
    by_cases same : g = h
    · subst same; exact (List.nodup_cons.mp distinct).2
    · exact (apart g same).nodup_iff.mpr (inv.once g)
  · intro n g own'
    have apart' : n ≠ k := by
      rintro rfl
      rw [owner,Function.update_self] at own'
      contradiction
    rw [owner,Function.update_of_ne apart'] at own'
    obtain ⟨fd',mem',on'⟩ := inv.found n g own'
    have other : fd' ≠ fd := by
      rintro rfl
      rw [on] at on'
      exact apart' (Option.some.inj on').symm
    refine ⟨fd',?_,by rw [others fd' other,on']⟩
    by_cases same : g = h
    · subst same
      exact (List.mem_cons.mp (less.mem_iff.mp mem')).resolve_left other
    · exact (apart g same).mem_iff.mpr mem'
  · intro g n on'
    rw [count]
    exact inv.below g n (opens g n on')
  · intro g g' n on' on''
    exact inv.single g g' n (opens g n on') (opens g' n on'')
  · intro n beyond
    rw [count] at beyond
    obtain ⟨own',none',unseen⟩ := inv.ahead n beyond
    have apart' : n ≠ k := by
      rintro rfl
      rw [own] at own'
      contradiction
    exact ⟨by rw [owner,Function.update_of_ne apart',own'],by rw [count',none',if_neg apart'],
      fun x inside is => unseen x (logged x inside n is) is⟩
  · intro n g own'
    have apart' : n ≠ k := by
      rintro rfl
      rw [owner,Function.update_self] at own'
      contradiction
    rw [owner,Function.update_of_ne apart'] at own'
    obtain ⟨none',fd',opened⟩ := inv.owned n g own'
    exact ⟨by rw [count',none',if_neg apart'],fd',List.mem_append_left _ opened⟩
  · rintro n own' ⟨x,inside,is⟩
    have old := logged x inside n is
    by_cases same : n = k
    · subst same
      rw [count',(inv.owned n h own).1,if_pos rfl]
    · rw [owner,Function.update_of_ne same] at own'
      rw [count',inv.ended n own' ⟨x,old,is⟩,if_neg same]
  · intro x inside g n is
    rcases List.mem_append.mp inside with old | new
    · obtain ⟨m,fd',same,opened⟩ := inv.own x old g n is
      exact ⟨m,fd',same,List.mem_append_left _ opened⟩
    · rw [List.mem_singleton.mp new,returns] at is
      cases is
      obtain ⟨_,fd',opened⟩ := inv.owned k h own
      exact ⟨k,fd',rfl,List.mem_append_left _ opened⟩
  · intro g g' fd₁ fd₂ n mem' mem''
    exact inv.unique g g' fd₁ fd₂ n (logged _ mem' n rfl) (logged _ mem'' n rfl)

theorem disownHeld (inv : Kept t holds log) {h : H} {fd : Int} (mem : fd ∈ holds h) :
    ∃ k, t.fds fd = some k ∧ t.disown fd = Function.update t.owner k none := by
  obtain ⟨_,k,on,_⟩ := inv.held h fd mem
  exact ⟨k,on,by simp only [Table.disown,on]⟩

theorem keptOther (inv : Kept t holds log) {fd : Int} (free : t.fds fd = none) :
    Kept (t.acquire none fd) holds log := by
  have owner : (t.acquire none fd).owner = t.owner := by
    simp only [Table.acquire,Function.update_eq_self_iff]
    exact (inv.ahead _ (Nat.le_refl _)).1.symm
  have stays : ∀ g k, t.fds g = some k → (t.acquire none fd).fds g = some k := by
    intro g k on
    have other : g ≠ fd := by
      rintro rfl
      rw [free] at on
      contradiction
    simpa [Table.acquire,other] using on
  refine ⟨?_,inv.once,?_,belowAcquire inv,singleAcquire inv,?_,?_,?_,inv.own,inv.unique⟩
  · intro g fd' mem
    obtain ⟨valid,k,on,own⟩ := inv.held g fd' mem
    exact ⟨valid,k,stays _ _ on,owner ▸ own⟩
  · intro k g own
    obtain ⟨fd',mem,on⟩ := inv.found k g (owner ▸ own)
    exact ⟨fd',mem,stays _ _ on⟩
  · intro k beyond
    have beyond' : t.count + 1 ≤ k := beyond
    rw [owner]
    exact inv.ahead k (by omega)
  · intro k g own
    exact inv.owned k g (owner ▸ own)
  · intro k own
    exact inv.ended k (owner ▸ own)

theorem keptOtherCloses (inv : Kept t holds log) {fd : Int} {k : Nat} (on : t.fds fd = some k)
    (theirs : t.owner k = none) : Kept (t.release fd) holds log := by
  have owner : (t.release fd).owner = t.owner := by
    simp only [Table.release,Table.disown,on]
    exact Function.update_eq_self_iff.mpr theirs.symm
  have opens : ∀ g n, (t.release fd).fds g = some n → t.fds g = some n := by
    intro g n on'
    by_cases same : g = fd
    · subst same; simp [Table.release] at on'
    · simpa [Table.release,same] using on'
  have stays : ∀ g n h, t.fds g = some n → t.owner n = some h → (t.release fd).fds g = some n := by
    intro g n h on' own
    have other : g ≠ fd := by
      rintro rfl
      rw [on] at on'
      cases on'
      rw [theirs] at own
      contradiction
    simpa [Table.release,other] using on'
  refine ⟨?_,inv.once,?_,?_,?_,?_,?_,?_,inv.own,inv.unique⟩
  · intro g fd' mem
    obtain ⟨valid,n,on',own⟩ := inv.held g fd' mem
    exact ⟨valid,n,stays _ _ _ on' own,owner ▸ own⟩
  · intro n g own
    obtain ⟨fd',mem,on'⟩ := inv.found n g (owner ▸ own)
    exact ⟨fd',mem,stays _ _ _ on' (owner ▸ own)⟩
  · intro g n on'
    exact inv.below g n (opens g n on')
  · intro g g' n on' on''
    exact inv.single g g' n (opens g n on') (opens g' n on'')
  · intro n beyond
    rw [owner]
    exact inv.ahead n beyond
  · intro n g own
    exact inv.owned n g (owner ▸ own)
  · intro n own
    exact inv.ended n (owner ▸ own)

theorem keptMoves {may : Int → Prop} (move : Moves may t holds es t' holds') (inv : Kept t holds log) :
    Kept t' holds' (log ++ es) := by
  induction move generalizing log with
  | keeps same => simpa using keptKeeps inv same
  | opens valid free more apart => exact keptOpens inv valid free more apart
  | closes less apart =>
    obtain ⟨k,on,owner⟩ := disownHeld inv (less.mem_iff.mpr List.mem_cons_self)
    exact keptReturns inv less apart on rfl owner (fun g other => Function.update_of_ne other _ _)
      (.inl (Function.update_self ..)) (by rw [on]; rfl) rfl (by rw [on]; rfl)
  | gives less apart =>
    obtain ⟨k,on,owner⟩ := disownHeld inv (less.mem_iff.mpr List.mem_cons_self)
    exact keptReturns inv less apart on rfl owner (fun g other => rfl) (.inr on) (by rw [on]; rfl) rfl
      (by rw [on]; rfl)
  | otherOpens valid free => simpa using keptOther inv free
  | otherCloses allowed on theirs => simpa using keptOtherCloses inv on theirs
  | trans first second ih ih' =>
    rw [← List.append_assoc]
    exact ih' (ih inv)

theorem disownOther (inv : Kept t holds log) {fd g : Int} {k : Nat} (on : t.fds g = some k) (other : g ≠ fd) :
    t.disown fd k = t.owner k := by
  unfold Table.disown
  cases there : t.fds fd with
  | none => rfl
  | some n =>
    have apart : k ≠ n := by
      rintro rfl
      exact other (inv.single _ _ _ on there)
    exact Function.update_of_ne apart _ _

theorem movesStay {may : Int → Prop} (move : Moves may t holds es t' holds') (inv : Kept t holds log)
    {g : Int} {k : Nat} {o : Option H} (on : t.fds g = some k) (own : t.owner k = o) :
    (∃ e ∈ es, e.ends = some k) ∨ (may g ∧ o = none) ∨ (t'.fds g = some k ∧ t'.owner k = o) := by
  induction move generalizing log with
  | keeps same => exact .inr (.inr ⟨on,own⟩)
  | @opens t holds holds' h fd valid free more apart =>
    have other : g ≠ fd := by
      rintro rfl
      rw [free] at on
      contradiction
    have low := inv.below g k on
    exact .inr (.inr ⟨by simpa [Table.acquire,other] using on,by simpa [Table.acquire,Nat.ne_of_lt low] using own⟩)
  | @closes t holds holds' h fd less apart =>
    by_cases same : g = fd
    · exact .inl ⟨_,List.mem_singleton_self _,by rw [← same,on]; rfl⟩
    · exact .inr (.inr ⟨by simpa [Table.release,same] using on,(disownOther inv on same).trans own⟩)
  | @gives t holds holds' h fd less apart =>
    by_cases same : g = fd
    · exact .inl ⟨_,List.mem_singleton_self _,by rw [← same,on]; rfl⟩
    · exact .inr (.inr ⟨on,(disownOther inv on same).trans own⟩)
  | @otherOpens t holds fd valid free =>
    have other : g ≠ fd := by
      rintro rfl
      rw [free] at on
      contradiction
    have low := inv.below g k on
    exact .inr (.inr ⟨by simpa [Table.acquire,other] using on,by simpa [Table.acquire,Nat.ne_of_lt low] using own⟩)
  | @otherCloses t holds fd n allowed there theirs =>
    by_cases same : g = fd
    · subst same
      rw [there] at on
      cases on
      exact .inr (.inl ⟨allowed,own ▸ theirs⟩)
    · exact .inr (.inr ⟨by simpa [Table.release,same] using on,(disownOther inv on same).trans own⟩)
  | trans first second ih ih' =>
    rcases ih inv on own with ⟨e,mem,is⟩ | theirs | ⟨on',own'⟩
    · exact .inl ⟨e,List.mem_append_left _ mem,is⟩
    · exact .inr (.inl theirs)
    · rcases ih' (keptMoves first inv) on' own' with ⟨e,mem,is⟩ | rest
      · exact .inl ⟨e,List.mem_append_right _ mem,is⟩
      · exact .inr rest

theorem movesStarts {may : Int → Prop} (move : Moves may t holds es t' holds') :
    t.count ≤ t'.count ∧ ∀ e ∈ es, ∀ k, e.starts = some k → t.count ≤ k := by
  induction move with
  | keeps same => exact ⟨Nat.le_refl _,by simp⟩
  | opens valid free more apart =>
    refine ⟨Nat.le_succ _,fun e mem k is => ?_⟩
    rw [List.mem_singleton.mp mem] at is
    exact Nat.le_of_eq (Option.some.inj is)
  | closes less apart => exact ⟨Nat.le_refl _,by simp [Event.starts]⟩
  | gives less apart => exact ⟨Nat.le_refl _,by simp [Event.starts]⟩
  | otherOpens valid free => exact ⟨Nat.le_succ _,by simp⟩
  | otherCloses allowed on theirs => exact ⟨Nat.le_refl _,by simp⟩
  | trans first second ih ih' =>
    refine ⟨Nat.le_trans ih.1 ih'.1,fun e mem k is => ?_⟩
    rcases List.mem_append.mp mem with old | new
    · exact ih.2 e old k is
    · exact Nat.le_trans ih.1 (ih'.2 e new k is)

theorem endsReturns {e : Event H} {k : Nat} (ends : e.ends = some k) : ∃ h, e.returns = some (h,some k) := by
  cases e with
  | opened h fd n => contradiction
  | closed h fd n => exact ⟨h,by rw [← ends]; rfl⟩
  | given h fd n => exact ⟨h,by rw [← ends]; rfl⟩

theorem keptReturned (inv : Kept t holds log) {h : H} (none' : holds h = []) {fd : Int} {k : Nat}
    (opened : .opened h fd k ∈ log) : endings k log = 1 := by
  refine inv.ended k ?_ ⟨_,opened,rfl⟩
  rw [Option.eq_none_iff_forall_ne_some]
  intro g own
  obtain ⟨_,fd',opened'⟩ := inv.owned k g own
  obtain ⟨fd'',mem,_⟩ := inv.found k g own
  rw [inv.unique g h fd' fd k opened' opened,none'] at mem
  simp at mem

theorem keptOnce (inv : Kept t holds log) {h : H} {fd : Int} {k : Nat} (opened : .opened h fd k ∈ log) :
    endings k log ≤ 1 := by
  cases own : t.owner k with
  | none => exact Nat.le_of_eq (inv.ended k own ⟨_,opened,rfl⟩)
  | some g => rw [(inv.owned k g own).1]; exact Nat.zero_le _

end kept

end HevFsh.Custody
