import Mathlib.Data.List.Basic

/-! Labelled machines that log what each step did. An entry of the log keeps the
state its step was taken from, so a history can speak about earlier states. -/
namespace HevFsh.Transitions

structure Machine (S A E : Type) where
  init : S
  step : S → A → Option (S × List E)

abbrev Log (S E : Type) := List (S × E)

section runs
variable {S A E : Type} {m : Machine S A E} {ok : S → A → Prop}

/- `ok` restricts the steps that a run may take; `fun _ _ => True` allows all. -/
inductive Run (m : Machine S A E) (ok : S → A → Prop) : S → Log S E → Prop where
  | start : Run m ok m.init []
  | next {s log a s' es} (run : Run m ok s log) (allowed : ok s a)
      (taken : m.step s a = some (s',es)) : Run m ok s' (log ++ es.map (s,·))

theorem runInvariant {P : S → Log S E → Prop} (start : P m.init [])
    (next : ∀ {s log a s' es}, Run m ok s log → ok s a → m.step s a = some (s',es) → P s log →
      P s' (log ++ es.map (s,·)))
    {s log} (run : Run m ok s log) : P s log := by
  induction run with
  | start => exact start
  | next run allowed taken ih => exact next run allowed taken ih

theorem runMono {ok' : S → A → Prop} (wider : ∀ s a, ok s a → ok' s a) {s log} (run : Run m ok s log) :
    Run m ok' s log := by
  induction run with
  | start => exact .start
  | next run allowed taken ih => exact .next ih (wider _ _ allowed) taken

theorem memNext {log : Log S E} {es : List E} {s s₁ : S} {e : E} :
    (s₁,e) ∈ log ++ es.map (s,·) ↔ (s₁,e) ∈ log ∨ (s₁ = s ∧ e ∈ es) := by
  simp only [List.mem_append,List.mem_map,Prod.mk.injEq,eq_comm (a := s₁)]
  constructor
  · rintro (old | ⟨x,mem,same,rfl⟩)
    · exact .inl old
    · exact .inr ⟨same,mem⟩
  · rintro (old | ⟨same,mem⟩)
    · exact .inl old
    · exact .inr ⟨e,mem,same,rfl⟩

theorem splitNext {log before after : Log S E} {es : List E} {s s₁ : S} {e : E}
    (split : log ++ es.map (s,·) = before ++ (s₁,e) :: after) :
    (∃ rest, log = before ++ (s₁,e) :: rest ∧ after = rest ++ es.map (s,·)) ∨
      ∃ es₁ es₂, es = es₁ ++ e :: es₂ ∧ s₁ = s ∧ before = log ++ es₁.map (s,·) ∧
        after = es₂.map (s,·) := by
  rcases List.append_eq_append_iff.mp split with ⟨gap,whole,rest⟩ | ⟨gap,whole,rest⟩
  · obtain ⟨es₁,tail,shape,left,right⟩ := List.map_eq_append_iff.mp rest
    obtain ⟨x,es₂,shape',same,last⟩ := List.map_eq_cons_iff.mp right
    cases same
    exact .inr ⟨es₁,es₂,by rw [shape,shape'],rfl,by rw [whole,left],last.symm⟩
  · cases gap with
    | nil =>
      simp only [List.nil_append] at rest
      obtain ⟨x,es₂,shape,same,last⟩ := List.map_eq_cons_iff.mp rest.symm
      cases same
      exact .inr ⟨[],es₂,shape,rfl,by simpa using whole.symm,last.symm⟩
    | cons head gap =>
      simp only [List.cons_append,List.cons.injEq] at rest
      obtain ⟨rfl,rest⟩ := rest
      exact .inl ⟨gap,whole,rest⟩

theorem runAt {s log} (run : Run m ok s log) {before : Log S E} {s₁ : S} {e : E}
    {after : Log S E} (split : log = before ++ (s₁,e) :: after) :
    ∃ pre a s₂ es₁ es₂, Run m ok s₁ pre ∧ ok s₁ a ∧ m.step s₁ a = some (s₂,es₁ ++ e :: es₂) ∧
      before = pre ++ es₁.map (s₁,·) ∧ es₂.map (s₁,·) <+: after := by
  induction run generalizing after with
  | start => simp at split
  | @next s log a s' es run allowed taken ih =>
    rcases splitNext split with ⟨rest,old,tail⟩ | ⟨es₁,es₂,shape,same,left,right⟩
    · obtain ⟨pre,a',s₂,es₁,es₂,earlier,allowed',taken',left,right⟩ := ih old
      exact ⟨pre,a',s₂,es₁,es₂,earlier,allowed',taken',left,
        right.trans (by rw [tail]; exact List.prefix_append _ _)⟩
    · subst same shape
      exact ⟨log,a,s',es₁,es₂,run,allowed,taken,left,right ▸ List.prefix_rfl⟩

theorem stepInitial {log before after pre : Log S E} {s₁ : S} {e : E} {es₁ es₂ : List E}
    (split : log = before ++ (s₁,e) :: after) (left : before = pre ++ es₁.map (s₁,·))
    (right : es₂.map (s₁,·) <+: after) : pre ++ (es₁ ++ e :: es₂).map (s₁,·) <+: log := by
  rw [split,left,List.map_append,List.map_cons,← List.append_assoc,List.prefix_append_right_inj,
    List.prefix_cons_inj]
  exact right

theorem runStep {s log} (run : Run m ok s log) {s₁ : S} {e : E} (mem : (s₁,e) ∈ log) :
    ∃ pre a s₂ es, Run m ok s₁ pre ∧ ok s₁ a ∧ m.step s₁ a = some (s₂,es) ∧ e ∈ es ∧
      pre ++ es.map (s₁,·) <+: log := by
  obtain ⟨before,after,split⟩ := List.append_of_mem mem
  obtain ⟨pre,a,s₂,es₁,es₂,earlier,allowed,taken,left,right⟩ := runAt run split
  exact ⟨pre,a,s₂,es₁ ++ e :: es₂,earlier,allowed,taken,by simp,stepInitial split left right⟩

theorem runView {T B F : Type} {n : Machine T B F} {ok' : T → B → Prop} (f : S → T) (g : E → Option F)
    (start : f m.init = n.init)
    (each : ∀ {s a s' es}, ok s a → m.step s a = some (s',es) →
      (f s' = f s ∧ es.filterMap g = []) ∨
        ∃ b, ok' (f s) b ∧ n.step (f s) b = some (f s',es.filterMap g))
    {s log} (run : Run m ok s log) :
    Run n ok' (f s) (log.filterMap (fun e => (g e.2).map (f e.1,·))) := by
  induction run with
  | start => simpa [start] using (Run.start : Run n ok' n.init [])
  | @next s log a s' es run allowed taken ih =>
    have seen : (es.map (s,·)).filterMap (fun e => (g e.2).map (f e.1,·)) = (es.filterMap g).map (f s,·) := by
      simp [List.filterMap_map,List.map_filterMap]
    rw [List.filterMap_append,seen]
    rcases each allowed taken with ⟨same,silent⟩ | ⟨b,allowed',taken'⟩
    · simpa [same,silent] using ih
    · exact .next ih allowed' taken'

theorem runProject {T B : Type} {n : Machine T B E} {ok' : T → B → Prop} (f : S → T)
    (start : f m.init = n.init)
    (each : ∀ {s a s' es}, ok s a → m.step s a = some (s',es) →
      (f s' = f s ∧ es = []) ∨ ∃ b, ok' (f s) b ∧ n.step (f s) b = some (f s',es))
    {s log} (run : Run m ok s log) : Run n ok' (f s) (log.map (fun e => (f e.1,e.2))) := by
  have viewed : Run n ok' (f s) _ := runView f some start (fun allowed taken => by
    rw [List.filterMap_some]
    exact each allowed taken) run
  simpa [List.filterMap_eq_map] using viewed

end runs

section replay
variable {S A E : Type} (m : Machine S A E) (ok : S → A → Prop) [∀ s a, Decidable (ok s a)]

def replayFrom : S → Log S E → List A → Option (S × Log S E)
  | s,log,[] => some (s,log)
  | s,log,a::rest => do
      if ok s a then
        let (s',es) ← m.step s a
        replayFrom s' (log ++ es.map (s,·)) rest
      else none

def replay (actions : List A) : Option (S × Log S E) := replayFrom m ok m.init [] actions

theorem replayFromRun {s log actions out} (run : Run m ok s log)
    (h : replayFrom m ok s log actions = some out) : Run m ok out.1 out.2 := by
  induction actions generalizing s log with
  | nil => cases Option.some.inj h; exact run
  | cons a rest ih =>
    simp only [replayFrom] at h
    split at h <;> try contradiction
    rename_i allowed
    obtain ⟨⟨s',es⟩,taken,h⟩ := Option.bind_eq_some_iff.mp h
    exact ih (.next run allowed taken) h

theorem replayRun {actions out} (h : replay m ok actions = some out) : Run m ok out.1 out.2 :=
  replayFromRun m ok .start h

theorem replayReaches (actions : List A) (p : S × Log S E → Bool)
    (h : (replay m ok actions).map p = some true) : ∃ s log, Run m ok s log ∧ p (s,log) = true := by
  obtain ⟨⟨s,log⟩,found,holds⟩ := Option.map_eq_some_iff.mp h
  exact ⟨s,log,replayRun m ok found,holds⟩

end replay

theorem cutAt {S E : Type} {log : Log S E} {n : Nat} {e : E}
    (entry : log[n]?.map Prod.snd = some e) : ∃ s, log = log.take n ++ (s,e) :: log.drop (n + 1) := by
  obtain ⟨⟨s,e'⟩,here,rfl⟩ := Option.map_eq_some_iff.mp entry
  obtain ⟨inside,is⟩ := List.getElem?_eq_some_iff.mp here
  refine ⟨s,?_⟩
  rw [← is,List.getElem_cons_drop,List.take_append_drop]

section paths
variable {S A E : Type} {m : Machine S A E} {kind : S → A → Prop}

/- A continuation by `n` steps of one kind. -/
inductive Path (m : Machine S A E) (kind : S → A → Prop) : S → Nat → S → Prop where
  | done (s : S) : Path m kind s 0 s
  | more {s a s' es n t} (is : kind s a) (taken : m.step s a = some (s',es))
      (rest : Path m kind s' n t) : Path m kind s (n + 1) t

def Stuck (m : Machine S A E) (kind : S → A → Prop) (s : S) : Prop :=
  ∀ a s' es, kind s a → m.step s a ≠ some (s',es)

theorem stuckNone {s : S} {a : A} (stuck : Stuck m kind s) (is : kind s a) : m.step s a = none := by
  cases taken : m.step s a with
  | none => rfl
  | some r => exact absurd taken (stuck a r.1 r.2 is)

theorem pathInvariant {P : S → Log S E → Prop}
    (kept : ∀ {s log a s' es}, P s log → kind s a → m.step s a = some (s',es) →
      P s' (log ++ es.map (s,·))) {s t : S} {log n} (start : P s log) (path : Path m kind s n t) :
    ∃ more, P t (log ++ more) := by
  induction path generalizing log with
  | done s => exact ⟨[],by simpa using start⟩
  | more is taken rest ih =>
    obtain ⟨more,later⟩ := ih (kept start is taken)
    exact ⟨_,by simpa only [List.append_assoc] using later⟩

theorem runPath {ok : S → A → Prop} {s t : S} {log n} (run : Run m ok s log)
    (allowed : ∀ s a, kind s a → ok s a) (path : Path m kind s n t) :
    ∃ more, Run m ok t (log ++ more) :=
  pathInvariant (fun run is taken => .next run (allowed _ _ is) taken) run path

/- Steps that each use up some of a measure: no continuation is longer than the
measure, and one that is driven on as far as it goes gets stuck. -/
theorem pathBounded {inv : S → Prop} {left : S → Nat}
    (kept : ∀ {s a s' es}, inv s → kind s a → m.step s a = some (s',es) →
      inv s' ∧ left s' < left s) {s t n} (start : inv s) (path : Path m kind s n t) :
    inv t ∧ n + left t ≤ left s := by
  induction path with
  | done s => exact ⟨start,by omega⟩
  | more is taken rest ih =>
    obtain ⟨start',less⟩ := kept start is taken
    obtain ⟨last,bound⟩ := ih start'
    exact ⟨last,by omega⟩

theorem pathStuck {inv : S → Prop} {left : S → Nat}
    (kept : ∀ {s a s' es}, inv s → kind s a → m.step s a = some (s',es) →
      inv s' ∧ left s' < left s) {s} (start : inv s) : ∃ n t, Path m kind s n t ∧ Stuck m kind t := by
  induction measure : left s using Nat.strongRecOn generalizing s with
  | ind k ih =>
    by_cases moves : ∃ a s' es, kind s a ∧ m.step s a = some (s',es)
    · obtain ⟨a,s',es,is,taken⟩ := moves
      obtain ⟨start',less⟩ := kept start is taken
      obtain ⟨n,t,path,stuck⟩ := ih (left s') (by omega) start' rfl
      exact ⟨n + 1,t,.more is taken path,stuck⟩
    · exact ⟨0,s,.done s,fun a s' es is taken => moves ⟨a,s',es,is,taken⟩⟩

end paths

end HevFsh.Transitions
