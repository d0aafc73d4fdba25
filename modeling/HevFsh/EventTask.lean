import HevFsh.Transitions
import HevFsh.TokenFile

/-! Reload requests of hev-fsh-server: hev_fsh_server_reload writes one byte into a
pipe without waiting, and hev_fsh_event_task_entry reads bytes and reloads. The
tokens file belongs to others and may change at any point. -/
namespace HevFsh.EventTask
open Transitions SearchTree Protocol TokenManager

structure Pipe where
  capacity : Nat
  room : 0 < capacity

inductive Pc where
  | waiting
  | aboutToReload
  | reloading (stream : Option (Bytes × Bytes))
  deriving DecidableEq, Repr

structure State where
  queued : Nat
  pc : Pc
  file : Option Bytes
  tree : RbTree Token

inductive Action where
  | request
  | edit (file : Option Bytes) (contents : Bytes)
  | read (n : Nat)
  | start
  | take (n : Nat)
  | finish
  deriving DecidableEq, Repr

inductive Event where
  | requested (written : Bool)
  | edited
  | read (n : Nat)
  | started
  | took (chunk : Bytes)
  | finished
  deriving DecidableEq, Repr

def bufferSize : Nat := 16

def serverReload (P : Pipe) (s : State) : State × List Event :=
  if s.queued < P.capacity then ({ s with queued := s.queued + 1 },[.requested true])
  else (s,[.requested false])

def edited (file : Option Bytes) (contents : Bytes) (s : State) : State :=
  { s with file := file, pc := match s.pc with
      | .reloading (some (_,got)) => .reloading (some (contents,got))
      | pc => pc }

def eventTaskRead (n : Nat) (s : State) : Option (State × List Event) :=
  match s.pc with
  | .waiting =>
      if 0 < n ∧ n ≤ bufferSize ∧ n ≤ s.queued then
        some ({ s with queued := s.queued - n, pc := .aboutToReload },[.read n])
      else none
  | _ => none

def reloadStart (B : Balancer Token) (s : State) : Option (State × List Event) :=
  match s.pc with
  | .aboutToReload =>
      some ({ s with tree := clear B s.tree, pc := .reloading (s.file.map (fun bs => (bs,[]))) },[.started])
  | _ => none

def reloadTake (n : Nat) (s : State) : Option (State × List Event) :=
  match s.pc with
  | .reloading (some (contents,got)) =>
      let chunk := (contents.drop got.length).take n
      if chunk = [] then none
      else some ({ s with pc := .reloading (some (contents,got ++ chunk)) },[.took chunk])
  | _ => none

def reloadFinish (B : Balancer Token) (s : State) : Option (State × List Event) :=
  match s.pc with
  | .reloading none => some ({ s with pc := .waiting },[.finished])
  | .reloading (some (contents,got)) =>
      if contents.drop got.length = [] then
        some ({ s with tree := readLines B got.length s.tree got, pc := .waiting },[.finished])
      else none
  | _ => none

def step (B : Balancer Token) (P : Pipe) (s : State) : Action → Option (State × List Event)
  | .request => some (serverReload P s)
  | .edit file contents => some (edited file contents s,[.edited])
  | .read n => eventTaskRead n s
  | .start => reloadStart B s
  | .take n => reloadTake n s
  | .finish => reloadFinish B s

/- hev_fsh_server_construct reads the file once before there is a pipe. -/
def server (B : Balancer Token) (P : Pipe) (file : Option Bytes) : Machine State Action Event where
  init := ⟨0,.waiting,file,reloadFile B .leaf file⟩
  step := step B P

section steps
variable {B : Balancer Token} {P : Pipe} {s s' : State} {a : Action} {es : List Event}

inductive Moves (B : Balancer Token) (P : Pipe) (s : State) : State → Event → Prop where
  | written (room : s.queued < P.capacity) :
      Moves B P s { s with queued := s.queued + 1 } (.requested true)
  | full (none' : ¬ s.queued < P.capacity) : Moves B P s s (.requested false)
  | edits (file contents) : Moves B P s (edited file contents s) .edited
  | reads {n} (here : s.pc = .waiting) (some' : 0 < n) (fits : n ≤ s.queued) :
      Moves B P s { s with queued := s.queued - n, pc := .aboutToReload } (.read n)
  | starts (here : s.pc = .aboutToReload) :
      Moves B P s { s with tree := .leaf, pc := .reloading (s.file.map (fun bs => (bs,[]))) } .started
  | takes {contents got} (n : Nat) (here : s.pc = .reloading (some (contents,got)))
      (some' : (contents.drop got.length).take n ≠ []) :
      Moves B P s { s with pc := .reloading (some (contents,got ++ (contents.drop got.length).take n)) }
        (.took ((contents.drop got.length).take n))
  | ends (here : s.pc = .reloading none) : Moves B P s { s with pc := .waiting } .finished
  | loads {contents got} (here : s.pc = .reloading (some (contents,got)))
      (whole : contents.drop got.length = []) :
      Moves B P s { s with tree := readLines B got.length s.tree got, pc := .waiting } .finished

theorem stepMoves (taken : step B P s a = some (s',es)) : ∃ e, es = [e] ∧ Moves B P s s' e := by
  cases a with
  | request =>
    simp only [step,serverReload] at taken
    split at taken <;> cases Option.some.inj taken
    · exact ⟨_,rfl,.written (by assumption)⟩
    · exact ⟨_,rfl,.full (by assumption)⟩
  | edit file contents =>
    cases Option.some.inj taken
    exact ⟨_,rfl,.edits file contents⟩
  | read n =>
    simp only [step,eventTaskRead] at taken
    split at taken <;> try contradiction
    rename_i here
    split at taken <;> try contradiction
    rename_i fits
    cases Option.some.inj taken
    exact ⟨_,rfl,.reads here fits.1 fits.2.2⟩
  | start =>
    simp only [step,reloadStart] at taken
    split at taken <;> try contradiction
    rename_i here
    rw [clearEmpty] at taken
    cases Option.some.inj taken
    exact ⟨_,rfl,.starts here⟩
  | take n =>
    simp only [step,reloadTake] at taken
    split at taken <;> try contradiction
    rename_i here
    split at taken <;> try contradiction
    rename_i some'
    cases Option.some.inj taken
    exact ⟨_,rfl,.takes n here some'⟩
  | finish =>
    simp only [step,reloadFinish] at taken
    split at taken <;> try contradiction
    · rename_i here
      cases Option.some.inj taken
      exact ⟨_,rfl,.ends here⟩
    · rename_i here
      split at taken <;> try contradiction
      rename_i whole
      cases Option.some.inj taken
      exact ⟨_,rfl,.loads here whole⟩

end steps

section requests

abbrev History := Log State Event

def Pending (log : History) : Prop :=
  ∃ before s₁ written after, log = before ++
      (s₁,.requested written) :: after ∧ ∀ x ∈ after, x.2 ≠ .started

def Unrequested (log : History) : Prop := ∀ x ∈ log, ∀ written, x.2 ≠ .requested written

def Unedited (log : History) : Prop := ∀ x ∈ log, x.2 ≠ .edited

structure Since (log : History) (s₁ : State) (after : History) : Prop where
  split : ∃ before, log = before ++ (s₁,.started) :: after
  last : ∀ x ∈ after, x.2 ≠ .started

def taken (log : History) : Bytes := log.flatMap (fun x => match x.2 with
  | .took chunk => chunk
  | _ => [])

def loaded (B : Balancer Token) (opened : Option Bytes) (got : Bytes) : RbTree Token :=
  match opened with
  | none => .leaf
  | some _ => readLines B got.length .leaf got

theorem pendingNext {log : History} {s : State} {e : Event} (pending : Pending (log ++ [(s,e)])) :
    (∃ written, e = .requested written) ∨ (Pending log ∧ e ≠ .started) := by
  obtain ⟨before,s₁,written,after,split,none'⟩ := pending
  have split' : log ++ [e].map (s,·) = before ++ (s₁,.requested written) :: after := split
  rcases splitNext split' with ⟨rest,old,tail⟩ | ⟨es₁,es₂,shape,-,-,-⟩
  · refine .inr ⟨⟨before,s₁,written,rest,old,fun x mem => none' x ?_⟩,?_⟩
    · rw [tail]
      exact List.mem_append_left _ mem
    · exact none' (s,e) (by rw [tail]; simp)
  · have same : e = .requested written := by
      have mem : Event.requested written ∈ [e] := by rw [shape]; simp
      exact (List.mem_singleton.mp mem).symm
    exact .inl ⟨written,same⟩

theorem Since.next {log after : History} {s₁ s : State} {e : Event} (since : Since log s₁ after)
    (other : e ≠ .started) : Since (log ++ [(s,e)]) s₁ (after ++ [(s,e)]) := by
  obtain ⟨before,split⟩ := since.split
  refine ⟨⟨before,by rw [split]; simp⟩,?_⟩
  intro x mem
  rcases List.mem_append.mp mem with old | new
  · exact since.last x old
  · cases List.mem_singleton.mp new
    exact other

theorem sinceStart (log : History) (s : State) : Since (log ++ [(s,.started)]) s [] :=
  ⟨⟨log,rfl⟩,fun _ mem => absurd mem List.not_mem_nil⟩

theorem Since.unrequested {log after : History} {s₁ : State} (since : Since log s₁ after)
    (none' : ¬ Pending log) : Unrequested after := by
  rintro ⟨s₂,e⟩ mem written rfl
  obtain ⟨before,split⟩ := since.split
  obtain ⟨left,right,whole⟩ := List.append_of_mem mem
  refine none' ⟨before ++ (s₁,.started) :: left,s₂,written,right,?_,?_⟩
  · rw [split,whole]; simp
  · intro x later
    exact since.last x (by rw [whole]; simp [later])

theorem takenNext (log : History) (s : State) (chunk : Bytes) :
    taken (log ++ [(s,.took chunk)]) = taken log ++ chunk := by simp [taken]

theorem takenSame {log : History} {s : State} {e : Event} (other : ∀ chunk, e ≠ .took chunk) :
    taken (log ++ [(s,e)]) = taken log := by
  cases e <;> simp [taken] at other ⊢

end requests

section invariant
variable {B : Balancer Token} {P : Pipe} {file : Option Bytes} {s s' : State} {log : History} {e : Event}

def Settled (B : Balancer Token) (s : State) (log : History) : Prop :=
  (∀ x ∈ log, x.2 ≠ .started) ∨ ∃ s₁ after, Since log s₁ after ∧
    s.tree = loaded B s₁.file (taken after) ∧ (Unedited after → s.tree = reloadFile B .leaf s.file)

structure Reading (s : State) (stream : Option (Bytes × Bytes)) (log : History) : Prop where
  cleared : s.tree = .leaf
  read : ∃ s₁ after, Since log s₁ after ∧ stream.map Prod.snd = s₁.file.map (fun _ => taken after) ∧
    (Unedited after → stream.map Prod.fst = s.file ∧ ∀ contents got,
        stream = some (contents,got) → got <+: contents)

def Loading (B : Balancer Token) (s : State) (log : History) : Prop :=
  match s.pc with
  | .reloading stream => Reading s stream log
  | _ => Settled B s log

structure Inv (B : Balancer Token) (s : State) (log : History) : Prop where
  pending : Pending log → 0 < s.queued ∨ s.pc = .aboutToReload
  loading : Loading B s log

theorem pendingStep (moves : Moves B P s s' e) (inv : Pending log → 0 < s.queued ∨ s.pc = .aboutToReload)
    (pending : Pending (log ++ [(s,e)])) : 0 < s'.queued ∨ s'.pc = .aboutToReload := by
  have old : (∀ written, e ≠ .requested written) → Pending log ∧ e ≠ .started := by
    intro other
    rcases pendingNext pending with ⟨written,same⟩ | before
    · exact absurd same (other written)
    · exact before
  have queued : (∀ written, e ≠ .requested written) → s.pc ≠ .aboutToReload → 0 < s.queued :=
    fun other elsewhere => (inv (old other).1).resolve_right elsewhere
  cases moves with
  | written room => exact .inl (Nat.succ_pos _)
  | full none' =>
    have room := P.room
    exact .inl (by omega)
  | edits file contents =>
    rcases inv (old (by simp)).1 with some' | here
    · exact .inl some'
    · exact .inr (by simp [edited,here])
  | reads here some' fits => exact .inr rfl
  | starts here => exact absurd rfl (old (by simp)).2
  | takes n here some' => exact .inl (queued (by simp) (by simp [here]))
  | ends here => exact .inl (queued (by simp) (by simp [here]))
  | loads here whole => exact .inl (queued (by simp) (by simp [here]))

theorem uneditedNext {after : History} (unedited : Unedited (after ++ [(s,e)])) :
    Unedited after ∧ e ≠ .edited :=
  ⟨fun x mem => unedited x (List.mem_append_left _ mem),unedited (s,e) (by simp)⟩

theorem Settled.next (settled : Settled B s log) (tree : s'.tree = s.tree) (other : e ≠ .started)
    (still : ∀ chunk, e ≠ .took chunk) (same : e ≠ .edited → s'.file = s.file) :
    Settled B s' (log ++ [(s,e)]) := by
  rcases settled with never | ⟨s₁,after,since,is,whole⟩
  · refine .inl ?_
    intro x mem
    rcases List.mem_append.mp mem with old | new
    · exact never x old
    · cases List.mem_singleton.mp new
      exact other
  · refine .inr ⟨s₁,_,since.next other,?_,?_⟩
    · rw [tree,is,takenSame still]
    · intro unedited
      obtain ⟨earlier,now⟩ := uneditedNext unedited
      rw [tree,same now]
      exact whole earlier

theorem Reading.next {stream stream' : Option (Bytes × Bytes)} (reading : Reading s stream log)
    (tree : s'.tree = s.tree) (other : e ≠ .started) (still : ∀ chunk, e ≠ .took chunk)
    (got : stream'.map Prod.snd = stream.map Prod.snd)
    (same : e ≠ .edited → s'.file = s.file ∧ stream' = stream) : Reading s' stream' (log ++ [(s,e)]) := by
  obtain ⟨s₁,after,since,is,whole⟩ := reading.read
  refine ⟨by rw [tree,reading.cleared],s₁,_,since.next other,?_,?_⟩
  · rw [got,is,takenSame still]
  · intro unedited
    obtain ⟨earlier,now⟩ := uneditedNext unedited
    rw [(same now).1,(same now).2]
    exact whole earlier

theorem Loading.next (loading : Loading B s log) (pc : s'.pc = s.pc) (tree : s'.tree = s.tree)
    (file : s'.file = s.file) (other : e ≠ .started) (still : ∀ chunk, e ≠ .took chunk) :
    Loading B s' (log ++ [(s,e)]) := by
  unfold Loading at loading ⊢
  rw [pc]
  split
  · rename_i stream here
    rw [here] at loading
    exact loading.next tree other still rfl (fun _ => ⟨file,rfl⟩)
  · rename_i between
    have settled : Settled B s log := by
      split at loading
      · rename_i stream here
        exact absurd here (between stream)
      · exact loading
    exact settled.next tree other still (fun _ => file)

theorem readingStarts (s : State) (log : History) :
    Reading { s with tree := .leaf, pc := .reloading (s.file.map (fun bs => (bs,[]))) }
      (s.file.map (fun bs => (bs,[]))) (log ++ [(s,.started)]) := by
  refine ⟨rfl,s,[],sinceStart log s,?_,fun _ => ⟨?_,?_⟩⟩
  · cases s.file <;> rfl
  · cases s.file <;> rfl
  · intro contents got here
    obtain ⟨bs,-,same⟩ := Option.map_eq_some_iff.mp here
    cases same
    exact List.nil_prefix

theorem readingTakes {contents got : Bytes} (n : Nat) (reading : Reading s (some (contents,got)) log) :
    Reading { s with pc := .reloading (some (contents,got ++ (contents.drop got.length).take n)) }
      (some (contents,got ++ (contents.drop got.length).take n))
      (log ++ [(s,.took ((contents.drop got.length).take n))]) := by
  obtain ⟨s₁,after,since,is,whole⟩ := reading.read
  refine ⟨reading.cleared,s₁,_,since.next (by simp),?_,?_⟩
  · rw [takenNext]
    obtain ⟨bs,opened,same⟩ := Option.map_eq_some_iff.mp is.symm
    rw [opened]
    simp only at same
    simp [same]
  · intro unedited
    obtain ⟨file,starts⟩ := whole (uneditedNext unedited).1
    refine ⟨file,?_⟩
    intro contents' got' here
    cases Option.some.inj here
    obtain ⟨rest,rfl⟩ := starts contents got rfl
    rw [List.drop_left,List.prefix_append_right_inj]
    exact List.take_prefix _ _

theorem settledEnds (reading : Reading s none log) :
    Settled B { s with pc := .waiting } (log ++ [(s,.finished)]) := by
  obtain ⟨s₁,after,since,is,whole⟩ := reading.read
  have opened : s₁.file = none := Option.map_eq_none_iff.mp is.symm
  refine .inr ⟨s₁,_,since.next (by simp),?_,?_⟩
  · rw [opened]
    exact reading.cleared
  · intro unedited
    have file : none = s.file := (whole (uneditedNext unedited).1).1
    simp only [← file]
    rw [reloadFile,clearEmpty]
    exact reading.cleared

theorem settledLoads {contents got : Bytes} (reading : Reading s (some (contents,got)) log)
    (all : contents.drop got.length = []) :
    Settled B { s with tree := readLines B got.length s.tree got, pc := .waiting } (log ++ [(s,.finished)]) := by
  obtain ⟨s₁,after,since,is,whole⟩ := reading.read
  obtain ⟨bs,opened,same⟩ := Option.map_eq_some_iff.mp is.symm
  simp only at same
  refine .inr ⟨s₁,_,since.next (by simp),?_,?_⟩
  · rw [opened,takenSame (by simp),same,reading.cleared]
    rfl
  · intro unedited
    obtain ⟨file,starts⟩ := whole (uneditedNext unedited).1
    have whole' : got = contents :=
      (starts contents got rfl).eq_of_length_le (List.drop_eq_nil_iff.mp all)
    simp only [← file,Option.map_some]
    rw [reloadFile,clearEmpty,reading.cleared,whole']

theorem loadingStep (moves : Moves B P s s' e) (loading : Loading B s log) :
    Loading B s' (log ++ [(s,e)]) := by
  cases moves with
  | written room => exact loading.next rfl rfl rfl (by simp) (by simp)
  | full none' => exact loading.next rfl rfl rfl (by simp) (by simp)
  | edits file contents =>
    unfold Loading edited at *
    cases here : s.pc with
    | waiting =>
      simp only [here] at loading ⊢
      exact loading.next rfl (by simp) (by simp) (fun now => absurd rfl now)
    | aboutToReload =>
      simp only [here] at loading ⊢
      exact loading.next rfl (by simp) (by simp) (fun now => absurd rfl now)
    | reloading stream =>
      cases stream with
      | none =>
        simp only [here] at loading ⊢
        exact loading.next rfl (by simp) (by simp) rfl (fun now => absurd rfl now)
      | some open' =>
        simp only [here] at loading ⊢
        exact loading.next rfl (by simp) (by simp) rfl (fun now => absurd rfl now)
  | reads here some' fits =>
    rw [Loading,here] at loading
    exact Settled.next loading rfl (by simp) (by simp) (fun _ => rfl)
  | starts here => exact readingStarts s log
  | takes n here some' =>
    rw [Loading,here] at loading
    exact readingTakes n loading
  | ends here =>
    rw [Loading,here] at loading
    exact settledEnds loading
  | loads here whole =>
    rw [Loading,here] at loading
    exact settledLoads loading whole

theorem runInv {ok : State → Action → Prop} (run : Run (server B P file) ok s log) : Inv B s log := by
  induction run with
  | start =>
    refine ⟨?_,.inl (fun _ mem => absurd mem List.not_mem_nil)⟩
    rintro ⟨before,s₁,written,after,split,-⟩
    simp at split
  | next run allowed taken ih =>
    obtain ⟨e,rfl,moves⟩ := stepMoves taken
    exact ⟨pendingStep moves ih.pending,loadingStep moves ih.loading⟩

end invariant

section progress
variable {B : Balancer Token} {P : Pipe} {file : Option Bytes} {s s' : State} {log log' : History}

def Quiet (s : State) : Prop := s.pc = .waiting ∧ s.queued = 0

def InForce (B : Balancer Token) (s : State) (log : History) : Prop :=
  Unrequested log ∨ ∃ s₁ after, Since log s₁ after ∧ Unrequested after ∧
    s.tree = loaded B s₁.file (taken after) ∧ (Unedited after → s.tree = reloadFile B .leaf s.file)

def Own : Action → Prop
  | .request | .edit _ _ => False
  | _ => True

inductive Alone (B : Balancer Token) (P : Pipe) (s : State) (log : History) : State → History → Prop where
  | stay : Alone B P s log s log
  | next {s₁ log₁ a s₂ es} (before : Alone B P s log s₁ log₁) (own : Own a)
      (taken : step B P s₁ a = some (s₂,es)) : Alone B P s log s₂ (log₁ ++ es.map (s₁,·))

def size (file : Option Bytes) : Nat := (file.getD []).length

def work (s : State) : Nat :=
  s.queued * (size s.file + 3) + match s.pc with
    | .waiting => 0
    | .aboutToReload => size s.file + 2
    | .reloading none => 1
    | .reloading (some (contents,got)) => contents.length - got.length + 1

theorem ownWork {a : Action} {es : List Event} (own : Own a) (taken : step B P s a = some (s',es)) :
    ∃ e, es = [e] ∧ work s' < work s := by
  cases a with
  | request => exact absurd own id
  | edit file contents => exact absurd own id
  | read n =>
    simp only [step,eventTaskRead] at taken
    split at taken <;> try contradiction
    rename_i here
    split at taken <;> try contradiction
    rename_i fits
    cases Option.some.inj taken
    refine ⟨_,rfl,?_⟩
    have rounds : (s.queued - n + 1) * (size s.file + 3) ≤ s.queued * (size s.file + 3) :=
      Nat.mul_le_mul_right _ (by omega)
    rw [Nat.add_mul] at rounds
    simp only [work,here]
    omega
  | start =>
    simp only [step,reloadStart] at taken
    split at taken <;> try contradiction
    rename_i here
    cases Option.some.inj taken
    refine ⟨_,rfl,?_⟩
    cases opened : s.file <;> simp [work,here,size,opened]
  | take n =>
    simp only [step,reloadTake] at taken
    split at taken <;> try contradiction
    rename_i contents got here
    split at taken <;> try contradiction
    rename_i some'
    cases Option.some.inj taken
    refine ⟨_,rfl,?_⟩
    have more := List.length_pos_of_ne_nil some'
    have shorter : contents.length - (got ++ (contents.drop got.length).take n).length <
        contents.length - got.length := by
      rw [List.length_append]
      rw [List.length_take,List.length_drop] at more ⊢
      omega
    simp only [work,here]
    omega
  | finish =>
    simp only [step,reloadFinish] at taken
    split at taken <;> try contradiction
    · rename_i here
      cases Option.some.inj taken
      exact ⟨_,rfl,by simp [work,here]⟩
    · rename_i contents got here
      split at taken <;> try contradiction
      cases Option.some.inj taken
      exact ⟨_,rfl,by simp [work,here]⟩

theorem ownNext (busy : ¬ Quiet s) : ∃ a, Own a ∧ (step B P s a).isSome := by
  cases here : s.pc with
  | waiting =>
    have some' : 0 < s.queued := Nat.pos_of_ne_zero (fun none' => busy ⟨here,none'⟩)
    exact ⟨.read 1,trivial,by simp [step,eventTaskRead,here,bufferSize,Nat.succ_le_of_lt some']⟩
  | aboutToReload => exact ⟨.start,trivial,by simp [step,reloadStart,here]⟩
  | reloading stream =>
    cases stream with
    | none => exact ⟨.finish,trivial,by simp [step,reloadFinish,here]⟩
    | some open' =>
      obtain ⟨contents,got⟩ := open'
      by_cases all : contents.drop got.length = []
      · exact ⟨.finish,trivial,by simp [step,reloadFinish,here,all]⟩
      · have more : (contents.drop got.length).take contents.length ≠ [] := by
          rw [List.take_of_length_le (by simp)]
          exact all
        exact ⟨.take contents.length,trivial,by simp only [step,reloadTake,here,if_neg more,Option.isSome_some]⟩

theorem aloneRun (run : Run (server B P file) (fun _ _ => True) s log) (alone : Alone B P s log s' log') :
    Run (server B P file) (fun _ _ => True) s' log' := by
  induction alone with
  | stay => exact run
  | next before own taken ih => exact .next ih trivial taken

theorem aloneWork (alone : Alone B P s log s' log') : log'.length + work s' ≤ log.length + work s := by
  induction alone with
  | stay => exact Nat.le_refl _
  | next before own taken ih =>
    obtain ⟨e,rfl,less⟩ := ownWork own taken
    rw [List.length_append,List.length_map,List.length_singleton]
    omega

theorem quietInForce (run : Run (server B P file) (fun _ _ => True) s log) (quiet : Quiet s) : InForce B s log := by
  have inv := runInv run
  have none' : ¬ Pending log := by
    intro pending
    rcases inv.pending pending with queued | about
    · rw [quiet.2] at queued
      contradiction
    · rw [quiet.1] at about
      contradiction
  have settled : Settled B s log := by
    have loading := inv.loading
    rw [Loading,quiet.1] at loading
    exact loading
  rcases settled with never | ⟨s₁,after,since,is,whole⟩
  · refine .inl ?_
    rintro ⟨s₂,e⟩ mem written rfl
    obtain ⟨left,right,split⟩ := List.append_of_mem mem
    exact none' ⟨left,s₂,written,right,split,fun x later => never x (by rw [split]; simp [later])⟩
  · exact .inr ⟨s₁,after,since,since.unrequested none',is,whole⟩

structure RequestKept (B : Balancer Token) (P : Pipe) (s : State) (log : History) : Prop where
  pending : Pending log → 0 < s.queued ∨ s.pc = .aboutToReload
  inForce : Quiet s → InForce B s log
  settles : ∀ s' log', Alone B P s log s' log' → log'.length ≤ log.length + work s ∧
    ((Quiet s' ∧ InForce B s' log') ∨ ∃ a, Own a ∧ (step B P s' a).isSome)

theorem requestsKept (B : Balancer Token) (P : Pipe) (file : Option Bytes) {s : State} {log : History}
    (run : Run (server B P file) (fun _ _ => True) s log) : RequestKept B P s log where
  pending := (runInv run).pending
  inForce := quietInForce run
  settles := by
    intro s' log' alone
    have steps := aloneWork alone
    refine ⟨by omega,?_⟩
    by_cases quiet : Quiet s'
    · exact .inl ⟨quiet,quietInForce (aloneRun run alone) quiet⟩
    · exact .inr (ownNext quiet)

def overtaken : List Action := [.request,.read 1,.start,.request,.finish]

theorem requestsKeptOvertaken : ∃ s log, Pending log ∧ s.pc = .waiting ∧
    RequestKept (.plain Token) ⟨1,by decide⟩ s log := by
  obtain ⟨s,log,run,shows⟩ := replayReaches (server (.plain Token) ⟨1,by decide⟩
      none) (fun _ _ => True) overtaken
    (fun x => decide (x.1.pc = .waiting ∧ x.2.map Prod.snd =
      [.requested true,.read 1,.started,.requested true,.finished])) (by decide)
  obtain ⟨here,events⟩ := of_decide_eq_true shows
  have third : log[3]?.map Prod.snd = some (.requested true) := by
    rw [← List.getElem?_map,events]
    rfl
  obtain ⟨s₁,split⟩ := cutAt third
  have last : ∀ x ∈ log.drop 4, x.2 ≠ .started := by
    intro x mem
    have seen : x.2 ∈ (log.map Prod.snd).drop 4 := by
      rw [← List.map_drop]
      exact List.mem_map_of_mem mem
    rw [events] at seen
    rw [List.mem_singleton.mp seen]
    simp
  exact ⟨s,log,⟨_,s₁,true,_,split,last⟩,here,requestsKept (.plain Token) ⟨1,by decide⟩ none run⟩

end progress

end HevFsh.EventTask
