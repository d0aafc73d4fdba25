import HevFsh.CText
import Mathlib.Logic.Function.Basic
import Mathlib.Data.Option.Basic

/-! Scanners that cut up a zero-terminated text in place. A scanner looks at one
character at a time, keeps pointers into the text and ends its parts with zeros. -/
namespace HevFsh.CursorScan
open CText

/- What is done about a character. `here` is set to point to it and `next` to what
follows it; `wild` is a store outside of an array. -/
inductive Move (S K : Type) where
  | refuse
  | wild
  | finish (cut : Bool)
  | stay (s : S)
  | pass (s : S) (here next : Option K)
  | cut (s : S) (next : Option K)

structure Cursor (S K : Type) where
  b : Text
  i : Nat
  s : S
  marks : K → Option Nat

inductive Outcome (S K : Type) where
  | finished (m : Cursor S K)
  | refused
  | outside
  | unfinished

section machine
variable {S K : Type} [DecidableEq K] (judge : S → UInt8 → Move S K)

def setMark {A : Type} (marks : K → Option A) (k : Option K) (a : A) : K → Option A :=
  match k with
  | none => marks
  | some k => Function.update marks k (some a)

def run : Nat → Cursor S K → Outcome S K
  | 0,_ => .unfinished
  | fuel+1,m => match m.b[m.i]? with
    | none => .outside
    | some c => match judge m.s c with
      | .refuse => .refused
      | .wild => .outside
      | .finish false => .finished m
      | .finish true => .finished { m with b := m.b.set m.i 0 }
      | .stay s => run fuel { m with s := s }
      | .pass s here next => run fuel
          ⟨m.b,m.i + 1,s,setMark (setMark m.marks here m.i) next (m.i + 1)⟩
      | .cut s next => run fuel ⟨m.b.set m.i 0,m.i + 1,s,setMark m.marks next (m.i + 1)⟩

def start (s : S) (str : Text) : Cursor S K := ⟨str ++ [0],0,s,fun _ => none⟩

def pointed (m : Cursor S K) (k : K) : Option Text := (m.marks k).map (fun p => content (m.b.drop p))

def found : Outcome S K → Option (K → Option Text)
  | .finished m => some (pointed m)
  | _ => none

def look (s : S) (c : UInt8) : Move S K :=
  match judge s c with
  | .stay s => judge s c
  | move => move

/- The same walk along a list: `done` has been passed. -/
def walk (done : Text) (s : S) (marks : K → Option Nat) : Text → Option (Text × (K → Option Nat))
  | [] => some (done,marks)
  | c::rest => match look judge s c with
    | .finish false => some (done ++ c :: rest,marks)
    | .finish true => some (done ++ 0 :: rest,marks)
    | .pass s here next => walk (done ++ [c]) s
        (setMark (setMark marks here done.length) next (done.length + 1)) rest
    | .cut s next => walk (done ++ [0]) s (setMark marks next (done.length + 1)) rest
    | _ => none

structure Slice where
  text : Text
  live : Bool
  deriving DecidableEq, Repr

def Slice.begun : Slice := ⟨[],true⟩

def Slice.grow (c : UInt8) (x : Slice) : Slice := if x.live then ⟨x.text ++ [c],true⟩ else x

def Slice.close (x : Slice) : Slice := ⟨x.text,false⟩

def grown (c : UInt8) (parts : K → Option Slice) : K → Option Slice := fun k => (parts k).map (Slice.grow c)

def closed (parts : K → Option Slice) : K → Option Slice := fun k => (parts k).map Slice.close

def read (s : S) (parts : K → Option Slice) : Text → Option (K → Option Slice)
  | [] => some parts
  | c::rest => match look judge s c with
    | .finish _ => some parts
    | .pass s here next => read s (setMark (grown c (setMark parts here .begun)) next .begun) rest
    | .cut s next => read s (setMark (closed parts) next .begun) rest
    | _ => none

/- A zero ends every scan and a scan that leaves the text as it is ends only there,
no state is changed twice at one character, and `good` states never go astray. -/
structure Lawful (good : S → Prop) : Prop where
  stops : ∀ s, judge s 0 = .finish false
  whole : ∀ s c, judge s c = .finish false → c = 0
  once : ∀ s c s' s'', judge s c = .stay s' → judge s' c ≠ .stay s''
  tame : ∀ s c, good s → judge s c ≠ .wild
  stays : ∀ s c s', good s → judge s c = .stay s' → good s'
  passes : ∀ s c s' here next, good s → judge s c = .pass s' here next → good s'
  cuts : ∀ s c s' next, good s → judge s c = .cut s' next → good s'

end machine

section scans
variable {S K : Type} {judge : S → UInt8 → Move S K} {good : S → Prop}

theorem middleGet (done rest : Text) (c : UInt8) : (done ++ c :: rest)[done.length]? = some c := by
  simp

theorem middleSet (done rest : Text) (c d : UInt8) : (done ++ c :: rest).set done.length d = done ++ d :: rest := by
  simp

theorem lookGood (lawful : Lawful judge good) {s : S} {c : UInt8} (fine : good s) :
    ∃ s', good s' ∧ look judge s c = judge s' c ∧ (∀ s'', judge s' c ≠ .stay s'') ∧
      (s' = s ∨ judge s c = .stay s') := by
  unfold look
  cases here : judge s c with
  | stay s' => exact ⟨s',lawful.stays s c s' fine here,rfl,fun s'' => lawful.once s c s' s'' here,.inr rfl⟩
  | refuse => exact ⟨s,fine,here.symm,by simp [here],.inl rfl⟩
  | wild => exact ⟨s,fine,here.symm,by simp [here],.inl rfl⟩
  | finish cut => exact ⟨s,fine,here.symm,by simp [here],.inl rfl⟩
  | pass s' a b => exact ⟨s,fine,here.symm,by simp [here],.inl rfl⟩
  | cut s' b => exact ⟨s,fine,here.symm,by simp [here],.inl rfl⟩

variable [DecidableEq K]

theorem runLooks (lawful : Lawful judge good) {s : S} (fine : good s) (done rest : Text) (c : UInt8)
    (marks : K → Option Nat) {fuel : Nat} {n : Nat} (enough : n + 2 ≤ fuel) :
    ∃ s' fuel', good s' ∧ look judge s c = judge s' c ∧ (∀ s'', judge s' c ≠ .stay s'') ∧ n ≤ fuel' ∧
      run judge fuel ⟨done ++ c :: rest,done.length,s,marks⟩ =
        run judge (fuel' + 1) ⟨done ++ c :: rest,done.length,s',marks⟩ := by
  obtain ⟨s',fine',looks,settled,same | stays⟩ := lookGood lawful (c := c) fine
  · subst same
    exact ⟨s',fuel - 1,fine',looks,settled,by omega,by rw [Nat.sub_add_cancel (by omega)]⟩
  · refine ⟨s',fuel - 2,fine',looks,settled,by omega,?_⟩
    have steps : fuel = (fuel - 2 + 1) + 1 := by omega
    rw [steps,run]
    simp only [middleGet,stays]
    congr 1

theorem runWalk (lawful : Lawful judge good) {rest : Text} (plain : ∀ c ∈ rest, c ≠ 0) (done : Text) {s : S}
    (fine : good s) (marks : K → Option Nat) {fuel : Nat} (enough : 2 * rest.length + 1 ≤ fuel) :
    match walk judge done s marks rest with
    | none => run judge fuel ⟨done ++ (rest ++ [0]),done.length,s,marks⟩ = .refused
    | some (b,marks') => ∃ i s', run judge fuel ⟨done ++ (rest ++ [0]),done.length,s,marks⟩ =
        .finished ⟨b ++ [0],i,s',marks'⟩ := by
  induction rest generalizing done s marks fuel with
  | nil =>
    obtain ⟨fuel,rfl⟩ : ∃ k, fuel = k + 1 := ⟨fuel - 1,by simp at enough; omega⟩
    refine ⟨done.length,s,?_⟩
    rw [run]
    simp only [List.nil_append,middleGet,lawful.stops s]
  | cons c rest ih =>
    have later := fun x mem => plain x (List.mem_cons_of_mem c mem)
    have visible := plain c List.mem_cons_self
    simp only [List.length_cons] at enough
    obtain ⟨s',fuel',fine',looks,settled,enough',runs⟩ := runLooks lawful fine done (rest ++ [0]) c marks
      (show 2 * rest.length + 1 + 2 ≤ fuel by omega)
    rw [List.cons_append,runs,walk,looks,run]
    simp only [middleGet]
    cases move : judge s' c with
    | refuse => rfl
    | wild => exact absurd move (lawful.tame s' c fine')
    | stay s'' => exact absurd move (settled s'')
    | finish cut =>
      cases cut with
      | false => exact absurd (lawful.whole s' c move) visible
      | true => exact ⟨done.length,s',by simp⟩
    | pass s'' here next =>
      have front : done ++ c :: (rest ++ [0]) = (done ++ [c]) ++ (rest ++ [0]) := by simp
      have size : done.length + 1 = (done ++ [c]).length := by simp
      simp only [front,size]
      exact ih later _ (lawful.passes s' c s'' here next fine' move) _ enough'
    | cut s'' next =>
      have front : done ++ 0 :: (rest ++ [0]) = (done ++ [0]) ++ (rest ++ [0]) := by simp
      have size : done.length + 1 = (done ++ [(0 : UInt8)]).length := by simp
      simp only [middleSet,front,size]
      exact ih later _ (lawful.cuts s' c s'' next fine' move) _ enough'

end scans

theorem foundSome {S K : Type} {o : Outcome S K} {out : K → Option Text} (is : found o = some out) :
    ∃ m, o = .finished m ∧ pointed m = out := by
  cases o with
  | finished m => exact ⟨m,rfl,Option.some.inj is⟩
  | refused => contradiction
  | outside => contradiction
  | unfinished => contradiction

section slices
variable {S K : Type}

structure Holds (done : Text) (p : Nat) (x : Slice) : Prop where
  inside : p ≤ done.length
  plain : ∀ c ∈ x.text, c ≠ 0
  growing : x.live = true → done.drop p = x.text
  ended : x.live = false → ∃ more, done.drop p = x.text ++ 0 :: more

def Slices (done : Text) (marks : K → Option Nat) (parts : K → Option Slice) : Prop :=
  ∀ k, Option.Rel (Holds done) (marks k) (parts k)

theorem slicesStart : Slices [] (fun _ : K => none) (fun _ => none) := fun _ => .none

theorem holdsBegun (done : Text) : Holds done done.length .begun :=
  ⟨Nat.le_refl _,by simp [Slice.begun],fun _ => by simp [Slice.begun],fun still => by simp [Slice.begun] at still⟩

theorem holdsGrow {done : Text} {p : Nat} {x : Slice} {c : UInt8} (visible : c ≠ 0) (holds : Holds done p x) :
    Holds (done ++ [c]) p (x.grow c) := by
  obtain ⟨inside,plain,growing,ended⟩ := holds
  have front : (done ++ [c]).drop p = done.drop p ++ [c] := List.drop_append_of_le_length inside
  cases live : x.live with
  | true =>
    have grows : x.grow c = ⟨x.text ++ [c],true⟩ := by simp [Slice.grow,live]
    rw [grows]
    refine ⟨by simp; omega,?_,fun _ => by rw [front,growing live],fun still => by simp at still⟩
    intro d mem
    rcases List.mem_append.mp mem with old | new
    · exact plain d old
    · rw [List.mem_singleton.mp new]
      exact visible
  | false =>
    have grows : x.grow c = x := by simp [Slice.grow,live]
    rw [grows]
    refine ⟨by simp; omega,plain,fun still => by simp [live] at still,fun _ => ?_⟩
    obtain ⟨more,rest⟩ := ended live
    exact ⟨more ++ [c],by rw [front,rest]; simp⟩

theorem holdsClose {done : Text} {p : Nat} {x : Slice} (holds : Holds done p x) : Holds (done ++ [0]) p x.close := by
  obtain ⟨inside,plain,growing,ended⟩ := holds
  have front : (done ++ [0]).drop p = done.drop p ++ [0] := List.drop_append_of_le_length inside
  refine ⟨by simp; omega,plain,fun still => by simp [Slice.close] at still,fun _ => ?_⟩
  cases live : x.live with
  | true => exact ⟨[],by rw [front,growing live]; rfl⟩
  | false =>
    obtain ⟨more,rest⟩ := ended live
    exact ⟨more ++ [0],by rw [front,rest]; simp [Slice.close]⟩

theorem contentPart {x y : Text} (plain : ∀ c ∈ x, c ≠ 0) : content (x ++ 0 :: y) = x := by
  unfold content
  rw [List.takeWhile_append_of_pos (by simpa using plain)]
  simp

theorem holdsContent {done rest : Text} {p : Nat} {x : Slice} (holds : Holds done p x) :
    content ((done ++ 0 :: rest).drop p) = x.text := by
  obtain ⟨inside,plain,growing,ended⟩ := holds
  rw [List.drop_append_of_le_length inside]
  cases live : x.live with
  | true => rw [growing live,contentPart plain]
  | false =>
    obtain ⟨more,rest'⟩ := ended live
    rw [rest',List.append_assoc,List.cons_append,contentPart plain]

theorem slicesGrow {done : Text} {marks : K → Option Nat} {parts : K → Option Slice} {c : UInt8} (visible : c ≠ 0)
    (slices : Slices done marks parts) : Slices (done ++ [c]) marks (grown c parts) := by
  intro k
  simp only [grown]
  generalize marks k = mark,parts k = part,slices k = here
  cases here with
  | none => exact .none
  | some holds => exact .some (holdsGrow visible holds)

theorem slicesClose {done : Text} {marks : K → Option Nat} {parts : K → Option Slice}
    (slices : Slices done marks parts) :
    Slices (done ++ [0]) marks (closed parts) := by
  intro k
  simp only [closed]
  generalize marks k = mark,parts k = part,slices k = here
  cases here with
  | none => exact .none
  | some holds => exact .some (holdsClose holds)

theorem slicesContent {done rest : Text} {marks : K → Option Nat} {parts : K → Option Slice}
    (slices : Slices done marks parts) (k : K) :
    (marks k).map (fun p => content ((done ++ 0 :: rest).drop p)) = (parts k).map Slice.text := by
  generalize marks k = mark,parts k = part,slices k = here
  cases here with
  | none => rfl
  | some holds => exact congrArg some (holdsContent holds)

variable [DecidableEq K] {judge : S → UInt8 → Move S K} {good : S → Prop}

theorem slicesSet {done : Text} {marks : K → Option Nat} {parts : K → Option Slice}
    (slices : Slices done marks parts)
    (k : Option K) : Slices done (setMark marks k done.length) (setMark parts k .begun) := by
  cases k with
  | none => exact slices
  | some k =>
    intro k'
    by_cases same : k' = k
    · subst same
      simp only [setMark,Function.update_self]
      exact .some (holdsBegun done)
    · simp only [setMark,Function.update_of_ne same]
      exact slices k'

theorem walkReads (lawful : Lawful judge good) {rest : Text} (plain : ∀ c ∈ rest, c ≠ 0) {done : Text} (s : S)
    (fine : good s) {marks : K → Option Nat} {parts : K → Option Slice} (slices : Slices done marks parts) :
    (walk judge done s marks rest).map (fun out k => (out.2 k).map (fun p => content ((out.1 ++ [0]).drop p))) =
      (read judge s parts rest).map (fun parts k => (parts k).map Slice.text) := by
  induction rest generalizing done s marks parts with
  | nil =>
    simp only [walk,read,Option.map_some,Option.some.injEq]
    funext k
    exact slicesContent slices k
  | cons c rest ih =>
    have later := fun x mem => plain x (List.mem_cons_of_mem c mem)
    have visible := plain c List.mem_cons_self
    obtain ⟨s',fine',looks,settled,-⟩ := lookGood lawful (c := c) fine
    rw [walk,read,looks]
    cases move : judge s' c with
    | refuse => rfl
    | wild => rfl
    | stay s'' => rfl
    | finish cut =>
      cases cut with
      | false => exact absurd (lawful.whole s' c move) visible
      | true =>
        simp only [Option.map_some,Option.some.injEq]
        funext k
        rw [List.append_assoc,List.cons_append]
        exact slicesContent slices k
    | pass s'' here next =>
      refine ih later _ (lawful.passes s' c s'' here next fine' move) ?_
      have grows := slicesSet (slicesGrow visible (slicesSet slices here)) next
      rwa [List.length_append,List.length_singleton] at grows
    | cut s'' next =>
      refine ih later _ (lawful.cuts s' c s'' next fine' move) ?_
      have closes := slicesSet (slicesClose slices) next
      rwa [List.length_append,List.length_singleton] at closes

def texts (parts : K → Option Slice) : K → Option Text := fun k => (parts k).map Slice.text

theorem runReads (lawful : Lawful judge good) {str : Text} (plain : ∀ c ∈ str, c ≠ 0) {s : S} (fine : good s)
    {fuel : Nat} (enough : 2 * str.length + 1 ≤ fuel) :
    match (read judge s (fun _ => none) str).map texts with
    | none => run judge fuel (start s str) = .refused
    | some out => ∃ m, run judge fuel (start s str) = .finished m ∧ pointed m = out := by
  have runs := runWalk lawful plain [] fine (fun _ => none) enough
  have reads := walkReads lawful plain s fine slicesStart
  unfold texts
  rw [← reads]
  cases walked : walk judge [] s (fun _ => none) str with
  | none =>
    rw [walked] at runs
    exact runs
  | some out =>
    rw [walked] at runs
    obtain ⟨i,s',ends⟩ := runs
    exact ⟨_,ends,rfl⟩

theorem runFound (lawful : Lawful judge good) {str : Text} (plain : ∀ c ∈ str, c ≠ 0) {s : S} (fine : good s)
    {fuel : Nat} (enough : 2 * str.length + 1 ≤ fuel) :
    found (run judge fuel (start s str)) = (read judge s (fun _ => none) str).map texts := by
  have reads := runReads lawful plain fine enough
  cases out : (read judge s (fun _ => none) str).map texts with
  | none =>
    rw [out] at reads
    rw [reads]
    rfl
  | some out' =>
    rw [out] at reads
    obtain ⟨m,ends,same⟩ := reads
    rw [ends,← same]
    rfl

theorem runEnds (lawful : Lawful judge good) {str : Text} (plain : ∀ c ∈ str, c ≠ 0) {s : S} (fine : good s)
    {fuel : Nat} (enough : 2 * str.length + 1 ≤ fuel) :
    run judge fuel (start s str) = .refused ∨ ∃ m, run judge fuel (start s str) = .finished m := by
  have reads := runReads lawful plain fine enough
  cases out : (read judge s (fun _ => none) str).map texts with
  | none =>
    rw [out] at reads
    exact .inl reads
  | some out' =>
    rw [out] at reads
    obtain ⟨m,ends,-⟩ := reads
    exact .inr ⟨m,ends⟩

end slices

end HevFsh.CursorScan
