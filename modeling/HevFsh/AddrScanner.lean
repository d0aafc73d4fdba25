import HevFsh.AddrList
import HevFsh.CursorScan

/-! parse_addr and parse_addr_pair on the copy of the text that strdup makes: index by
index, with every read and every store that they do. The parsers of CommandLine are
the same walks along a list. -/
namespace HevFsh.AddrScanner
open CText CommandLine CursorScan

inductive Part where
  | addr | port | token
  deriving DecidableEq, Repr

def judgeAddr (wants : Bool) (s : Nat) (c : UInt8) : Move Nat Part :=
  if c = 0 then .finish false
  else if c = comma then .finish true
  else if c = colon then
    if s ≠ 1 ∧ s ≠ 4 ∧ s ≠ 5 ∧ s ≠ 6 then .refuse
    else if s = 1 then .cut 2 (some .port)
    else if s = 6 then .cut 7 (some .port)
    else .pass 5 none none
  else if c = slash then
    if s ≠ 1 ∧ s ≠ 2 ∧ s ≠ 6 ∧ s ≠ 7 then .refuse
    else .cut s (if wants then some .token else none)
  else if c = opening then
    if s ≠ 0 then .refuse else .pass 4 none (some .addr)
  else if c = closing then
    if s ≠ 5 then .refuse else .cut 6 none
  else if s = 0 then .pass 1 (some .addr) none
  else if s = 4 then .stay 5
  else .pass s none none

structure PairState where
  s : Nat
  j : Nat
  deriving DecidableEq, Repr

def slot (j : Nat) (store : Option (Fin 4) → Move PairState (Fin 4)) : Move PairState (Fin 4) :=
  if room : j < 4 then store (some ⟨j,room⟩) else .wild

def judgePair (m : PairState) (c : UInt8) : Move PairState (Fin 4) :=
  if c = 0 then .finish false
  else if c = colon then
    if m.s ≠ 1 ∧ m.s ≠ 2 ∧ m.s ≠ 3 then .refuse
    else if m.s = 1 ∨ m.s = 3 then .cut ⟨if m.j < 4 then 0 else m.s,m.j⟩ none
    else .pass m none none
  else if c = opening then
    if m.s ≠ 0 then .refuse else slot m.j (fun k => .pass ⟨2,m.j + 1⟩ none k)
  else if c = closing then
    if m.s ≠ 2 then .refuse else .cut ⟨3,m.j⟩ none
  else if m.s = 0 then slot m.j (fun k => .pass ⟨1,m.j + 1⟩ k none)
  else .pass m none none

def addrRun (wants : Bool) (str : Text) : Outcome Nat Part :=
  run (judgeAddr wants) (2 * str.length + 1) (start 0 str)

def pairRun (str : Text) : Outcome PairState (Fin 4) := run judgePair (2 * str.length + 1) (start ⟨0,0⟩ str)

def Room (m : PairState) : Prop := m.s = 0 → m.j < 4

section laws
variable {wants : Bool} {s : Nat} {c : UInt8} {m : PairState}

inductive AddrMoves (s : Nat) (c : UInt8) : Move Nat Part → Prop where
  | ends (zero : c = 0) : AddrMoves s c (.finish false)
  | leaves (isComma : c = comma) : AddrMoves s c (.finish true)
  | refuses : AddrMoves s c .refuse
  | cuts (s' : Nat) (k : Option Part) : AddrMoves s c (.cut s' k)
  | passes (s' : Nat) (here next : Option Part) : AddrMoves s c (.pass s' here next)
  | stays (fourth : s = 4) (plain : ¬ Special c) : AddrMoves s c (.stay 5)

theorem addrMoves (wants : Bool) (s : Nat) (c : UInt8) : AddrMoves s c (judgeAddr wants s c) := by
  have refused : ∀ {p : Prop} [Decidable p] {move : Move Nat Part}, AddrMoves s c move →
      AddrMoves s c (if p then .refuse else move) := by
    intro p _ move moves
    by_cases refuse : p
    · rw [if_pos refuse]
      exact .refuses
    · rw [if_neg refuse]
      exact moves
  unfold judgeAddr
  by_cases h₀ : c = 0
  · rw [if_pos h₀]
    exact .ends h₀
  by_cases h₁ : c = comma
  · rw [if_neg h₀,if_pos h₁]
    exact .leaves h₁
  rw [if_neg h₀,if_neg h₁]
  by_cases h₂ : c = colon
  · rw [if_pos h₂]
    refine refused ?_
    by_cases bare : s = 1
    · rw [if_pos bare]
      exact .cuts _ _
    by_cases behind : s = 6
    · rw [if_neg bare,if_pos behind]
      exact .cuts _ _
    · rw [if_neg bare,if_neg behind]
      exact .passes _ _ _
  rw [if_neg h₂]
  by_cases h₃ : c = slash
  · rw [if_pos h₃]
    exact refused (.cuts _ _)
  rw [if_neg h₃]
  by_cases h₄ : c = opening
  · rw [if_pos h₄]
    exact refused (.passes _ _ _)
  rw [if_neg h₄]
  by_cases h₅ : c = closing
  · rw [if_pos h₅]
    exact refused (.cuts _ _)
  rw [if_neg h₅]
  by_cases first : s = 0
  · rw [if_pos first]
    exact .passes _ _ _
  by_cases fourth : s = 4
  · rw [if_neg first,if_pos fourth]
    exact .stays fourth (by simp [Special,h₁,h₂,h₃,h₄,h₅])
  · rw [if_neg first,if_neg fourth]
    exact .passes _ _ _

theorem plainStays (wants : Bool) (visible : c ≠ 0) (plain : ¬ Special c) : judgeAddr wants 4 c = .stay 5 ∧
    judgeAddr wants 5 c = .pass 5 none none := by
  simp only [Special,not_or] at plain
  obtain ⟨h₁,h₂,h₃,h₄,h₅⟩ := plain
  simp [judgeAddr,visible,h₁,h₂,h₃,h₄,h₅]

theorem addrLawful (wants : Bool) : Lawful (judgeAddr wants) (fun _ => True) where
  stops _ := rfl
  whole s c h := by
    have moves := addrMoves wants s c
    rw [h] at moves
    cases moves with
    | ends zero => exact zero
  once s c s' s'' h h' := by
    have moves := addrMoves wants s c
    have moves' := addrMoves wants s' c
    rw [h] at moves
    rw [h'] at moves'
    cases moves with
    | stays fourth plain =>
      cases moves' with
      | stays fourth' => contradiction
  tame s c _ h := by
    have moves := addrMoves wants s c
    rw [h] at moves
    cases moves
  stays _ _ _ _ _ := trivial
  passes _ _ _ _ _ _ _ := trivial
  cuts _ _ _ _ _ _ := trivial

inductive PairMoves (m : PairState) (c : UInt8) : Move PairState (Fin 4) → Prop where
  | ends (zero : c = 0) : PairMoves m c (.finish false)
  | refuses : PairMoves m c .refuse
  | overruns (first : m.s = 0) (full : ¬ m.j < 4) : PairMoves m c .wild
  | cuts (m' : PairState) (room : Room m') : PairMoves m c (.cut m' none)
  | passes (m' : PairState) (here next : Option (Fin 4)) (room : m' = m ∨ m'.s ≠ 0) :
      PairMoves m c (.pass m' here next)

theorem slotMoves {store : Option (Fin 4) → Move PairState (Fin 4)} (first : m.s = 0)
    (moves : ∀ k, PairMoves m c (store k)) : PairMoves m c (slot m.j store) := by
  unfold slot
  by_cases room : m.j < 4
  · rw [dif_pos room]
    exact moves _
  · rw [dif_neg room]
    exact .overruns first room

theorem pairMoves (m : PairState) (c : UInt8) : PairMoves m c (judgePair m c) := by
  unfold judgePair
  by_cases h₀ : c = 0
  · rw [if_pos h₀]
    exact .ends h₀
  rw [if_neg h₀]
  by_cases h₁ : c = colon
  · rw [if_pos h₁]
    by_cases early : m.s ≠ 1 ∧ m.s ≠ 2 ∧ m.s ≠ 3
    · rw [if_pos early]
      exact .refuses
    by_cases behind : m.s = 1 ∨ m.s = 3
    · rw [if_neg early,if_pos behind]
      refine .cuts _ (fun first => ?_)
      by_cases free : m.j < 4
      · exact free
      · simp only [if_neg free] at first
        exact absurd behind (by omega)
    · rw [if_neg early,if_neg behind]
      exact .passes _ _ _ (.inl rfl)
  rw [if_neg h₁]
  by_cases h₂ : c = opening
  · rw [if_pos h₂]
    by_cases late : m.s ≠ 0
    · rw [if_pos late]
      exact .refuses
    · rw [if_neg late]
      exact slotMoves (not_not.mp late) (fun k => .passes _ _ _ (.inr (by simp)))
  rw [if_neg h₂]
  by_cases h₃ : c = closing
  · rw [if_pos h₃]
    by_cases outside : m.s ≠ 2
    · rw [if_pos outside]
      exact .refuses
    · rw [if_neg outside]
      exact .cuts _ nofun
  rw [if_neg h₃]
  by_cases first : m.s = 0
  · rw [if_pos first]
    exact slotMoves first (fun k => .passes _ _ _ (.inr (by simp)))
  · rw [if_neg first]
    exact .passes _ _ _ (.inl rfl)

theorem pairLawful : Lawful judgePair Room where
  stops _ := rfl
  whole m c h := by
    have moves := pairMoves m c
    rw [h] at moves
    cases moves with
    | ends zero => exact zero
  once m c s' s'' h := by
    have moves := pairMoves m c
    rw [h] at moves
    cases moves
  tame m c room h := by
    have moves := pairMoves m c
    rw [h] at moves
    cases moves with
    | overruns first full => exact full (room first)
  stays m c s' _ h := by
    have moves := pairMoves m c
    rw [h] at moves
    cases moves
  passes m c s' here next room h := by
    have moves := pairMoves m c
    rw [h] at moves
    cases moves with
    | passes _ _ _ kept =>
      rcases kept with same | begun
      · exact same ▸ room
      · exact fun first => absurd first begun
  cuts m c s' next _ h := by
    have moves := pairMoves m c
    rw [h] at moves
    cases moves with
    | cuts _ room => exact room

end laws

section lists
variable {wants : Bool} {done rest : Text} {s : Nat} {p : Option Nat × Option Nat × Option Nat} {ps : List Nat}

def marksOf (wants : Bool) (p : Option Nat × Option Nat × Option Nat) : Part → Option Nat
  | .addr => p.1
  | .port => p.2.1
  | .token => if wants then p.2.2 else none

theorem marksAddr (wants : Bool) (p : Option Nat × Option Nat × Option Nat) (n : Nat) :
    setMark (marksOf wants p) (some .addr) n = marksOf wants (some n,p.2.1,p.2.2) := by
  funext k
  cases k <;> rfl

theorem marksPort (wants : Bool) (p : Option Nat × Option Nat × Option Nat) (n : Nat) :
    setMark (marksOf wants p) (some .port) n = marksOf wants (p.1,some n,p.2.2) := by
  funext k
  cases k <;> rfl

theorem marksToken (wants : Bool) (p : Option Nat × Option Nat × Option Nat) (n : Nat) :
    setMark (marksOf wants p) (if wants then some .token else none) n = marksOf wants (p.1,p.2.1,some n) := by
  funext k
  cases wants <;> cases k <;> rfl

theorem marksNone {A : Type} (marks : Part → Option A) (n : A) : setMark marks none n = marks := rfl

theorem addrLook (wants : Bool) (s : Nat) {c : UInt8} (visible : c ≠ 0) : look (judgeAddr wants) s c =
    if s = 4 ∧ ¬ Special c then .pass 5 none none else judgeAddr wants s c := by
  by_cases here : s = 4 ∧ ¬ Special c
  · obtain ⟨rfl,plain⟩ := here
    rw [look,(plainStays wants visible plain).1,if_pos ⟨rfl,plain⟩]
    exact (plainStays wants visible plain).2
  · have moves := addrMoves wants s c
    rw [if_neg here,look]
    generalize judgeAddr wants s c = move at moves
    cases moves with
    | stays fourth plain => exact absurd ⟨fourth,plain⟩ here
    | _ => rfl

theorem addrWalk (plain : ∀ c ∈ rest, c ≠ 0) : walk (judgeAddr wants) done s (marksOf wants p) rest =
    (parseAddrLoop done s p rest).map (fun q => (q.b,marksOf wants (q.addr,q.port,q.token))) := by
  induction rest generalizing done s p with
  | nil => rfl
  | cons c rest ih =>
    have later := fun x mem => plain x (List.mem_cons_of_mem c mem)
    have visible := plain c List.mem_cons_self
    have next := fun done s p => @ih done s p later
    rw [walk,parseAddrLoop,addrLook wants s visible]
    by_cases fourth : s = 4 ∧ ¬ Special c
    · obtain ⟨rfl,plain⟩ := fourth
      rw [if_pos ⟨rfl,plain⟩]
      simp only [Special,not_or] at plain
      obtain ⟨h₁,h₂,h₃,h₄,h₅⟩ := plain
      rw [if_neg h₁,if_neg h₂,if_neg h₃,if_neg h₄,if_neg h₅,if_neg (by decide),if_pos rfl]
      exact next _ _ _
    rw [if_neg fourth,judgeAddr,if_neg visible]
    by_cases isComma : c = comma
    · rw [if_pos isComma,if_pos isComma]
      rfl
    rw [if_neg isComma,if_neg isComma]
    by_cases isColon : c = colon
    · rw [if_pos isColon,if_pos isColon]
      by_cases early : s ≠ 1 ∧ s ≠ 4 ∧ s ≠ 5 ∧ s ≠ 6
      · rw [if_pos early,if_pos early]
        rfl
      rw [if_neg early,if_neg early]
      by_cases bare : s = 1
      · rw [if_pos bare,if_pos bare]
        simp only [marksPort]
        exact next _ _ _
      rw [if_neg bare,if_neg bare]
      by_cases behind : s = 6
      · rw [if_pos behind,if_pos behind]
        simp only [marksPort]
        exact next _ _ _
      · rw [if_neg behind,if_neg behind]
        exact next _ _ _
    rw [if_neg isColon,if_neg isColon]
    by_cases isSlash : c = slash
    · rw [if_pos isSlash,if_pos isSlash]
      by_cases early : s ≠ 1 ∧ s ≠ 2 ∧ s ≠ 6 ∧ s ≠ 7
      · rw [if_pos early,if_pos early]
        rfl
      · rw [if_neg early,if_neg early]
        simp only [marksToken]
        exact next _ _ _
    rw [if_neg isSlash,if_neg isSlash]
    by_cases isOpening : c = opening
    · rw [if_pos isOpening,if_pos isOpening]
      by_cases late : s ≠ 0
      · rw [if_pos late,if_pos late]
        rfl
      · rw [if_neg late,if_neg late]
        simp only [marksNone,marksAddr]
        exact next _ _ _
    rw [if_neg isOpening,if_neg isOpening]
    by_cases isClosing : c = closing
    · rw [if_pos isClosing,if_pos isClosing]
      by_cases outside : s ≠ 5
      · rw [if_pos outside,if_pos outside]
        rfl
      · rw [if_neg outside,if_neg outside]
        exact next _ _ _
    rw [if_neg isClosing,if_neg isClosing]
    by_cases first : s = 0
    · rw [if_pos first,if_pos first]
      simp only [marksNone,marksAddr]
      exact next _ _ _
    have other : s ≠ 4 := fun same =>
      fourth ⟨same,by simp [Special,isComma,isColon,isSlash,isOpening,isClosing]⟩
    rw [if_neg first,if_neg first,if_neg other,if_neg other]
    exact next _ _ _

theorem contentEnd (b : Text) (p : Nat) : content ((b ++ [0]).drop p) = content (b.drop p) := by
  have same : content (b.drop p ++ [0]) = content (b.drop p) := by
    unfold content
    rw [List.takeWhile_append]
    split
    · rename_i whole
      have all := List.takeWhile_prefix (fun c : UInt8 => decide (c ≠ 0)) (l := b.drop p)
      rw [all.eq_of_length whole]
      simp
    · rfl
  by_cases inside : p ≤ b.length
  · rw [List.drop_append_of_le_length inside,same]
  · rw [List.drop_eq_nil_of_le (by simp; omega),List.drop_eq_nil_of_le (by omega)]

theorem addrFinds {str : Text} (plain : ∀ c ∈ str, c ≠ 0) (wants : Bool) :
    (parseAddr str).map (fun q k => (marksOf wants (q.addr,q.port,q.token) k).map (textAt q.b)) =
      found (addrRun wants str) := by
  have reads := walkReads (addrLawful wants) plain 0 trivial slicesStart
  rw [addrRun,runFound (addrLawful wants) plain trivial (Nat.le_refl _)]
  unfold texts
  rw [← reads]
  have walked := @addrWalk wants [] str 0 (none,none,none) plain
  have unset : marksOf wants (none,none,none) = fun _ => none := by
    funext k
    cases wants <;> cases k <;> rfl
  rw [unset] at walked
  rw [walked,Option.map_map]
  unfold parseAddr
  congr 1
  funext q k
  simp only [Function.comp_apply]
  congr 1
  funext p
  exact (contentEnd q.b p).symm

def slots {A : Type} (xs : List A) : Fin 4 → Option A := fun k => xs[k.1]?

theorem slotsSet {A : Type} (xs : List A) (room : xs.length < 4) (x : A) :
    setMark (slots xs) (some ⟨xs.length,room⟩) x = slots (xs ++ [x]) := by
  funext k
  simp only [setMark]
  by_cases same : k = ⟨xs.length,room⟩
  · subst same
    simp [slots]
  · have other : k.1 ≠ xs.length := fun is => same (Fin.ext is)
    rw [Function.update_of_ne same]
    unfold slots
    by_cases inside : k.1 < xs.length
    · rw [List.getElem?_append_left inside]
    · rw [List.getElem?_eq_none (by omega),List.getElem?_eq_none (by simp; omega)]

theorem pairLook {m : PairState} {c : UInt8} : look judgePair m c = judgePair m c := by
  unfold look
  cases here : judgePair m c with
  | stay m' =>
    have moves := pairMoves m c
    rw [here] at moves
    cases moves
  | _ => rfl

theorem pairWalk (plain : ∀ c ∈ rest, c ≠ 0) (room : s = 0 → ps.length < 4) :
    walk judgePair done ⟨s,ps.length⟩ (slots ps) rest =
      (parseAddrPairLoop done s ps rest).map (fun q => (q.1,slots q.2)) := by
  induction rest generalizing done s ps with
  | nil => rfl
  | cons c rest ih =>
    have later := fun x mem => plain x (List.mem_cons_of_mem c mem)
    have visible := plain c List.mem_cons_self
    have next := fun done s ps => @ih done s ps later
    rw [walk,parseAddrPairLoop,pairLook,judgePair,if_neg visible]
    by_cases isColon : c = colon
    · rw [if_pos isColon,if_pos isColon]
      by_cases early : s ≠ 1 ∧ s ≠ 2 ∧ s ≠ 3
      · rw [if_pos early,if_pos early]
        rfl
      rw [if_neg early,if_neg early]
      by_cases ends : s = 1 ∨ s = 3
      · rw [if_pos ends,if_pos ends]
        refine next _ _ _ (fun again => ?_)
        by_cases free : ps.length < 4
        · exact free
        · have first : s = 0 := by simpa [free] using again
          omega
      · rw [if_neg ends,if_neg ends]
        exact next _ _ _ room
    rw [if_neg isColon,if_neg isColon]
    by_cases isOpening : c = opening
    · rw [if_pos isOpening,if_pos isOpening]
      by_cases late : s ≠ 0
      · rw [if_pos late,if_pos late]
        rfl
      · have free := room (by omega)
        rw [if_neg late,if_neg late,slot,dif_pos free]
        have opened := next (done ++ [c]) 2 (ps ++ [done.length + 1]) (by omega)
        rw [List.length_append,List.length_singleton] at opened
        simp only [setMark,← opened,← slotsSet ps free]
    rw [if_neg isOpening,if_neg isOpening]
    by_cases isClosing : c = closing
    · rw [if_pos isClosing,if_pos isClosing]
      by_cases outside : s ≠ 2
      · rw [if_pos outside,if_pos outside]
        rfl
      · rw [if_neg outside,if_neg outside]
        exact next _ _ _ (by omega)
    rw [if_neg isClosing,if_neg isClosing]
    by_cases first : s = 0
    · have free := room first
      rw [if_pos first,if_pos first,slot,dif_pos free]
      have begun := next (done ++ [c]) 1 (ps ++ [done.length]) (by omega)
      rw [List.length_append,List.length_singleton] at begun
      simp only [setMark,← begun,← slotsSet ps free]
    · rw [if_neg first,if_neg first]
      exact next _ _ _ room

theorem pairFew (room : s = 0 → ps.length < 4) (few : ps.length ≤ 4) {q : Text × List Nat}
    (is : parseAddrPairLoop done s ps rest = some q) : q.2.length ≤ 4 := by
  induction rest generalizing done s ps with
  | nil =>
    cases Option.some.inj is
    exact few
  | cons c rest ih =>
    unfold parseAddrPairLoop at is
    split at is
    · split at is
      · contradiction
      split at is
      · refine ih (fun again => ?_) few is
        by_cases free : ps.length < 4
        · exact free
        · have first : s = 0 := by simpa [free] using again
          omega
      · exact ih room few is
    split at is
    · split at is
      · contradiction
      · have free := room (by omega)
        exact ih (by omega) (by simp; omega) is
    split at is
    · split at is
      · contradiction
      · exact ih (by omega) few is
    split at is
    · rename_i first
      have free := room first
      exact ih (by omega) (by simp; omega) is
    · exact ih room few is

theorem pairFinds {str : Text} (plain : ∀ c ∈ str, c ≠ 0) :
    (parseAddrPair str).map (fun q => slots (q.2.map (textAt q.1))) = found (pairRun str) := by
  have room : Room ⟨0,0⟩ := fun _ => by decide
  have reads := walkReads pairLawful plain ⟨0,0⟩ room slicesStart
  rw [pairRun,runFound pairLawful plain room (Nat.le_refl _)]
  unfold texts
  rw [← reads]
  have walked := @pairWalk [] str 0 [] plain (fun _ => by decide)
  have unset : slots ([] : List Nat) = fun _ => none := rfl
  rw [unset] at walked
  rw [List.length_nil] at walked
  rw [walked,Option.map_map]
  unfold parseAddrPair
  congr 1
  funext q k
  simp only [Function.comp_apply,slots,List.getElem?_map]
  congr 1
  funext p
  exact (contentEnd q.1 p).symm

theorem pairEnds {str : Text} (plain : ∀ c ∈ str, c ≠ 0) :
    pairRun str = .refused ∨ ∃ m, pairRun str = .finished m :=
  runEnds pairLawful plain (fun _ => by decide) (Nat.le_refl _)

end lists

end HevFsh.AddrScanner
