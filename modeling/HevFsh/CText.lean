import Mathlib.Algebra.Group.Int.Defs
import Mathlib.Algebra.Group.Nat.Defs
import Mathlib.Data.List.Induction
import Mathlib.Data.List.TakeWhile

/-! Strings as the C library sees them: the bytes from a pointer on, up to the
first zero. What lies behind the last byte of a list reads as zero. -/
namespace HevFsh.CText

abbrev Text := List UInt8

def content (s : Text) : Text := s.takeWhile (fun c => c ≠ 0)

def strlen (s : Text) : Nat := (content s).length

def charAt (s : Text) (n : Nat) : UInt8 := s.getD n 0

def isspace (c : UInt8) : Bool := c = 32 ∨ (9 ≤ c ∧ c ≤ 13)

def isdigit (c : UInt8) : Bool := 48 ≤ c ∧ c ≤ 57

def hexVal (c : UInt8) : Option Nat :=
  if 48 ≤ c ∧ c ≤ 57 then some (c.toNat - 48)
  else if 97 ≤ c ∧ c ≤ 102 then some (c.toNat - 87)
  else if 65 ≤ c ∧ c ≤ 70 then some (c.toNat - 55)
  else none

def isxdigit (c : UInt8) : Bool := (hexVal c).isSome

def tolower (c : UInt8) : UInt8 := if 65 ≤ c ∧ c ≤ 90 then c + 32 else c

def hexDigit (n : Nat) : UInt8 := if n < 10 then UInt8.ofNat (48 + n) else UInt8.ofNat (87 + n)

def sign : Text → Bool × Text
  | 45::rest => (true,rest)
  | 43::rest => (false,rest)
  | s => (false,s)

def skipHex (s : Text) : Text :=
  if charAt s 0 = 48 ∧ (charAt s 1 = 120 ∨ charAt s 1 = 88) ∧ isxdigit (charAt s 2) then s.drop 2 else s

def hexRun (acc : Nat) : Text → Nat
  | [] => acc
  | c::rest => match hexVal c with
      | some d => hexRun (16 * acc + d) rest
      | none => acc

def ulongMax : Nat := 2 ^ 64 - 1

def strtoul16 (s : Text) : Nat :=
  let (negative,rest) := sign (s.dropWhile isspace)
  let n := hexRun 0 (skipHex rest)
  if ulongMax < n then ulongMax else if negative then (ulongMax + 1 - n) % (ulongMax + 1) else n

def decRun (acc : Nat) : Text → Nat
  | [] => acc
  | c::rest => if isdigit c then decRun (10 * acc + (c.toNat - 48)) rest else acc

def longMax : Nat := 2 ^ 63 - 1

def atoi (s : Text) : Int :=
  let (negative,rest) := sign (s.dropWhile isspace)
  let n := decRun 0 rest
  let long : Int := if negative then -(min n (longMax + 1) : Nat) else (min n longMax : Nat)
  long.bmod (2 ^ 32)

def decValue (s : Text) : Nat := s.foldl (fun n c => 10 * n + (c.toNat - 48)) 0

def hexText : Nat → Nat → Text
  | 0,_ => []
  | fuel+1,n => if n < 16 then [hexDigit n] else hexText fuel (n / 16) ++ [hexDigit (n % 16)]

def printHex (width n : Nat) : Text :=
  let digits := hexText 8 n
  List.replicate (width - digits.length) 48 ++ digits

def fixedHex : Nat → Nat → Text
  | 0,_ => []
  | width+1,n => fixedHex width (n / 16) ++ [hexDigit (n % 16)]

def hexValue (s : Text) : Nat := s.foldl (fun acc c => 16 * acc + (hexVal c).getD 0) 0

def AllHex (s : Text) : Prop := ∀ c ∈ s, isxdigit c = true

instance (s : Text) : Decidable (AllHex s) := List.decidableBAll _ _

section bytes

theorem forallByte {P : UInt8 → Prop} (each : ∀ n : Fin 256, P (UInt8.ofNat n)) (c : UInt8) : P c := by
  have here := each ⟨c.toNat,c.toNat_lt⟩
  simpa using here

theorem hexValLt {c : UInt8} {d : Nat} (is : hexVal c = some d) : d < 16 := by
  have all : ∀ n : Fin 256, ∀ d ∈ hexVal (UInt8.ofNat n), d < 16 := by decide +kernel
  exact forallByte (P := fun c => ∀ d ∈ hexVal c, d < 16) all c d is

theorem hexDigitVal {n : Nat} (low : n < 16) : hexVal (hexDigit n) = some n := by
  have all : ∀ n : Fin 16, hexVal (hexDigit n) = some n.1 := by decide
  exact all ⟨n,low⟩

theorem digitLowers {c : UInt8} {d : Nat} (is : hexVal c = some d) : hexDigit d = tolower c := by
  have all : ∀ n : Fin 256, ∀ d ∈ hexVal (UInt8.ofNat n), hexDigit d = tolower (UInt8.ofNat n) := by
    decide +kernel
  exact forallByte (P := fun c => ∀ d ∈ hexVal c, hexDigit d = tolower c) all c d is

theorem digitPlain {c : UInt8} (is : isxdigit c = true) :
    isspace c = false ∧ c ≠ 45 ∧ c ≠ 43 ∧ c ≠ 120 ∧ c ≠ 88 ∧ c ≠ 0 := by
  have all : ∀ n : Fin 256, isxdigit (UInt8.ofNat n) = true → isspace (UInt8.ofNat n) = false ∧
      UInt8.ofNat n ≠ 45 ∧ UInt8.ofNat n ≠ 43 ∧ UInt8.ofNat n ≠ 120 ∧ UInt8.ofNat n ≠ 88 ∧
      UInt8.ofNat n ≠ 0 := by decide +kernel
  exact forallByte (P := fun c => isxdigit c = true → isspace c = false ∧ c ≠ 45 ∧ c ≠ 43 ∧ c ≠ 120 ∧
    c ≠ 88 ∧ c ≠ 0) all c is

end bytes

section strings

theorem charAtLeft {a : Text} (b : Text) {i : Nat} (inside : i < a.length) : charAt (a ++ b) i = charAt a i := by
  simp [charAt,List.getElem?_append_left inside]

theorem charAtRight (a b : Text) (i : Nat) : charAt (a ++ b) (a.length + i) = charAt b i := by
  simp [charAt,List.getElem?_append_right (Nat.le_add_right a.length i)]

theorem charAtField (a b : Text) (c : UInt8) (i : Nat) : charAt (a ++ c :: b) i =
    if i < a.length then charAt a i else if i = a.length then c else charAt b (i - (a.length + 1)) := by
  split
  · rename_i inside
    exact charAtLeft _ inside
  · rename_i outside
    obtain ⟨k,rfl⟩ : ∃ k, i = a.length + k := ⟨i - a.length,by omega⟩
    rw [charAtRight]
    cases k with
    | zero => simp [charAt]
    | succ k =>
      have other : ¬ a.length + (k + 1) = a.length := by omega
      have rest : a.length + (k + 1) - (a.length + 1) = k := by omega
      rw [if_neg other,rest]
      simp [charAt]

theorem charAtDrop (s : Text) (n i : Nat) : charAt (s.drop n) i = charAt s (n + i) := by
  simp [charAt]

theorem charAtTake {s : Text} {n i : Nat} (inside : i < n) : charAt (s.take n) i = charAt s i := by
  simp [charAt,List.getElem?_take_of_lt inside]

theorem allHexAt {s : Text} : AllHex s ↔ ∀ i < s.length, isxdigit (charAt s i) = true := by
  constructor
  · intro hex i inside
    refine hex _ ?_
    simp [charAt,List.getElem?_eq_getElem inside]
  · intro each c mem
    obtain ⟨i,inside,rfl⟩ := List.mem_iff_getElem.mp mem
    have here := each i inside
    simpa [charAt,List.getElem?_eq_getElem inside] using here

theorem contentSplit (s : Text) : ∃ rest, s = content s ++ rest ∧ charAt rest 0 = 0 := by
  refine ⟨s.dropWhile (fun c => c ≠ 0),(List.takeWhile_append_dropWhile).symm,?_⟩
  cases rest : s.dropWhile (fun c => c ≠ 0) with
  | nil => rfl
  | cons c more =>
    have stops := @List.head_dropWhile_not _ (fun c : UInt8 => decide (c ≠ 0)) s (by rw [rest]; simp)
    simp only [rest,List.head_cons] at stops
    simpa [charAt] using stops

theorem charAtContent {s : Text} {i : Nat} (inside : i < strlen s) : charAt s i = charAt (content s) i := by
  obtain ⟨rest,whole,_⟩ := contentSplit s
  calc charAt s i = charAt (content s ++ rest) i := by rw [← whole]
    _ = charAt (content s) i := charAtLeft rest inside

theorem charAtEnd (s : Text) : charAt s (strlen s) = 0 := by
  obtain ⟨rest,whole,stop⟩ := contentSplit s
  calc charAt s (strlen s) = charAt (content s ++ rest) ((content s).length + 0) := by rw [← whole]; rfl
    _ = charAt rest 0 := charAtRight _ _ 0
    _ = 0 := stop

theorem contentWhole {s : Text} (plain : ∀ c ∈ s, c ≠ 0) : content s = s := by
  unfold content
  rw [List.takeWhile_eq_self_iff]
  intro c mem
  simpa using plain c mem

end strings

section numbers

theorem fixedLength (width n : Nat) : (fixedHex width n).length = width := by
  induction width generalizing n with
  | zero => rfl
  | succ width ih => simp [fixedHex,ih]

theorem fixedZero (width : Nat) : fixedHex width 0 = List.replicate width 48 := by
  induction width with
  | zero => rfl
  | succ width ih =>
    rw [fixedHex,Nat.zero_div,ih,List.replicate_succ']
    rfl

theorem fixedAllHex (width n : Nat) : AllHex (fixedHex width n) := by
  induction width generalizing n with
  | zero => simp [fixedHex,AllHex]
  | succ width ih =>
    intro c mem
    rcases List.mem_append.mp mem with mem | mem
    · exact ih (n / 16) c mem
    · cases List.mem_singleton.mp mem
      rw [isxdigit,hexDigitVal (Nat.mod_lt n (by omega))]
      rfl

theorem hexTextPadded {fuel width n : Nat} (enough : width ≤ fuel) (some' : 0 < width)
    (low : n < 16 ^ width) :
    List.replicate (width - (hexText fuel n).length) 48 ++ hexText fuel n = fixedHex width n := by
  induction width generalizing fuel n with
  | zero => omega
  | succ width ih =>
    obtain ⟨fuel,rfl⟩ : ∃ k, fuel = k + 1 := ⟨fuel - 1,by omega⟩
    unfold hexText
    split
    · rename_i digit
      have none' : n / 16 = 0 := Nat.div_eq_of_lt digit
      rw [fixedHex,none',fixedZero,Nat.mod_eq_of_lt digit]
      simp
    · rename_i big
      have more : n / 16 < 16 ^ width := by
        rw [Nat.pow_succ] at low
        omega
      have positive : 0 < width := by
        rcases Nat.eq_zero_or_pos width with zero | positive
        · subst zero; simp at low; omega
        · exact positive
      have rest := ih (Nat.le_of_succ_le_succ enough) positive more
      rw [fixedHex,← rest]
      simp [List.append_assoc]

theorem printFixed {width n : Nat} (enough : width ≤ 8) (some' : 0 < width) (low : n < 16 ^ width) :
    printHex width n = fixedHex width n := hexTextPadded enough some' low

theorem hexValueSnoc (s : Text) (c : UInt8) : hexValue (s ++ [c]) = 16 * hexValue s + (hexVal c).getD 0 := by
  simp [hexValue]

theorem fixedValue {width n : Nat} (low : n < 16 ^ width) : hexValue (fixedHex width n) = n := by
  induction width generalizing n with
  | zero =>
    have zero : n = 0 := by simpa using low
    simp [fixedHex,hexValue,zero]
  | succ width ih =>
    have less : n / 16 < 16 ^ width := by
      rw [Nat.pow_succ] at low
      omega
    rw [fixedHex,hexValueSnoc,ih less,hexDigitVal (Nat.mod_lt n (by omega)),Option.getD_some]
    omega

theorem hexValueLt {s : Text} (hex : AllHex s) : hexValue s < 16 ^ s.length := by
  induction s using List.reverseRecOn with
  | nil => simp [hexValue]
  | append_singleton s c ih =>
    have before := ih (fun x mem => hex x (List.mem_append_left _ mem))
    obtain ⟨d,is⟩ := Option.isSome_iff_exists.mp (hex c (by simp))
    have digit := hexValLt is
    rw [hexValueSnoc,is,Option.getD_some,List.length_append,List.length_singleton,Nat.pow_succ]
    omega

theorem valueFixed {s : Text} (hex : AllHex s) : fixedHex s.length (hexValue s) = s.map tolower := by
  induction s using List.reverseRecOn with
  | nil => rfl
  | append_singleton s c ih =>
    have before := ih (fun x mem => hex x (List.mem_append_left _ mem))
    obtain ⟨d,is⟩ := Option.isSome_iff_exists.mp (hex c (by simp))
    have digit := hexValLt is
    rw [hexValueSnoc,is,Option.getD_some,List.length_append,List.length_singleton,fixedHex]
    have high : (16 * hexValue s + d) / 16 = hexValue s := by omega
    have low : (16 * hexValue s + d) % 16 = d := by omega
    rw [high,low,before,digitLowers is]
    simp

theorem fixedSplit (first second n : Nat) :
    fixedHex (first + second) n = fixedHex first (n / 16 ^ second) ++ fixedHex second (n % 16 ^ second) := by
  induction second generalizing n with
  | zero => simp [fixedHex]
  | succ second ih =>
    rw [← Nat.add_assoc,fixedHex,fixedHex,ih,List.append_assoc]
    have high : n / 16 / 16 ^ second = n / 16 ^ (second + 1) := by
      rw [Nat.div_div_eq_div_mul,Nat.pow_succ,Nat.mul_comm]
    have mid : n / 16 % 16 ^ second = n % 16 ^ (second + 1) / 16 := by
      rw [Nat.pow_succ,Nat.mul_comm,Nat.mod_mul_right_div_self]
    have divides : 16 ∣ 16 ^ (second + 1) := ⟨16 ^ second,by rw [Nat.pow_succ,Nat.mul_comm]⟩
    have low : n % 16 = n % 16 ^ (second + 1) % 16 := (Nat.mod_mod_of_dvd n divides).symm
    rw [high,mid,low]

theorem hexRunDigits {s rest : Text} (hex : AllHex s) (stop : isxdigit (charAt rest 0) = false) (acc : Nat) :
    hexRun acc (s ++ rest) = s.foldl (fun acc c => 16 * acc + (hexVal c).getD 0) acc := by
  induction s generalizing acc with
  | nil =>
    cases rest with
    | nil => rfl
    | cons c rest =>
      have none' : hexVal c = none := by simpa [isxdigit,charAt] using stop
      simp [hexRun,none']
  | cons c s ih =>
    obtain ⟨d,is⟩ := Option.isSome_iff_exists.mp (hex c (by simp))
    simp only [List.cons_append,hexRun,is,List.foldl_cons,Option.getD_some]
    exact ih (fun x mem => hex x (List.mem_cons_of_mem _ mem)) _

theorem strtoulField {s rest : Text} (hex : AllHex s) (some' : s ≠ []) (short : s.length ≤ 16)
    (stop : isxdigit (charAt rest 0) = false) (plain : charAt rest 0 ≠ 120 ∧ charAt rest 0 ≠ 88) :
    strtoul16 (s ++ rest) = hexValue s := by
  obtain ⟨c,tail,rfl⟩ := List.exists_cons_of_ne_nil some'
  obtain ⟨blank,minus,plus,_⟩ := digitPlain (hex c (by simp))
  have noBlank : ((c::tail) ++ rest).dropWhile isspace = (c::tail) ++ rest := by
    simp [blank]
  have noSign : sign ((c::tail) ++ rest) = (false,(c::tail) ++ rest) := by
    unfold sign
    split
    · rename_i is; cases is; contradiction
    · rename_i is; cases is; contradiction
    · rfl
  have second : charAt ((c::tail) ++ rest) 1 ≠ 120 ∧ charAt ((c::tail) ++ rest) 1 ≠ 88 := by
    cases tail with
    | nil => simpa [charAt] using plain
    | cons d tail =>
      obtain ⟨_,_,_,ex,eX,_⟩ := digitPlain (hex d (by simp))
      simpa [charAt] using And.intro ex eX
  have noPrefix : skipHex ((c::tail) ++ rest) = (c::tail) ++ rest := by
    unfold skipHex
    rw [if_neg]
    rintro ⟨_,ex | eX,_⟩
    · exact second.1 ex
    · exact second.2 eX
  have bound : ¬ ulongMax < hexValue (c::tail) := by
    have low := hexValueLt hex
    have most : 16 ^ (c::tail).length ≤ 16 ^ 16 := Nat.pow_le_pow_right (by omega) short
    unfold ulongMax
    omega
  unfold strtoul16
  rw [noBlank,noSign]
  simp only [noPrefix,hexRunDigits hex stop]
  rw [← hexValue,if_neg bound]
  rfl

end numbers

section decimals

theorem decRunDigits {s : Text} (digits : ∀ c ∈ s, isdigit c = true) (acc : Nat) :
    decRun acc s = s.foldl (fun n c => 10 * n + (c.toNat - 48)) acc := by
  induction s generalizing acc with
  | nil => rfl
  | cons c rest ih =>
    rw [decRun,if_pos (digits c List.mem_cons_self),ih (fun x mem => digits x (List.mem_cons_of_mem _ mem))]
    rfl

theorem digitBare {c : UInt8} (digit : isdigit c = true) : isspace c = false ∧ c ≠ 45 ∧ c ≠ 43 := by
  have all : ∀ n : Fin 256, isdigit (UInt8.ofNat n) = true →
      isspace (UInt8.ofNat n) = false ∧ UInt8.ofNat n ≠ 45 ∧ UInt8.ofNat n ≠ 43 := by decide +kernel
  exact forallByte (P := fun c => isdigit c = true → isspace c = false ∧ c ≠ 45 ∧ c ≠ 43) all c digit

theorem bareDigits {s : Text} (digits : ∀ c ∈ s, isdigit c = true) : sign (s.dropWhile isspace) = (false,s) := by
  cases s with
  | nil => rfl
  | cons c rest =>
    obtain ⟨visible,minus,plus⟩ := digitBare (digits c List.mem_cons_self)
    rw [List.dropWhile_cons,visible,if_neg (by decide)]
    unfold sign
    split
    · rename_i same
      exact absurd (List.cons.inj same).1 minus
    · rename_i same
      exact absurd (List.cons.inj same).1 plus
    · rfl

theorem atoiDigits {s : Text} (digits : ∀ c ∈ s, isdigit c = true) (small : decValue s < 2 ^ 31) :
    atoi s = decValue s := by
  have value : decRun 0 s = decValue s := decRunDigits digits 0
  unfold atoi
  rw [bareDigits digits]
  simp only [value]
  rw [if_neg (by decide),Nat.min_eq_left (by unfold longMax; omega),Int.bmod_eq_of_le] <;> omega

end decimals

end HevFsh.CText
