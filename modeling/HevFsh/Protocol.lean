import Mathlib.Data.List.Lex
import Mathlib.Data.Nat.Init
import Mathlib.Order.Lattice

/-! Commands, messages and tokens of hev-fsh-protocol. A token is its 16 bytes;
`memcmp` orders tokens as the registry and the allow list do. -/
namespace HevFsh.Protocol

abbrev Bytes := List UInt8

inductive Command where
  | login | token | keepAlive | connect | accept
  deriving DecidableEq, Repr

def Command.code : Command → UInt8
  | .login => 0
  | .token => 1
  | .keepAlive => 2
  | .connect => 3
  | .accept => 4

def Command.ofByte (b : UInt8) : Option Command :=
  if b = 0 then some .login
  else if b = 1 then some .token
  else if b = 2 then some .keepAlive
  else if b = 3 then some .connect
  else if b = 4 then some .accept
  else none

structure Token where
  bytes : Bytes
  size : bytes.length = 16
  deriving DecidableEq

instance : Repr Token := ⟨fun t n => reprPrec t.bytes n⟩

def Token.zero : Token := ⟨List.replicate 16 0,rfl⟩

/- `struct HevFshMessage` followed by its data, both packed. -/
def message (ver : UInt8) (cmd : Command) (data : Bytes) : Bytes := ver :: cmd.code :: data

def memcmp : Bytes → Bytes → Int
  | a::as,b::bs => if a = b then memcmp as bs else (a.toNat : Int) - b.toNat
  | _,_ => 0

def numbers (bs : Bytes) : List Nat := bs.map UInt8.toNat

theorem numbersInjective {as bs : Bytes} (same : numbers as = numbers bs) : as = bs :=
  List.map_injective_iff.mpr (fun _ _ h => UInt8.toNat.inj h) same

theorem memcmpZero {as bs : Bytes} (len : as.length = bs.length) : memcmp as bs = 0 ↔ as = bs := by
  induction as generalizing bs with
  | nil =>
    have empty : bs = [] := List.length_eq_zero_iff.mp len.symm
    simp [memcmp,empty]
  | cons a as ih =>
    cases bs with
    | nil => simp at len
    | cons b bs =>
      simp only [memcmp]
      split
      · rename_i same
        simp [ih (by simpa using len),same]
      · rename_i other
        have diff : a.toNat ≠ b.toNat := fun h => other (UInt8.toNat.inj h)
        simp only [List.cons.injEq,other,false_and,iff_false]
        omega

theorem memcmpNeg {as bs : Bytes} (len : as.length = bs.length) :
    memcmp as bs < 0 ↔ numbers as < numbers bs := by
  induction as generalizing bs with
  | nil =>
    have empty : bs = [] := List.length_eq_zero_iff.mp len.symm
    simp [memcmp,numbers,empty]
  | cons a as ih =>
    cases bs with
    | nil => simp at len
    | cons b bs =>
      have tail : memcmp as bs < 0 ↔ numbers as < numbers bs := ih (by simpa using len)
      simp only [memcmp,numbers,List.map_cons,List.cons_lt_cons_iff]
      split
      · rename_i same
        simpa [same,numbers] using tail
      · rename_i other
        have diff : a.toNat ≠ b.toNat := fun h => other (UInt8.toNat.inj h)
        simp only [diff,false_and,or_false]
        omega

instance : LinearOrder Token :=
  LinearOrder.lift' (fun t => numbers t.bytes)
    (fun a b same => by cases a; cases b; simpa using numbersInjective same)

theorem tokenLt {a b : Token} : a < b ↔ memcmp a.bytes b.bytes < 0 :=
  (memcmpNeg (a.size.trans b.size.symm)).symm

theorem tokenEq {a b : Token} : a = b ↔ memcmp a.bytes b.bytes = 0 := by
  rw [memcmpZero (a.size.trans b.size.symm)]
  constructor
  · rintro rfl; rfl
  · intro same; cases a; cases b; simpa using same

theorem tokenGt {a b : Token} : b < a ↔ 0 < memcmp a.bytes b.bytes := by
  have low := tokenLt (a := a) (b := b)
  have mid := tokenEq (a := a) (b := b)
  rcases lt_trichotomy a b with h | h | h
  · have := low.mp h
    exact ⟨fun bad => absurd bad (not_lt.mpr (le_of_lt h)),fun bad => by omega⟩
  · have := mid.mp h
    exact ⟨fun bad => absurd bad (by simp [h]),fun bad => by omega⟩
  · have notLow : ¬ memcmp a.bytes b.bytes < 0 := fun bad => lt_asymm h (low.mpr bad)
    have notMid : memcmp a.bytes b.bytes ≠ 0 := fun bad => ne_of_gt h (mid.mpr bad)
    exact ⟨fun _ => by omega,fun _ => h⟩

structure Fields where
  timeLow : UInt32
  timeMid : UInt16
  timeHighVer : UInt16
  clockSeq : UInt16
  deriving DecidableEq, Repr

def byteAt (bs : Bytes) (n : Nat) : UInt8 := bs.getD n 0

def pack (bs : Bytes) (f : Fields) : Bytes :=
  [(f.timeLow >>> 24).toUInt8,(f.timeLow >>> 16).toUInt8,(f.timeLow >>> 8).toUInt8,f.timeLow.toUInt8,
    (f.timeMid >>> 8).toUInt8,f.timeMid.toUInt8,
    (f.timeHighVer >>> 8).toUInt8,f.timeHighVer.toUInt8,
    (f.clockSeq >>> 8).toUInt8,f.clockSeq.toUInt8] ++ bs.drop 10

def unpack (bs : Bytes) : Fields where
  timeLow := (((((byteAt bs 0).toUInt32 <<< 8 ||| (byteAt bs 1).toUInt32) <<< 8) |||
    (byteAt bs 2).toUInt32) <<< 8) ||| (byteAt bs 3).toUInt32
  timeMid := ((byteAt bs 4).toUInt16 <<< 8) ||| (byteAt bs 5).toUInt16
  timeHighVer := ((byteAt bs 6).toUInt16 <<< 8) ||| (byteAt bs 7).toUInt16
  clockSeq := ((byteAt bs 8).toUInt16 <<< 8) ||| (byteAt bs 9).toUInt16

/- `random` is what hev_random_get_bytes left in the token. -/
def tokenGenerate (random : Token) : Token :=
  let f := unpack random.bytes
  let clockSeq := (f.clockSeq &&& 0x3FFF) ||| 0x8000
  let timeHighVer := (f.timeHighVer &&& 0x0FFF) ||| 0x4000
  ⟨pack random.bytes {f with clockSeq := clockSeq, timeHighVer := timeHighVer},
    by simp [pack,random.size]⟩

end HevFsh.Protocol
