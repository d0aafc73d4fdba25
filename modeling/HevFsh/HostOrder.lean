import Mathlib.Data.Nat.Init

/-! Sixteen-bit numbers in the memory of hosts of either byte order. -/
namespace HevFsh.HostOrder

inductive ByteOrder where
  | little
  | big
  deriving DecidableEq, Repr

def high (v : UInt16) : UInt8 := UInt8.ofNat (v.toNat / 256)

def low (v : UInt16) : UInt8 := UInt8.ofNat (v.toNat % 256)

def join (high low : UInt8) : UInt16 := UInt16.ofNat (high.toNat * 256 + low.toNat)

def store16 (order : ByteOrder) (v : UInt16) : UInt8 × UInt8 :=
  match order with
  | .little => (low v,high v)
  | .big => (high v,low v)

def load16 (order : ByteOrder) (memory : UInt8 × UInt8) : UInt16 :=
  match order with
  | .little => join memory.2 memory.1
  | .big => join memory.1 memory.2

def htons (order : ByteOrder) (v : UInt16) : UInt16 := load16 order (store16 .big v)

def ntohs (order : ByteOrder) (v : UInt16) : UInt16 := load16 .big (store16 order v)

section laws

theorem joinParts (v : UInt16) : join (high v) (low v) = v := by
  have bound := v.toNat_lt
  apply UInt16.toNat.inj
  simp only [join,high,low,UInt16.toNat_ofNat',UInt8.toNat_ofNat']
  omega

theorem highJoin (a b : UInt8) : high (join a b) = a := by
  have first := a.toNat_lt
  have second := b.toNat_lt
  apply UInt8.toNat.inj
  simp only [join,high,UInt16.toNat_ofNat',UInt8.toNat_ofNat']
  omega

theorem lowJoin (a b : UInt8) : low (join a b) = b := by
  have first := a.toNat_lt
  have second := b.toNat_lt
  apply UInt8.toNat.inj
  simp only [join,low,UInt16.toNat_ofNat',UInt8.toNat_ofNat']
  omega

@[simp] theorem loadStore (order : ByteOrder) (v : UInt16) : load16 order (store16 order v) = v := by
  cases order <;> exact joinParts v

@[simp] theorem storeLoad (order : ByteOrder) (memory : UInt8 × UInt8) :
    store16 order (load16 order memory) = memory := by
  cases order <;> simp [store16,load16,highJoin,lowJoin]

theorem storeHtons (order : ByteOrder) (v : UInt16) : store16 order (htons order v) = store16 .big v :=
  storeLoad order _

@[simp] theorem ntohsHtons (order : ByteOrder) (v : UInt16) : ntohs order (htons order v) = v := by
  rw [ntohs,storeHtons,loadStore]

theorem loadOther {s r : ByteOrder} (other : s ≠ r) (v : UInt16) :
    load16 r (store16 s v) = v ↔ high v = low v := by
  have swapped : load16 r (store16 s v) = join (low v) (high v) := by
    cases s with
    | little => cases r with
      | little => exact absurd rfl other
      | big => rfl
    | big => cases r with
      | little => rfl
      | big => exact absurd rfl other
  rw [swapped]
  constructor
  · intro same
    have first := highJoin (low v) (high v)
    rw [same] at first
    exact first
  · intro same
    have whole := joinParts v
    rw [same] at whole ⊢
    exact whole

end laws

end HevFsh.HostOrder
