import Mathlib.Algebra.Order.Ring.Int
import Mathlib.Data.List.Infix

/-!
# Numbers as bytes

A natural number as a fixed number of bytes, the lowest or the highest first.

* `ofLE_le`: reading what was written gives the number modulo the width; `ofLE_le_of_lt` and
  `ofBE_be_of_lt`: the number itself when it fits.
* `le_ofLE`, `be_ofBE`: and the other way round.
-/

namespace Bytes

instance lawfulBEqUInt8 : LawfulBEq UInt8 := inferInstance

instance lawfulBEqBytes : LawfulBEq (List UInt8) := inferInstance

/-- The order of bytes, for those who compare them as a linear order. -/
abbrev linearOrderUInt8 : LinearOrder UInt8 where
  le_refl := UInt8.le_refl
  le_trans _ _ _ := UInt8.le_trans
  le_antisymm _ _ := UInt8.le_antisymm
  le_total := UInt8.le_total
  lt_iff_le_not_ge a b := by
    simp only [UInt8.le_iff_toNat_le, UInt8.lt_iff_toNat_lt]
    omega
  toDecidableLE := inferInstance
  toDecidableLT := inferInstance
  toDecidableEq := inferInstance

/-- `n` in `k` bytes, the lowest first. -/
def le : Nat → Nat → List UInt8
  | 0, _ => []
  | k + 1, n => UInt8.ofNat n :: le k (n / 256)

/-- The number of bytes, the lowest first. -/
def ofLE : List UInt8 → Nat
  | [] => 0
  | b :: bs => b.toNat + 256 * ofLE bs

/-- `n` in `k` bytes, the highest first. -/
def be (k n : Nat) : List UInt8 := (le k n).reverse

/-- The number of bytes, the highest first. -/
def ofBE (bs : List UInt8) : Nat := ofLE bs.reverse

@[simp] theorem length_le (k n : Nat) : (le k n).length = k := by
  induction k generalizing n with
  | zero => rfl
  | succ k ih => simp [le, ih]

@[simp] theorem length_be (k n : Nat) : (be k n).length = k := by simp [be]

theorem ofLE_le (k n : Nat) : ofLE (le k n) = n % 256 ^ k := by
  induction k generalizing n with
  | zero => simp [le, ofLE, Nat.mod_one]
  | succ k ih =>
    have hb : (UInt8.ofNat n).toNat = n % 256 := by simp
    rw [le, ofLE, ih, hb, Nat.pow_succ', Nat.mod_mul]

theorem ofLE_le_of_lt {k n : Nat} (h : n < 256 ^ k) : ofLE (le k n) = n := by
  rw [ofLE_le, Nat.mod_eq_of_lt h]

theorem ofBE_be_of_lt {k n : Nat} (h : n < 256 ^ k) : ofBE (be k n) = n := by
  rw [ofBE, be, List.reverse_reverse, ofLE_le_of_lt h]

theorem ofLE_lt (bs : List UInt8) : ofLE bs < 256 ^ bs.length := by
  induction bs with
  | nil => simp [ofLE]
  | cons b bs ih =>
    have hb : b.toNat < 256 := b.toNat_lt
    rw [ofLE, List.length_cons, Nat.pow_succ']
    omega

theorem ofBE_lt (bs : List UInt8) : ofBE bs < 256 ^ bs.length := by
  simpa [ofBE] using ofLE_lt bs.reverse

theorem le_ofLE (bs : List UInt8) : le bs.length (ofLE bs) = bs := by
  induction bs with
  | nil => rfl
  | cons b bs ih =>
    have hb : b.toNat < 256 := b.toNat_lt
    have hq : (b.toNat + 256 * ofLE bs) / 256 = ofLE bs := by omega
    have hr : UInt8.ofNat (b.toNat + 256 * ofLE bs) = b := by
      apply UInt8.toNat_inj.mp
      simp only [UInt8.toNat_ofNat']
      omega
    rw [List.length_cons, ofLE, le, hq, hr, ih]

theorem be_ofBE (bs : List UInt8) : be bs.length (ofBE bs) = bs := by
  have h := le_ofLE bs.reverse
  rw [List.length_reverse] at h
  rw [be, ofBE, h, List.reverse_reverse]

end Bytes
