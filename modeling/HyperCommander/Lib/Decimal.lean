import Mathlib.Algebra.Order.Ring.Int
import Mathlib.Data.List.Basic
import Mathlib.Data.List.Induction

/-!
# Decimal numbers and length-prefixed fields

* `decimal n`: the decimal digits of a number, as bytes. `ofDigits` reads digits back
  (`ofDigits_decimal`), also ones with zeros in front; `decimal_eq_iff` says that those are all it
  reads besides.
* `field bs`: a byte string behind its length and a colon. Fields put together come apart in one
  way only (`field_append_inj`).
-/

namespace Decimal

open List

/-- The decimal digits of `n`. -/
def decimal (n : Nat) : List UInt8 := (Nat.toDigits 10 n).map fun c => c.toNat.toUInt8

/-- The number that the digits say, behind the digits of `n`. -/
def ofDigits : List UInt8 → (n : Nat) → Option Nat
  | [], n => some n
  | c :: cs, n => if c < 48 ∨ 57 < c then none else ofDigits cs (n * 10 + (c.toNat - 48))

/-- No zero stands in front of other digits. -/
def Plain (ds : List UInt8) : Prop := ds = [48] ∨ ds ≠ [] ∧ ds.head? ≠ some 48

instance (ds : List UInt8) : Decidable (Plain ds) := inferInstanceAs (Decidable (_ ∨ _))

theorem ofDigits_append (ds es : List UInt8) (n : Nat) :
    ofDigits (ds ++ es) n = (ofDigits ds n).bind (ofDigits es) := by
  induction ds generalizing n with
  | nil => rfl
  | cons c ds ih =>
    simp only [cons_append, ofDigits]
    split
    · rfl
    · exact ih _

variable {d n m : Nat} {ds : List UInt8}

/-- The digit of a number below ten. -/
theorem digit_spec (h : d < 10) : (d.digitChar.toNat.toUInt8).toNat = 48 + d := by
  revert d
  decide

theorem decimal_of_lt (h : n < 10) : decimal n = [n.digitChar.toNat.toUInt8] := by
  rw [decimal, Nat.toDigits_of_lt_base h]
  rfl

theorem decimal_of_le (h : 10 ≤ n) :
    decimal n = decimal (n / 10) ++ [(n % 10).digitChar.toNat.toUInt8] := by
  rw [decimal, Nat.toDigits_of_base_le (by decide) h, map_append]
  rfl

theorem ofDigits_digit (h : d < 10) :
    ofDigits [d.digitChar.toNat.toUInt8] n = some (n * 10 + d) := by
  have hd := digit_spec h
  rw [ofDigits, if_neg, ofDigits, hd, Nat.add_sub_cancel_left]
  rw [UInt8.lt_iff_toNat_lt, UInt8.lt_iff_toNat_lt, hd]
  simp only [UInt8.reduceToNat]
  omega

theorem ofDigits_decimal (n : Nat) : ofDigits (decimal n) 0 = some n := by
  induction n using Nat.strong_induction_on with
  | _ n ih =>
    rcases Nat.lt_or_ge n 10 with h | h
    · rw [decimal_of_lt h, ofDigits_digit h, Nat.zero_mul, Nat.zero_add]
    · rw [decimal_of_le h, ofDigits_append, ih (n / 10) (by omega), Option.bind_some,
        ofDigits_digit (Nat.mod_lt n (by decide))]
      congr 1
      omega

theorem decimal_injective : Function.Injective decimal := by
  intro m n h
  have := congrArg (ofDigits · 0) h
  simpa only [ofDigits_decimal, Option.some.injEq] using this

/-- Every byte that `ofDigits` reads is the digit of a number. -/
theorem ofDigits_single {c : UInt8} (h : ofDigits [c] n = some m) :
    ∃ d < 10, c = d.digitChar.toNat.toUInt8 ∧ m = n * 10 + d := by
  rw [ofDigits] at h
  split at h
  · cases h
  · rename_i hc
    rw [UInt8.lt_iff_toNat_lt, UInt8.lt_iff_toNat_lt] at hc
    simp only [UInt8.reduceToNat] at hc
    cases h
    refine ⟨c.toNat - 48, by omega, ?_, rfl⟩
    rw [← UInt8.toNat_inj, digit_spec (by omega)]
    omega

theorem ofDigits_lt (h : ofDigits ds n = some m) :
    n * 10 ^ ds.length ≤ m ∧ m < (n + 1) * 10 ^ ds.length := by
  induction ds generalizing n with
  | nil =>
    cases h
    simp
  | cons c ds ih =>
    rw [show c :: ds = [c] ++ ds from rfl, ofDigits_append] at h
    obtain ⟨k, hk, h⟩ := Option.bind_eq_some_iff.mp h
    obtain ⟨d, hd, -, rfl⟩ := ofDigits_single hk
    obtain ⟨h1, h2⟩ := ih h
    rw [length_cons, Nat.pow_succ']
    constructor
    · calc n * (10 * 10 ^ ds.length) = (n * 10) * 10 ^ ds.length := by rw [Nat.mul_assoc]
        _ ≤ (n * 10 + d) * 10 ^ ds.length := Nat.mul_le_mul_right _ (Nat.le_add_right _ _)
        _ ≤ m := h1
    · calc m < (n * 10 + d + 1) * 10 ^ ds.length := h2
        _ ≤ ((n + 1) * 10) * 10 ^ ds.length := Nat.mul_le_mul_right _ (by omega)
        _ = (n + 1) * (10 * 10 ^ ds.length) := by rw [Nat.mul_assoc]

theorem length_decimal_le (h : ofDigits ds 0 = some n) (hne : ds ≠ []) :
    (decimal n).length ≤ ds.length := by
  rw [decimal, length_map,
    Nat.length_toDigits_le_iff (by decide) (length_pos_iff.mpr hne)]
  have := (ofDigits_lt h).2
  omega

theorem decimal_ne_nil (n : Nat) : decimal n ≠ [] := by
  rw [decimal]
  exact fun h => Nat.toDigits_ne_nil (map_eq_nil_iff.mp h)

theorem plain_decimal (n : Nat) : Plain (decimal n) := by
  induction n using Nat.strong_induction_on with
  | _ n ih =>
    rcases Nat.lt_or_ge n 10 with h | h
    · rw [decimal_of_lt h]
      clear ih
      revert n
      decide
    · rw [decimal_of_le h]
      refine .inr ⟨by simp, ?_⟩
      rw [head?_append_of_ne_nil _ (decimal_ne_nil _)]
      rcases ih (n / 10) (by omega) with h0 | ⟨-, h0⟩
      · -- Only zero is written as a zero.
        have := Option.some.inj ((ofDigits_decimal (n / 10)).symm.trans (h0 ▸ rfl : _ = some 0))
        omega
      · exact h0

/-- The digits that `ofDigits` reads as `n` are those of `n`, unless a zero stands in front. -/
theorem decimal_eq_iff (h : ofDigits ds 0 = some n) :
    decimal n = ds ↔ Plain ds := by
  refine ⟨fun he => he ▸ plain_decimal n, fun hp => ?_⟩
  induction ds using reverseRecOn generalizing n with
  | nil => rcases hp with h0 | h0 <;> exact absurd h0 (by simp)
  | append_singleton ds c ih =>
    rw [ofDigits_append] at h
    obtain ⟨m, hm, hc⟩ := Option.bind_eq_some_iff.mp h
    obtain ⟨d, hd, rfl, rfl⟩ := ofDigits_single hc
    cases ds with
    | nil =>
      cases hm
      rw [Nat.zero_mul, Nat.zero_add, decimal_of_lt hd]
      rfl
    | cons a ds =>
      have hne : a ≠ 48 := by
        rcases hp with h0 | ⟨-, h0⟩
        · simp at h0
        · simpa using h0
      have hpos : 0 < m := by
        rw [show a :: ds = [a] ++ ds from rfl, ofDigits_append] at hm
        obtain ⟨k, hk, hm⟩ := Option.bind_eq_some_iff.mp hm
        obtain ⟨e, -, rfl, rfl⟩ := ofDigits_single hk
        have hle := (ofDigits_lt hm).1
        have hk0 : 0 < 0 * 10 + e := by
          rcases Nat.eq_zero_or_pos e with rfl | he
          · exact absurd rfl hne
          · omega
        exact Nat.lt_of_lt_of_le (Nat.mul_pos hk0 (Nat.pow_pos (by decide))) hle
      rw [decimal_of_le (by omega), show (m * 10 + d) / 10 = m by omega,
        show (m * 10 + d) % 10 = d by omega, ih hm (.inr ⟨by simp, by simpa using hne⟩)]

/-! ## Fields -/

/-- The colon. -/
def colon : UInt8 := 58

theorem colon_not_mem_decimal (n : Nat) : colon ∉ decimal n := by
  induction n using Nat.strong_induction_on with
  | _ n ih =>
    have hdigit : ∀ d < 10, colon ≠ d.digitChar.toNat.toUInt8 := by decide
    rcases Nat.lt_or_ge n 10 with h | h
    · rw [decimal_of_lt h, mem_singleton]
      exact hdigit n h
    · rw [decimal_of_le h, mem_append, mem_singleton]
      rintro (hm | hm)
      · exact ih (n / 10) (by omega) hm
      · exact hdigit _ (Nat.mod_lt n (by decide)) hm

/-- A byte string behind its length. -/
def field (bs : List UInt8) : List UInt8 := decimal bs.length ++ colon :: bs

theorem field_ne_nil (bs : List UInt8) : field bs ≠ [] := by simp [field]

theorem field_append_inj {a b x y : List UInt8} (h : field a ++ x = field b ++ y) :
    a = b ∧ x = y := by
  have hidx : ∀ c z, (field c ++ z).idxOf colon = (decimal c.length).length := fun c z => by
    rw [field, append_assoc, idxOf_append_of_notMem (colon_not_mem_decimal _),
      cons_append, idxOf_cons_self, Nat.add_zero]
  have hlen := (hidx a x).symm.trans ((congrArg _ h).trans (hidx b y))
  simp only [field, append_assoc, cons_append] at h
  obtain ⟨hd, hrest⟩ := append_inj h hlen
  exact append_inj (cons.inj hrest).2 (decimal_injective hd)

end Decimal
