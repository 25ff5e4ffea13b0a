import HyperCommander.Lib.Unicode

/-!
# Code points of strings that may not pair their surrogates

`points` reads every pair of surrogates as one code point and keeps an unpaired surrogate as it is.
Two strings are `Apart` when no pair lies across their seam; then the points of the whole are those
of the parts.

* `points_append`: the points of a string cut between two code points.
* `mem_points_iff`: a unit below the surrogates is a point of its own.
-/

namespace Unicode

open List

/-- The code point of a pair of surrogates. -/
def pairPoint (high low : UInt16) : Nat :=
  0x10000 + (high.toNat - 0xd800) * 0x400 + (low.toNat - 0xdc00)

/-- The code points of a string; an unpaired surrogate stands for itself. -/
def points : Units → List Nat
  | [] => []
  | [u] => [u.toNat]
  | u :: v :: rest =>
    if isHigh u && isLow v then pairPoint u v :: points rest else u.toNat :: points (v :: rest)

/-- A surrogate as a code point. -/
def Surrogate (p : Nat) : Prop := 0xd800 ≤ p ∧ p ≤ 0xdfff

instance (p : Nat) : Decidable (Surrogate p) := inferInstanceAs (Decidable (_ ∧ _))

/-- No pair of surrogates begins at the end of `a` and ends at the front of `b`. -/
def Apart (a b : Units) : Prop :=
  ∀ h ∈ a.getLast?, ∀ l ∈ b.head?, ¬(isHigh h = true ∧ isLow l = true)

section

variable {a b : Units} {u v : UInt16}

theorem not_isLow_of_isHigh (h : isHigh u = true) : isLow u = false := by
  simp only [isHigh, isLow, UInt16.le_iff_toNat_le, Bool.and_eq_true, decide_eq_true_eq,
    Bool.and_eq_false_iff, decide_eq_false_iff_not] at h ⊢
  simp at h ⊢
  omega

@[simp] theorem apart_nil_left : Apart [] b := by
  intro h hh
  cases hh

@[simp] theorem apart_nil_right : Apart a [] := by
  intro h _ l hl
  cases hl

theorem apart_concat_cons : Apart (a ++ [u]) (v :: b) ↔ ¬(isHigh u = true ∧ isLow v = true) := by
  simp [Apart]

theorem apart_of_not_isLow (h : isLow v = false) : Apart a (v :: b) := by
  intro u _ l hl
  obtain rfl : v = l := by simpa using hl
  simp [h]

theorem apart_of_not_isHigh (h : isHigh u = false) : Apart (a ++ [u]) b := by
  intro u' hu l _
  obtain rfl : u = u' := by simpa using hu
  simp [h]

theorem points_pair (h : isHigh u = true ∧ isLow v = true) :
    points (u :: v :: b) = pairPoint u v :: points b := by
  rw [points, if_pos (by simp [h])]

theorem points_cons (h : Apart [u] b) : points (u :: b) = u.toNat :: points b := by
  cases b with
  | nil => rfl
  | cons v b =>
    have hn : ¬(isHigh u = true ∧ isLow v = true) := apart_concat_cons (a := []).1 h
    rw [points, if_neg (by simpa using hn)]

theorem points_append (h : Apart a b) : points (a ++ b) = points a ++ points b := by
  induction a using points.induct with
  | case1 => rfl
  | case2 u => exact points_cons h
  | case3 u v a hp ih =>
    have hp' : isHigh u = true ∧ isLow v = true := by simpa using hp
    rw [cons_append, cons_append, points_pair hp', points_pair hp', ih, cons_append]
    cases a with
    | nil => exact apart_nil_left
    | cons w a => simpa [Apart] using h
  | case4 u v a hp ih =>
    have hn : Apart [u] (v :: (a ++ b)) := apart_concat_cons (a := []).2 (by simpa using hp)
    have hn' : Apart [u] (v :: a) := apart_concat_cons (a := []).2 (by simpa using hp)
    rw [cons_append, cons_append, points_cons hn, points_cons hn', ← cons_append, ih,
      cons_append]
    simpa [Apart] using h

theorem points_eq_nil_iff : points a = [] ↔ a = [] := by
  fun_cases points a <;> simp

theorem not_surrogate_pairPoint : 0x10000 ≤ pairPoint u v := by
  unfold pairPoint
  omega

/-- A unit below the surrogates is a code point of its own. -/
theorem mem_points_iff {q : Units} {n : Nat} (hn : n < 0xd800) :
    n ∈ points q ↔ ∃ u ∈ q, u.toNat = n := by
  induction q using points.induct with
  | case1 => simp [points]
  | case2 u => simp [points, eq_comm]
  | case3 u v q hp ih =>
    have hp' : isHigh u = true ∧ isLow v = true := by simpa using hp
    have hu : n ≠ u.toNat := by
      have h := hp'.1
      simp only [isHigh, UInt16.le_iff_toNat_le, Bool.and_eq_true, decide_eq_true_eq] at h
      simp at h
      omega
    have hv : n ≠ v.toNat := by
      have h := hp'.2
      simp only [isLow, UInt16.le_iff_toNat_le, Bool.and_eq_true, decide_eq_true_eq] at h
      simp at h
      omega
    have hw : n ≠ pairPoint u v := by
      have := not_surrogate_pairPoint (u := u) (v := v)
      omega
    rw [points_pair hp']
    simp [ih, hw, Ne.symm hu, Ne.symm hv]
  | case4 u v q hp ih =>
    rw [points_cons (apart_concat_cons (a := []).2 (by simpa using hp))]
    simp only [mem_cons, ih]
    simp [eq_comm]

theorem toNat_mem_points {q : Units} (hu : u.toNat < 0xd800) : u.toNat ∈ points q ↔ u ∈ q := by
  simp [mem_points_iff hu, UInt16.toNat_inj]

end

end Unicode
