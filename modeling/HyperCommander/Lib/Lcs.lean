import Mathlib.Algebra.Order.Ring.Int
import Mathlib.Data.List.Infix
import Mathlib.Data.List.Sublists
import Mathlib.Order.Bounds.Basic

/-!
# Longest common subsequences

`lcs l r` is the length of a longest common subsequence of two lists.

* Growing the lists: `lcs_append_le`, and at the last element `lcs_concat_self`,
  `lcs_concat_of_ne`, `lcs_concat_concat_le`.
* Common ends: `lcs_append_left_cancel`, `lcs_append_right_cancel`; `lcs_reverse`.
* Witnesses: `exists_common_sublist`, `sublist_length_le_lcs`.
-/

namespace Lcs

open List

variable {α : Type*} [DecidableEq α]

/-- The length of a longest common subsequence of two lists. -/
def lcs : List α → List α → Nat
  | [], _ => 0
  | _ :: _, [] => 0
  | a :: l, b :: r => if a = b then lcs l r + 1 else max (lcs l (b :: r)) (lcs (a :: l) r)
termination_by l r => l.length + r.length

@[simp] theorem lcs_nil_left (r : List α) : lcs [] r = 0 := by simp [lcs]

@[simp] theorem lcs_nil_right (l : List α) : lcs l [] = 0 := by cases l <;> simp [lcs]

theorem lcs_cons_cons (a b : α) (l r : List α) :
    lcs (a :: l) (b :: r) =
      if a = b then lcs l r + 1 else max (lcs l (b :: r)) (lcs (a :: l) r) := by
  rw [lcs]

theorem sublist_length_le_lcs (l r s : List α) (hl : s.Sublist l) (hr : s.Sublist r) :
    s.length ≤ lcs l r := by
  induction l, r using lcs.induct generalizing s with
  | case1 r => simp [eq_nil_of_sublist_nil hl]
  | case2 a l => simp [eq_nil_of_sublist_nil hr]
  | case3 l a r ih =>
    rw [lcs_cons_cons, if_pos rfl]
    rcases s with _ | ⟨c, s⟩
    · simp
    · have hl' := hl.tail
      have hr' := hr.tail
      simpa using ih s (by simpa using hl') (by simpa using hr')
  | case4 a l b r hab ih1 ih2 =>
    rw [lcs_cons_cons, if_neg hab]
    rcases sublist_cons_iff.mp hl with hl | ⟨s', rfl, hl'⟩
    · exact (ih1 s hl hr).trans (le_max_left _ _)
    · rcases sublist_cons_iff.mp hr with hr | ⟨s'', he, -⟩
      · exact (ih2 _ hl hr).trans (le_max_right _ _)
      · exact absurd (cons.inj he).1 hab

theorem exists_common_sublist (l r : List α) :
    ∃ s : List α, s.Sublist l ∧ s.Sublist r ∧ s.length = lcs l r := by
  induction l, r using lcs.induct with
  | case1 r => exact ⟨[], by simp⟩
  | case2 a l => exact ⟨[], by simp⟩
  | case3 l a r ih =>
    obtain ⟨s, hl, hr, hs⟩ := ih
    exact ⟨a :: s, hl.cons_cons a, hr.cons_cons a, by simp [lcs_cons_cons, hs]⟩
  | case4 a l b r hab ih1 ih2 =>
    obtain ⟨s, hl, hr, hs⟩ := ih1
    obtain ⟨t, hl', hr', ht⟩ := ih2
    rw [lcs_cons_cons, if_neg hab]
    rcases le_total (lcs l (b :: r)) (lcs (a :: l) r) with h | h
    · exact ⟨t, hl', hr'.cons b, by rw [max_eq_right h, ht]⟩
    · exact ⟨s, hl.cons a, hr, by rw [max_eq_left h, hs]⟩

theorem lcs_mono {l l' r r' : List α} (hl : l.Sublist l') (hr : r.Sublist r') :
    lcs l r ≤ lcs l' r' := by
  obtain ⟨s, h1, h2, hs⟩ := exists_common_sublist l r
  exact hs ▸ sublist_length_le_lcs l' r' s (h1.trans hl) (h2.trans hr)

theorem lcs_le_left (l r : List α) : lcs l r ≤ l.length := by
  obtain ⟨s, h1, -, hs⟩ := exists_common_sublist l r
  exact hs ▸ h1.length_le

theorem lcs_le_right (l r : List α) : lcs l r ≤ r.length := by
  obtain ⟨s, -, h2, hs⟩ := exists_common_sublist l r
  exact hs ▸ h2.length_le

theorem lcs_reverse (l r : List α) : lcs l.reverse r.reverse = lcs l r := by
  have key : ∀ l r : List α, lcs l r ≤ lcs l.reverse r.reverse := fun l r => by
    obtain ⟨s, h1, h2, hs⟩ := exists_common_sublist l r
    rw [← hs, ← length_reverse]
    exact sublist_length_le_lcs _ _ _ (reverse_sublist.mpr h1) (reverse_sublist.mpr h2)
  have := key l.reverse r.reverse
  rw [reverse_reverse, reverse_reverse] at this
  exact le_antisymm this (key l r)

/-- Common subsequences of two parts are one of the whole. -/
theorem lcs_append_le (l l' r r' : List α) :
    lcs l r + lcs l' r' ≤ lcs (l ++ l') (r ++ r') := by
  obtain ⟨s, h1, h2, hs⟩ := exists_common_sublist l r
  obtain ⟨t, h3, h4, ht⟩ := exists_common_sublist l' r'
  rw [← hs, ← ht, ← length_append]
  exact sublist_length_le_lcs _ _ _ (h1.append h3) (h2.append h4)

theorem lcs_concat_left_le (l r : List α) (a : α) : lcs (l ++ [a]) r ≤ lcs l r + 1 := by
  obtain ⟨s, h1, h2, hs⟩ := exists_common_sublist (l ++ [a]) r
  obtain ⟨s₁, s₂, rfl, hs₁, hs₂⟩ := sublist_append_iff.mp h1
  have h := sublist_length_le_lcs l r s₁ hs₁ ((sublist_append_left _ _).trans h2)
  have := hs₂.length_le
  simp only [length_append, length_singleton] at hs this
  omega

theorem lcs_concat_right_le (l r : List α) (b : α) : lcs l (r ++ [b]) ≤ lcs l r + 1 := by
  obtain ⟨s, h1, h2, hs⟩ := exists_common_sublist l (r ++ [b])
  obtain ⟨s₁, s₂, rfl, hs₁, hs₂⟩ := sublist_append_iff.mp h2
  have h := sublist_length_le_lcs l r s₁ ((sublist_append_left _ _).trans h1) hs₁
  have := hs₂.length_le
  simp only [length_append, length_singleton] at hs this
  omega

/-- The last elements of two lists take part in at most one match. -/
theorem lcs_concat_concat_le (l r : List α) (a b : α) :
    lcs (l ++ [a]) (r ++ [b]) ≤ lcs l r + 1 := by
  obtain ⟨s, h1, h2, hs⟩ := exists_common_sublist (l ++ [a]) (r ++ [b])
  have drop : ∀ (t : List α) (c : α), s.Sublist (t ++ [c]) → s.dropLast.Sublist t := fun t c h => by
    have := List.Sublist.tail (reverse_sublist.mpr h)
    rw [tail_reverse] at this
    simpa using this
  have := sublist_length_le_lcs l r _ (drop l a h1) (drop r b h2)
  rw [length_dropLast] at this
  omega

theorem lcs_concat_self (l r : List α) (a : α) : lcs (l ++ [a]) (r ++ [a]) = lcs l r + 1 := by
  have h := lcs_append_le l [a] r [a]
  simp only [lcs_cons_cons, if_pos, lcs_nil_left] at h
  exact le_antisymm (lcs_concat_concat_le l r a a) h

theorem lcs_concat_of_ne {a b : α} (h : a ≠ b) (l r : List α) :
    lcs (l ++ [a]) (r ++ [b]) = max (lcs l (r ++ [b])) (lcs (l ++ [a]) r) := by
  rw [← lcs_reverse, ← lcs_reverse l, ← lcs_reverse (l ++ [a]) r]
  simp [lcs_cons_cons, h]

theorem lcs_append_left_cancel (p l r : List α) : lcs (p ++ l) (p ++ r) = p.length + lcs l r := by
  induction p with
  | nil => simp
  | cons a p ih => simp [lcs_cons_cons, ih]; omega

theorem lcs_append_right_cancel (p l r : List α) : lcs (l ++ p) (r ++ p) = p.length + lcs l r := by
  rw [← lcs_reverse, reverse_append, reverse_append, lcs_append_left_cancel, lcs_reverse,
    length_reverse]

theorem lcs_self (l : List α) : lcs l l = l.length := by
  simpa using lcs_append_left_cancel l [] []

theorem lcs_eq_zero {l r : List α} (h : ∀ a ∈ l, a ∉ r) : lcs l r = 0 := by
  obtain ⟨s, h1, h2, hs⟩ := exists_common_sublist l r
  rcases s with _ | ⟨c, s⟩
  · simpa using hs.symm
  · exact absurd (h2.subset (mem_cons_self ..)) (h c (h1.subset (mem_cons_self ..)))

end Lcs
