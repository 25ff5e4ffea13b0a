import Mathlib.Algebra.BigOperators.Group.List.Basic
import Mathlib.Algebra.Order.Ring.Int

/-!
# Difference arrays

An array of differences stands for the array of its running sums (`level`). To add a value to a
whole range of places it takes two changes: the value comes in at the first place and goes out
behind the last one.

* `level_stamp`: what a stamp adds to each place.
* `level_stamps`: many stamps add up.
-/

namespace DifferenceArray

open List

variable {M : Type} [AddCommGroup M] {ds : List M} {a b p : Nat} {v : M}

/-- The value at a place. -/
def level (ds : List M) (p : Nat) : M := (ds.take (p + 1)).sum

/-- A change of one difference. -/
def bump (ds : List M) (a : Nat) (v : M) : List M := ds.modify a (· + v)

/-- Adds `v` to the places from `a` up to `b`. -/
def stamp (ds : List M) (a b : Nat) (v : M) : List M := bump (bump ds a v) b (-v)

@[simp] theorem length_bump : (bump ds a v).length = ds.length := length_modify _ _ _

@[simp] theorem length_stamp : (stamp ds a b v).length = ds.length := by
  rw [stamp, length_bump, length_bump]

theorem sum_modify_add (h : a < ds.length) : (ds.modify a (· + v)).sum = ds.sum + v := by
  induction ds generalizing a with
  | nil => exact absurd h (Nat.not_lt_zero _)
  | cons d ds ih =>
    cases a with
    | zero =>
      rw [modify_zero_cons, sum_cons, sum_cons]
      exact add_right_comm d v ds.sum
    | succ a =>
      rw [modify_succ_cons, sum_cons, sum_cons, ih (Nat.lt_of_succ_lt_succ h),
        add_assoc]

theorem level_bump (h : a < ds.length) :
    level (bump ds a v) p = level ds p + if a ≤ p then v else 0 := by
  unfold level bump
  rw [take_modify]
  split
  · exact sum_modify_add (by rw [length_take]; omega)
  · rw [modify_eq_self (by rw [length_take]; omega), add_zero]

theorem level_stamp (hab : a ≤ b) (hb : b < ds.length) :
    level (stamp ds a b v) p = level ds p + if a ≤ p ∧ p < b then v else 0 := by
  rw [stamp, level_bump (by rw [length_bump]; exact hb), level_bump (by omega), add_assoc]
  congr 1
  by_cases ha : a ≤ p
  · by_cases hp : b ≤ p
    · rw [if_pos ha, if_pos hp, if_neg (by omega), add_neg_cancel]
    · rw [if_pos ha, if_neg hp, if_pos ⟨ha, by omega⟩, add_zero]
  · rw [if_neg ha, if_neg (by omega), if_neg (by omega), add_zero]

/-- A range and what it adds. -/
structure Stamp (M : Type) where
  first : Nat
  last : Nat
  value : M

/-- What a list of stamps adds to a place. -/
def total (ss : List (Stamp M)) (p : Nat) : M :=
  (ss.map fun s => if s.first ≤ p ∧ p < s.last then s.value else 0).sum

theorem level_stamps {ss : List (Stamp M)} (h : ∀ s ∈ ss, s.first ≤ s.last ∧ s.last < ds.length) :
    level (ss.foldl (fun ds s => stamp ds s.first s.last s.value) ds) p =
      level ds p + total ss p := by
  induction ss generalizing ds with
  | nil => rw [foldl_nil, total, map_nil, sum_nil, add_zero]
  | cons s ss ih =>
    obtain ⟨h1, h2⟩ := h s mem_cons_self
    have hrest : ∀ t ∈ ss, t.first ≤ t.last ∧
        t.last < (stamp ds s.first s.last s.value).length := by
      intro t ht
      rw [length_stamp]
      exact h t (mem_cons_of_mem _ ht)
    rw [foldl_cons, ih hrest, level_stamp h1 h2, total, total, map_cons, sum_cons,
      add_assoc]

/-- An array without differences. -/
theorem level_replicate (n : Nat) : level (List.replicate n (0 : M)) p = 0 := by
  rw [level, take_replicate, sum_replicate, nsmul_zero]

end DifferenceArray
