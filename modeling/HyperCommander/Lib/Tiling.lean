import Mathlib.Algebra.Order.Ring.Int
import Mathlib.Data.List.Forall2

/-!
# Ranges that follow one another

`Tiles lo hi a rs b`: the ranges `[lo r, hi r)` of the list `rs` lie end to end from `a` to `b`. One
list can tile several axes at once, each with its own `lo` and `hi`, and an axis may give some of
the elements no room.

* `Tiles.locate`: every point between `a` and `b` lies in the range of the first element that ends
  behind it, the one that a binary search finds.
* `locate_le`: of two points in order, the elements are the same or in order on every axis.
-/

namespace Tiling

open List

variable {ρ : Type} {lo hi lo' hi' : ρ → Nat} {a b c a' b' x y : Nat} {rs ss : List ρ} {r s : ρ}

/-- The ranges lie end to end from `a` to `b`. -/
def Tiles (lo hi : ρ → Nat) : (a : Nat) → List ρ → (b : Nat) → Prop
  | a, [], b => a = b
  | a, r :: rs, b => lo r = a ∧ lo r ≤ hi r ∧ Tiles lo hi (hi r) rs b

/-- The first element that ends behind `x`. -/
def locate (hi : ρ → Nat) (rs : List ρ) (x : Nat) : Option ρ := rs.find? fun r => x < hi r

theorem Tiles.le (h : Tiles lo hi a rs b) : a ≤ b := by
  induction rs generalizing a with
  | nil => exact Nat.le_of_eq h
  | cons r rs ih =>
    obtain ⟨h1, h2, h3⟩ := h
    have := ih h3
    omega

theorem Tiles.append (h : Tiles lo hi a rs b) (h' : Tiles lo hi b ss c) :
    Tiles lo hi a (rs ++ ss) c := by
  induction rs generalizing a with
  | nil =>
    cases h
    exact h'
  | cons r rs ih => exact ⟨h.1, h.2.1, ih h.2.2⟩

theorem Tiles.mem (h : Tiles lo hi a rs b) (hr : r ∈ rs) : a ≤ lo r ∧ lo r ≤ hi r ∧ hi r ≤ b := by
  induction rs generalizing a with
  | nil => cases hr
  | cons s rs ih =>
    obtain ⟨h1, h2, h3⟩ := h
    have hle := h3.le
    rcases mem_cons.mp hr with rfl | hr
    · exact ⟨Nat.le_of_eq h1.symm, h2, hle⟩
    · obtain ⟨h4, h5, h6⟩ := ih h3 hr
      exact ⟨by omega, h5, h6⟩

/-- Another list with the same ranges. -/
theorem Tiles.congr {σ : Type} {lo₁ hi₁ : σ → Nat} {ts : List σ} (h : Tiles lo hi a rs b)
    (hts : List.Forall₂ (fun r t => lo₁ t = lo r ∧ hi₁ t = hi r) rs ts) : Tiles lo₁ hi₁ a ts b := by
  induction hts generalizing a with
  | nil => exact h
  | cons hr _ ih =>
    obtain ⟨h1, h2, h3⟩ := h
    refine ⟨hr.1.trans h1, by rw [hr.1, hr.2]; exact h2, ?_⟩
    rw [hr.2]
    exact ih h3

theorem locate_mem (h : locate hi rs x = some r) : r ∈ rs ∧ x < hi r :=
  ⟨mem_of_find?_eq_some h, by simpa using find?_some h⟩

theorem Tiles.locate (h : Tiles lo hi a rs b) (ha : a ≤ x) (hb : x < b) :
    ∃ r ∈ rs, Tiling.locate hi rs x = some r ∧ lo r ≤ x ∧ x < hi r := by
  induction rs generalizing a with
  | nil =>
    cases h
    omega
  | cons r rs ih =>
    obtain ⟨h1, h2, h3⟩ := h
    unfold Tiling.locate
    rcases Nat.lt_or_ge x (hi r) with hlt | hge
    · refine ⟨r, mem_cons_self, find?_cons_of_pos (by simpa using hlt), by omega, hlt⟩
    · obtain ⟨s, hs, hfind, hlo, hhi⟩ := ih h3 hge
      refine ⟨s, mem_cons_of_mem _ hs, ?_, hlo, hhi⟩
      rw [find?_cons_of_neg (by simpa using hge)]
      exact hfind

/-- A point inside a range of the list is found there. -/
theorem Tiles.locate_of_mem (h : Tiles lo hi a rs b) (hr : r ∈ rs) (hlo : lo r ≤ x)
    (hhi : x < hi r) : Tiling.locate hi rs x = some r := by
  induction rs generalizing a with
  | nil => cases hr
  | cons s rs ih =>
    obtain ⟨h1, h2, h3⟩ := h
    unfold Tiling.locate
    rcases mem_cons.mp hr with rfl | hr
    · exact find?_cons_of_pos (by simpa using hhi)
    · have := (h3.mem hr).1
      rw [find?_cons_of_neg (by simp; omega)]
      exact ih h3 hr

/-- Two points in order lie in the same element, or the elements are in order on every axis. -/
theorem locate_le (hx : locate hi rs x = some r) (hy : locate hi rs y = some s) (hxy : x ≤ y) :
    r = s ∨ ∀ lo' hi' a' b', Tiles lo' hi' a' rs b' → hi' r ≤ lo' s := by
  induction rs with
  | nil => cases hx
  | cons t rs ih =>
    unfold locate at hx hy
    by_cases ht : x < hi t
    · rw [find?_cons_of_pos (by simpa using ht)] at hx
      by_cases ht' : y < hi t
      · rw [find?_cons_of_pos (by simpa using ht')] at hy
        exact .inl (Option.some.inj (hx.symm.trans hy))
      · rw [find?_cons_of_neg (by simpa using ht')] at hy
        cases hx
        exact .inr fun _ _ _ _ htiles => (htiles.2.2.mem (locate_mem hy).1).1
    · rw [find?_cons_of_neg (by simpa using ht)] at hx
      rw [find?_cons_of_neg (by simp; omega)] at hy
      exact (ih hx hy).imp_right fun hall _ _ _ _ htiles => hall _ _ _ _ htiles.2.2

end Tiling
