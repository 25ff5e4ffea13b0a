import Mathlib.Algebra.Order.BigOperators.Group.List
import Mathlib.Algebra.Order.Group.Nat
import Mathlib.Algebra.Order.Ring.Int

/-!
# Patience lists

A strictly increasing list of natural numbers in which a new value replaces the first one that is
not smaller, or is appended. `below ts y` counts the values under `y`; `place` raises it to one
more than the values under the new one, and changes nothing else (`below_place`). When every value
of a list has been placed, `below` bounds its increasing sublists (`BoundsRising`).
-/

namespace Patience

open List

/-- The values under `y`. -/
def below (ts : List Nat) (y : Nat) : Nat := ts.countP (· < y)

/-- Puts `b` where the first value that is not smaller stands. -/
def place : List Nat → Nat → List Nat
  | [], b => [b]
  | x :: xs, b => if x < b then x :: place xs b else b :: xs

variable {ts : List Nat} {b y : Nat}

theorem below_mono {y' : Nat} (h : y ≤ y') : below ts y ≤ below ts y' := by
  refine countP_mono_left fun x _ hx => ?_
  simp only [decide_eq_true_eq] at hx ⊢
  omega

theorem below_eq_zero (h : ∀ x ∈ ts, y ≤ x) : below ts y = 0 := by
  rw [below, countP_eq_zero]
  intro x hx
  have := h x hx
  simp only [decide_eq_true_eq]
  omega

theorem below_cons (x : Nat) : below (x :: ts) y = below ts y + if x < y then 1 else 0 := by
  rw [below, countP_cons]
  simp only [decide_eq_true_eq]
  rfl

theorem mem_place {x : Nat} (h : x ∈ place ts b) : x = b ∨ x ∈ ts := by
  induction ts with
  | nil => simpa [place] using h
  | cons z zs ih =>
    rw [place] at h
    split at h
    · rcases mem_cons.mp h with rfl | h
      · exact .inr (mem_cons_self ..)
      · exact (ih h).imp id (mem_cons_of_mem _)
    · rcases mem_cons.mp h with rfl | h
      · exact .inl rfl
      · exact .inr (mem_cons_of_mem _ h)

theorem pairwise_place (h : ts.Pairwise (· < ·)) : (place ts b).Pairwise (· < ·) := by
  induction ts with
  | nil => exact pairwise_singleton _ _
  | cons x xs ih =>
    obtain ⟨h1, h2⟩ := pairwise_cons.mp h
    rw [place]
    split
    · refine pairwise_cons.mpr ⟨fun z hz => ?_, ih h2⟩
      rcases mem_place hz with rfl | hz
      · assumption
      · exact h1 z hz
    · exact pairwise_cons.mpr ⟨fun z hz => by have := h1 z hz; omega, h2⟩

theorem below_place (h : ts.Pairwise (· < ·)) :
    below (place ts b) y = if b < y then max (below ts y) (below ts b + 1) else below ts y := by
  induction ts with
  | nil => simp [place, below]
  | cons x xs ih =>
    obtain ⟨h1, h2⟩ := pairwise_cons.mp h
    rw [place]
    split
    · rename_i hx
      rw [below_cons, ih h2, below_cons, below_cons, if_pos hx]
      split
      · rw [if_pos (by omega)]; omega
      · rfl
    · rename_i hx
      have h0 : below xs b = 0 := below_eq_zero fun z hz => by have := h1 z hz; omega
      rw [below_cons, below_cons, below_cons, h0, if_neg hx]
      split
      · split
        · omega
        · have : below xs y = 0 := below_eq_zero fun z hz => by have := h1 z hz; omega
          omega
      · rw [if_neg (by omega)]

/-- In an increasing list the values under `b` come first. -/
theorem below_eq_of_split (i : Nat) (hi : i ≤ ts.length)
    (h1 : ∀ j (hj : j < ts.length), j < i → ts[j] < b)
    (h2 : ∀ j (hj : j < ts.length), i ≤ j → b ≤ ts[j]) : below ts b = i := by
  induction ts generalizing i with
  | nil => simp only [length_nil, Nat.le_zero] at hi; rw [hi]; rfl
  | cons x xs ih =>
    rw [below_cons]
    cases i with
    | zero =>
      have hx := h2 0 (by simp) le_rfl
      rw [ih 0 (Nat.zero_le _) (fun j hj hlt => by omega) fun j hj _ =>
        h2 (j + 1) (by simpa using hj) (by omega), if_neg (by simpa using hx)]
    | succ i =>
      have hx := h1 0 (by simp) (by omega)
      rw [ih i (by simpa using hi) (fun j hj hlt => h1 (j + 1) (by simpa using hj) (by omega))
        fun j hj hle => h2 (j + 1) (by simpa using hj) (by omega), if_pos (by simpa using hx)]

theorem getElem_lt_of_lt_below (h : ts.Pairwise (· < ·)) {j : Nat} (hj : j < ts.length)
    (hlt : j < below ts y) : ts[j] < y := by
  by_contra hge
  have hle : below ts y ≤ j := by
    unfold below
    rw [← take_append_drop j ts, countP_append]
    have h0 : (ts.drop j).countP (· < y) = 0 := by
      rw [countP_eq_zero]
      intro x hx
      obtain ⟨i, hi, rfl⟩ := mem_iff_getElem.mp hx
      rw [getElem_drop]
      have hlen : j + i < ts.length := by rw [length_drop] at hi; omega
      have : ts[j] ≤ ts[j + i] := by
        rcases Nat.eq_zero_or_pos i with rfl | hpos
        · exact le_rfl
        · exact (pairwise_iff_getElem.mp h j (j + i) hj _ (by omega)).le
      simp only [decide_eq_true_eq]
      omega
    have := countP_le_length (p := fun x => decide (x < y)) (l := ts.take j)
    rw [length_take] at this
    omega
  omega

theorem below_eq_length (h : ∀ x ∈ ts, x < y) : below ts y = ts.length := by
  rw [below, countP_eq_length]
  intro x hx
  simpa using h x hx

/-- Replacing by position and appending. -/
theorem place_eq_set (h : ts.Pairwise (· < ·)) :
    (if below ts b = ts.length then ts ++ [b] else ts.set (below ts b) b) = place ts b := by
  induction ts with
  | nil => rfl
  | cons x xs ih =>
    obtain ⟨h1, h2⟩ := pairwise_cons.mp h
    rw [place, below_cons, ← ih h2]
    split
    · rename_i hx
      simp only [length_cons, Nat.add_right_cancel_iff, set_cons_succ, cons_append]
      split <;> rfl
    · rename_i hx
      have h0 : below xs b = 0 := below_eq_zero fun z hz => by have := h1 z hz; omega
      simp [h0]

/-- `std::lower_bound` finds the place. -/
theorem findIdx_eq_below (h : ts.Pairwise (· < ·)) :
    (ts.findIdx fun x => !decide (x < b)) = below ts b := by
  induction ts with
  | nil => rfl
  | cons x xs ih =>
    obtain ⟨h1, h2⟩ := pairwise_cons.mp h
    rw [findIdx_cons, below_cons]
    by_cases hx : x < b
    · simp [hx, ih h2]
    · have h0 : below xs b = 0 := below_eq_zero fun z hz => by have := h1 z hz; omega
      simp [hx, h0]

/-! ## Increasing sublists -/

/-- An increasing sublist of `vs` whose values are under `y` has no more values than `ts` has
under `y`. -/
def BoundsRising (vs ts : List Nat) : Prop :=
  ∀ l : List Nat, l.Sublist vs → l.Pairwise (· < ·) → ∀ y, (∀ x ∈ l, x < y) → l.length ≤ below ts y

theorem BoundsRising.nil : BoundsRising [] [] := by
  intro l hl _ y _
  rw [sublist_nil.mp hl]
  exact Nat.zero_le _

theorem BoundsRising.place {vs : List Nat} (h : BoundsRising vs ts) (ht : ts.Pairwise (· < ·)) :
    BoundsRising (vs ++ [b]) (place ts b) := by
  intro l hl hp y hy
  rw [below_place ht]
  obtain ⟨l1, l2, rfl, h1, h2⟩ := sublist_append_iff.mp hl
  obtain ⟨hp1, -, hlt⟩ := pairwise_append.mp hp
  have hold := h l1 h1 hp1 y fun x hx => hy x (mem_append_left _ hx)
  rcases sublist_singleton.mp h2 with rfl | rfl
  · rw [append_nil]
    split
    · exact hold.trans (le_max_left _ _)
    · exact hold
  · -- What stands in front of `b` is under it.
    have hb := h l1 h1 hp1 b fun x hx => hlt x hx b mem_cons_self
    rw [if_pos (hy b (mem_append_right _ mem_cons_self)), length_append]
    exact (Nat.add_le_add_right hb 1).trans (le_max_right _ _)

/-- No increasing sublist is longer than the list. -/
theorem BoundsRising.length_le {vs l : List Nat} (h : BoundsRising vs ts) (hl : l.Sublist vs)
    (hp : l.Pairwise (· < ·)) : l.length ≤ ts.length := by
  refine (h l hl hp (l.sum + 1) fun x hx => ?_).trans countP_le_length
  exact Nat.lt_succ_of_le (le_sum_of_mem hx)

end Patience
