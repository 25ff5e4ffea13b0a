import HyperCommander.Lib.Slice

/-!
# Erasing ranges

* `Spaced a b rs`: the ranges `rs` lie in order between `a` and `b`, and none of them is empty.
* `kept l a b rs`: what is left of `l` between `a` and `b` without the ranges.
* `Matched`: two lists are the same without their ranges. Matched parts are put together with
  `Matched.append`, out of equal parts (`Matched.same`) and parts that are erased (`Matched.gaps`).
-/

namespace Erasure

open List Slice

variable {α : Type}

/-- The ranges lie in order between `a` and `b`, and none is empty. -/
def Spaced : (a b : Nat) → List (Nat × Nat) → Prop
  | a, b, [] => a ≤ b
  | a, b, r :: rs => a ≤ r.1 ∧ r.1 < r.2 ∧ Spaced r.2 b rs

/-- What is left between `a` and `b`. -/
def kept (l : List α) : (a b : Nat) → List (Nat × Nat) → List α
  | a, b, [] => slice l a b
  | a, b, r :: rs => slice l a r.1 ++ kept l r.2 b rs

/-- A range moved up. -/
def moveUp (k : Nat) (r : Nat × Nat) : Nat × Nat := (r.1 + k, r.2 + k)

/-- The range from `a` to `b`, if it is not empty. -/
def gap (a b : Nat) : List (Nat × Nat) := if a = b then [] else [(a, b)]

variable {l r : List α} {a b c d k : Nat} {rs ss : List (Nat × Nat)}

theorem Spaced.le (h : Spaced a b rs) : a ≤ b := by
  induction rs generalizing a with
  | nil => exact h
  | cons r rs ih =>
    obtain ⟨h1, h2, h3⟩ := h
    exact h1.trans (h2.le.trans (ih h3))

theorem Spaced.mono_left (h : Spaced a b rs) (hc : c ≤ a) : Spaced c b rs := by
  cases rs with
  | nil => exact Nat.le_trans hc h
  | cons r rs => exact ⟨hc.trans h.1, h.2⟩

theorem Spaced.append (h : Spaced a b rs) (h' : Spaced b c ss) : Spaced a c (rs ++ ss) := by
  induction rs generalizing a with
  | nil =>
    cases ss with
    | nil => exact Nat.le_trans h h'
    | cons s ss => exact ⟨Nat.le_trans h h'.1, h'.2⟩
  | cons r rs ih => exact ⟨h.1, h.2.1, ih h.2.2⟩

theorem spaced_gap (h : a ≤ b) : Spaced a b (gap a b) := by
  unfold gap
  split
  · exact h
  · exact ⟨Nat.le_refl _, by omega, Nat.le_refl _⟩

theorem Spaced.moveUp (h : Spaced a b rs) (k : Nat) :
    Spaced (a + k) (b + k) (rs.map (moveUp k)) := by
  induction rs generalizing a with
  | nil => exact Nat.add_le_add_right h k
  | cons r rs ih => exact ⟨Nat.add_le_add_right h.1 k, Nat.add_lt_add_right h.2.1 k, ih h.2.2⟩

theorem Spaced.mem (h : Spaced a b rs) {s : Nat × Nat} (hs : s ∈ rs) :
    a ≤ s.1 ∧ s.1 < s.2 ∧ s.2 ≤ b := by
  induction rs generalizing a with
  | nil => cases hs
  | cons r rs ih =>
    obtain ⟨h1, h2, h3⟩ := h
    rcases mem_cons.mp hs with rfl | hs
    · exact ⟨h1, h2, h3.le⟩
    · obtain ⟨h4, h5, h6⟩ := ih h3 hs
      exact ⟨by omega, h5, h6⟩

theorem Spaced.pairwise (h : Spaced a b rs) : rs.Pairwise fun r s => r.2 ≤ s.1 := by
  induction rs generalizing a with
  | nil => exact .nil
  | cons r rs ih => exact .cons (fun s hs => (h.2.2.mem hs).1) (ih h.2.2)

/-- Parts in order put together. -/
theorem spaced_flatMap {β : Type} {xs : List β} {lo hi : Nat} {first last : β → Nat}
    {ranges : β → List (Nat × Nat)} (hx : ∀ x ∈ xs, Spaced (first x) (last x) (ranges x))
    (hlo : lo ≤ hi) (hmem : ∀ x ∈ xs, lo ≤ first x ∧ last x ≤ hi)
    (hup : xs.Pairwise fun x y => last x ≤ first y) : Spaced lo hi (xs.flatMap ranges) := by
  induction xs generalizing lo with
  | nil => exact hlo
  | cons x xs ih =>
    obtain ⟨hfirst, hrest⟩ := pairwise_cons.mp hup
    obtain ⟨h1, h2⟩ := hmem x mem_cons_self
    rw [flatMap_cons]
    refine ((hx x mem_cons_self).mono_left h1).append (ih ?_ h2 ?_ hrest)
    · exact fun y hy => hx y (mem_cons_of_mem _ hy)
    · exact fun y hy => ⟨hfirst y hy, (hmem y (mem_cons_of_mem _ hy)).2⟩

/-! ## What is kept -/

theorem kept_append (h : Spaced a b rs) (h' : Spaced b c ss) :
    kept l a c (rs ++ ss) = kept l a b rs ++ kept l b c ss := by
  induction rs generalizing a with
  | nil =>
    cases ss with
    | nil => exact (slice_append h h').symm
    | cons s ss =>
      rw [nil_append, kept, kept, kept, ← append_assoc, slice_append h h'.1]
  | cons r rs ih => rw [cons_append, kept, kept, ih h.2.2, append_assoc]

theorem kept_gap : kept l a b (gap a b) = [] := by
  unfold gap
  split
  · rename_i h
    rw [h, kept, slice_self]
  · rw [kept, kept, slice_self, slice_self]
    rfl

/-- Positions of a part are those of the whole, moved up. -/
theorem kept_slice (h : Spaced a b rs) (hk : k + b ≤ d) :
    kept (slice l k d) a b rs = kept l (a + k) (b + k) (rs.map (moveUp k)) := by
  have hpart : ∀ {x y : Nat}, x ≤ y → k + y ≤ d →
      slice (slice l k d) x y = slice l (x + k) (y + k) := by
    intro x y hxy hy
    unfold slice
    rw [drop_take, drop_drop, take_take, show min (y - x) (d - k - x) = y - x by omega,
      show y + k - (x + k) = y - x by omega, Nat.add_comm k x]
  induction rs generalizing a with
  | nil => exact hpart h hk
  | cons r rs ih =>
    obtain ⟨h1, h2, h3⟩ := h
    have := h3.le
    rw [kept, map_cons, kept, ih h3, hpart h1 (by omega)]
    rfl

/-! ## Matched lists -/

/-- The parts from `a` to `b` and from `c` to `d` are the same without their ranges. -/
structure Matched (l r : List α) (a b c d : Nat) (rs ss : List (Nat × Nat)) : Prop where
  left : Spaced a b rs
  right : Spaced c d ss
  kept : kept l a b rs = kept r c d ss

theorem Matched.append {b' d' : Nat} {rs' ss' : List (Nat × Nat)} (h : Matched l r a b c d rs ss)
    (h' : Matched l r b b' d d' rs' ss') : Matched l r a b' c d' (rs ++ rs') (ss ++ ss') where
  left := h.left.append h'.left
  right := h.right.append h'.right
  kept := by rw [kept_append h.left h'.left, kept_append h.right h'.right, h.kept, h'.kept]

/-- Equal parts. -/
theorem Matched.same (hab : a ≤ b) (hcd : c ≤ d) (h : slice l a b = slice r c d) :
    Matched l r a b c d [] [] := ⟨hab, hcd, h⟩

/-- Parts that are erased. -/
theorem Matched.gaps (hab : a ≤ b) (hcd : c ≤ d) : Matched l r a b c d (gap a b) (gap c d) :=
  ⟨spaced_gap hab, spaced_gap hcd, by rw [kept_gap, kept_gap]⟩

/-- Matched parts of parts. -/
theorem Matched.moveUp {k m e f : Nat} (h : Matched (slice l k e) (slice r m f) a b c d rs ss)
    (hb : k + b ≤ e) (hd : m + d ≤ f) :
    Matched l r (a + k) (b + k) (c + m) (d + m) (rs.map (moveUp k)) (ss.map (moveUp m)) :=
  ⟨h.left.moveUp k,
    h.right.moveUp m, by rw [← kept_slice h.left hb, ← kept_slice h.right hd, h.kept]⟩

end Erasure
