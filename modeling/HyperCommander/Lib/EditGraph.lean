import HyperCommander.Lib.Lcs
import Mathlib.Data.Int.Lemmas
import Mathlib.Data.Nat.Find

/-!
# The edit graph of two lists

A point `(x, y)` stands for the first `x` elements of `l` against the first `y` of `r`. Both
coordinates may lie beyond the lists: there nothing matches.

* `cost l r x y`: the deletions and insertions a shortest script needs to reach the point. It
  never falls along a diagonal (`cost_diag_mono`), stays the same over a match (`cost_match`) and
  grows by one from the cheaper neighbour otherwise (`cost_of_not_matches`).
* `Furthest l r d k x`: `x` is the last point of diagonal `k` within cost `d`. The rule of the
  greedy algorithm is `furthest_succ`.
* `split_of_costs`: two points of one diagonal, one cheap from the start and one cheap to the
  end, whose costs add up to at most the distance, lie on a shortest script.
* `exists_split`: a shortest script has a point at every cost.
* `two_le_distance`: lists that differ at both ends are two edits apart.
-/

namespace EditGraph

open List Lcs

variable {α : Type*} [DecidableEq α]

section Cost

variable (l r : List α)

/-- Matches among the first `x` elements of `l` and the first `y` of `r`. -/
def common (x y : Nat) : Nat := lcs (l.take x) (r.take y)

/-- The length of a shortest script from the first `x` elements of `l` to the first `y` of `r`. -/
def cost (x y : Nat) : Nat := x + y - 2 * common l r x y

/-- The elements after the point `(x, y)` exist and are equal. -/
def Matches (x y : Nat) : Prop := ∃ a, l[x]? = some a ∧ r[y]? = some a

/-- The length of a shortest script between the lists. -/
def distance : Nat := l.length + r.length - 2 * lcs l r

end Cost

variable {l r : List α} {x y : Nat}

theorem common_le : common l r x y ≤ x ∧ common l r x y ≤ y := by
  refine ⟨(lcs_le_left _ _).trans ?_, (lcs_le_right _ _).trans ?_⟩
  · exact length_take_le _ _
  · exact length_take_le _ _

theorem cost_add_common : cost l r x y + 2 * common l r x y = x + y := by
  have := common_le (l := l) (r := r) (x := x) (y := y)
  unfold cost; omega

theorem distance_add_lcs : distance l r + 2 * lcs l r = l.length + r.length := by
  have h1 := lcs_le_left l r
  have h2 := lcs_le_right l r
  unfold distance; omega

omit [DecidableEq α] in
theorem Matches.lt (h : Matches l r x y) : x < l.length ∧ y < r.length := by
  obtain ⟨a, h1, h2⟩ := h
  exact ⟨(List.getElem?_eq_some_iff.mp h1).1, (List.getElem?_eq_some_iff.mp h2).1⟩

theorem cost_zero : cost l r 0 0 = 0 := by simp [cost]

theorem cost_length : cost l r l.length r.length = distance l r := by
  simp [cost, common, distance]

omit [DecidableEq α] in
theorem take_succ_of_getElem? {a : α} (h : l[x]? = some a) : l.take (x + 1) = l.take x ++ [a] := by
  rw [take_add_one, h]; rfl

omit [DecidableEq α] in
theorem take_succ_of_none (h : l[x]? = none) : l.take (x + 1) = l.take x := by
  rw [take_add_one, h]; simp

theorem common_succ_left : common l r x y ≤ common l r (x + 1) y ∧
    common l r (x + 1) y ≤ common l r x y + 1 := by
  unfold common
  rcases h : l[x]? with _ | a
  · rw [take_succ_of_none h]; omega
  · rw [take_succ_of_getElem? h]
    exact ⟨lcs_mono (sublist_append_left _ _) (List.Sublist.refl _), lcs_concat_left_le _ _ _⟩

theorem common_succ_right : common l r x y ≤ common l r x (y + 1) ∧
    common l r x (y + 1) ≤ common l r x y + 1 := by
  unfold common
  rcases h : r[y]? with _ | a
  · rw [take_succ_of_none h]; omega
  · rw [take_succ_of_getElem? h]
    exact ⟨lcs_mono (List.Sublist.refl _) (sublist_append_left _ _), lcs_concat_right_le _ _ _⟩

theorem common_succ_succ_le : common l r (x + 1) (y + 1) ≤ common l r x y + 1 := by
  rcases h : l[x]? with _ | a
  · have := (common_succ_right (l := l) (r := r) (x := x) (y := y)).2
    unfold common at this ⊢
    rwa [take_succ_of_none h]
  rcases h' : r[y]? with _ | b
  · have := (common_succ_left (l := l) (r := r) (x := x) (y := y)).2
    unfold common at this ⊢
    rwa [take_succ_of_none h']
  unfold common
  rw [take_succ_of_getElem? h, take_succ_of_getElem? h']
  exact lcs_concat_concat_le _ _ _ _

theorem common_match (h : Matches l r x y) : common l r (x + 1) (y + 1) = common l r x y + 1 := by
  obtain ⟨a, h1, h2⟩ := h
  unfold common
  rw [take_succ_of_getElem? h1, take_succ_of_getElem? h2, lcs_concat_self]

theorem common_of_not_matches (h : ¬ Matches l r x y) :
    common l r (x + 1) (y + 1) = max (common l r x (y + 1)) (common l r (x + 1) y) := by
  have hl := (common_succ_left (l := l) (r := r) (x := x) (y := y + 1)).1
  have hr := (common_succ_right (l := l) (r := r) (x := x + 1) (y := y)).1
  rcases h1 : l[x]? with _ | a
  · have : common l r (x + 1) (y + 1) = common l r x (y + 1) := by
      unfold common; rw [take_succ_of_none h1]
    omega
  rcases h2 : r[y]? with _ | b
  · have : common l r (x + 1) (y + 1) = common l r (x + 1) y := by
      unfold common; rw [take_succ_of_none h2]
    omega
  have hab : a ≠ b := fun e => h ⟨a, h1, e ▸ h2⟩
  unfold common
  rw [take_succ_of_getElem? h1, take_succ_of_getElem? h2, lcs_concat_of_ne hab]

theorem cost_succ_left_le : cost l r (x + 1) y ≤ cost l r x y + 1 := by
  have := (common_succ_left (l := l) (r := r) (x := x) (y := y)).1
  unfold cost; omega

theorem cost_succ_right_le : cost l r x (y + 1) ≤ cost l r x y + 1 := by
  have := (common_succ_right (l := l) (r := r) (x := x) (y := y)).1
  unfold cost; omega

theorem cost_diag_succ : cost l r x y ≤ cost l r (x + 1) (y + 1) := by
  have := common_succ_succ_le (l := l) (r := r) (x := x) (y := y)
  unfold cost; omega

theorem cost_diag_mono (k : Nat) : cost l r x y ≤ cost l r (x + k) (y + k) := by
  induction k with
  | zero => exact le_rfl
  | succ k ih => exact ih.trans cost_diag_succ

theorem cost_match (h : Matches l r x y) : cost l r (x + 1) (y + 1) = cost l r x y := by
  have := common_match h
  unfold cost; omega

/-- A run of matches along the diagonal. -/
theorem cost_snake {k : Nat} (h : ∀ i < k, Matches l r (x + i) (y + i)) :
    cost l r (x + k) (y + k) = cost l r x y := by
  induction k with
  | zero => rfl
  | succ k ih =>
    rw [← Nat.add_assoc, ← Nat.add_assoc, cost_match (h k (by omega))]
    exact ih fun i hi => h i (by omega)

theorem cost_of_not_matches (h : ¬ Matches l r x y) :
    cost l r (x + 1) (y + 1) = min (cost l r x (y + 1)) (cost l r (x + 1) y) + 1 := by
  have hc := common_of_not_matches h
  have h1 := cost_add_common (l := l) (r := r) (x := x + 1) (y := y + 1)
  have h2 := cost_add_common (l := l) (r := r) (x := x) (y := y + 1)
  have h3 := cost_add_common (l := l) (r := r) (x := x + 1) (y := y)
  omega

theorem diff_le_cost : (x : Int) - y ≤ cost l r x y ∧ (y : Int) - x ≤ cost l r x y := by
  have h1 := cost_add_common (l := l) (r := r) (x := x) (y := y)
  have h2 := common_le (l := l) (r := r) (x := x) (y := y)
  omega

theorem cost_axis_left (x : Nat) : cost l r x 0 = x := by simp [cost, common]

theorem cost_axis_right (y : Nat) : cost l r 0 y = y := by simp [cost, common]

/-! ## Furthest points -/

/-- `x` is the last point of diagonal `k` that a script of length `d` reaches. -/
def Furthest (l r : List α) (d : Nat) (k x : Int) : Prop :=
  ∃ a b : Nat, x = a ∧ x - k = b ∧ cost l r a b ≤ d ∧ d < cost l r (a + 1) (b + 1)

variable {d a b e : Nat} {k u w : Int}

/-- Points of the diagonal past the furthest one cost more. -/
theorem Furthest.lt_cost {x : Int} (h : Furthest l r d k x)
    (hk : (a : Int) - b = k) (hx : x < a) : d < cost l r a b := by
  obtain ⟨a', b', rfl, hb', -, hlt⟩ := h
  obtain ⟨j, rfl⟩ : ∃ j, a = a' + 1 + j := ⟨a - (a' + 1), by omega⟩
  obtain rfl : b = b' + 1 + j := by omega
  exact hlt.trans_le (cost_diag_mono j)

theorem Furthest.le_of_cost {x : Int} (h : Furthest l r d k x)
    (hk : (a : Int) - b = k) (hc : cost l r a b ≤ d) : (a : Int) ≤ x := by
  by_contra hlt
  exact absurd (h.lt_cost hk (by omega)) (by omega)

theorem Furthest.unique {x x' : Int} (h : Furthest l r d k x)
    (h' : Furthest l r d k x') : x = x' := by
  obtain ⟨a, b, rfl, hb, hc, -⟩ := id h
  obtain ⟨a', b', rfl, hb', hc', -⟩ := id h'
  exact le_antisymm (h'.le_of_cost (by omega) hc) (h.le_of_cost (by omega) hc')

/-- The steps from a neighbouring diagonal stay within one more edit. -/
theorem Furthest.succ_le (h : Furthest l r d (k - 1) u)
    (hw : Furthest l r (d + 1) k w) : u + 1 ≤ w := by
  obtain ⟨a, b, rfl, hb, hc, -⟩ := h
  have := hw.le_of_cost (a := a + 1) (b := b) (by push_cast; omega)
    (cost_succ_left_le.trans (by omega))
  push_cast at this
  exact this

theorem Furthest.le_below (h : Furthest l r d (k + 1) u)
    (hw : Furthest l r (d + 1) k w) : u ≤ w := by
  obtain ⟨a, b, rfl, hb, hc, -⟩ := h
  exact hw.le_of_cost (a := a) (b := b + 1) (by push_cast; omega)
    (cost_succ_right_le.trans (by omega))

/-- The greedy rule: a point within cost `d + 1` that no match extends, and that lies past what
cost `d` reaches on both neighbouring diagonals, is furthest for `d + 1`. A neighbour beyond the
reachable diagonals is never reached. -/
theorem furthest_succ (hk : (a : Int) - b = k) (hc : cost l r a b ≤ d + 1) (hm : ¬ Matches l r a b)
    (hlow : (-(d : Int) ≤ k - 1 → ∃ x, Furthest l r d (k - 1) x ∧ x < a))
    (hhigh : (k + 1 ≤ (d : Int) → ∃ x, Furthest l r d (k + 1) x ∧ x < a + 1)) :
    Furthest l r (d + 1) k a := by
  refine ⟨a, b, rfl, by omega, hc, ?_⟩
  rw [cost_of_not_matches hm]
  have h1 : d < cost l r a (b + 1) := by
    by_cases hd : -(d : Int) ≤ k - 1
    · obtain ⟨x, hx, hlt⟩ := hlow hd
      exact hx.lt_cost (by push_cast; omega) hlt
    · have := (diff_le_cost (l := l) (r := r) (x := a) (y := b + 1)).2
      push_cast at this; omega
  have h2 : d < cost l r (a + 1) b := by
    by_cases hd : k + 1 ≤ (d : Int)
    · obtain ⟨x, hx, hlt⟩ := hhigh hd
      exact hx.lt_cost (by push_cast; omega) (by push_cast; omega)
    · have := (diff_le_cost (l := l) (r := r) (x := a + 1) (y := b)).1
      push_cast at this; omega
  omega

/-- Along the diagonal the cost outgrows every bound. -/
theorem exists_cost_gt (d a b : Nat) : ∃ j, d < cost l r (a + j) (b + j) := by
  refine ⟨d + l.length + 1, ?_⟩
  have h := cost_add_common (l := l) (r := r) (x := a + (d + l.length + 1))
    (y := b + (d + l.length + 1))
  have h2 : common l r (a + (d + l.length + 1)) (b + (d + l.length + 1)) ≤ l.length := by
    exact (lcs_le_left _ _).trans (by simp)
  omega

/-- Every diagonal within `d` of the main one has a furthest point. -/
theorem exists_furthest (h1 : -(d : Int) ≤ k) (h2 : k ≤ d) :
    ∃ x, Furthest l r d k x := by
  obtain ⟨a, b, hk, hc⟩ : ∃ a b : Nat, (a : Int) - b = k ∧ cost l r a b ≤ d := by
    rcases le_total 0 k with h | h
    · exact ⟨k.toNat, 0, by omega, by rw [cost_axis_left]; omega⟩
    · exact ⟨0, (-k).toNat, by omega, by rw [cost_axis_right]; omega⟩
  have hex := exists_cost_gt (l := l) (r := r) d a b
  obtain ⟨j, hj⟩ : ∃ j, Nat.find hex = j + 1 := by
    refine Nat.exists_eq_succ_of_ne_zero fun h0 => ?_
    have := Nat.find_spec hex
    rw [h0] at this
    exact absurd this (by simpa using hc)
  refine ⟨(a + j : Nat), a + j, b + j, rfl, by push_cast; omega, ?_, ?_⟩
  · exact Nat.le_of_not_lt (Nat.find_min hex (by omega))
  · have := Nat.find_spec hex
    rwa [hj, ← Nat.add_assoc, ← Nat.add_assoc] at this

/-! ## Points of a shortest script -/

theorem cost_drop_eq (hx : x ≤ l.length) (hy : y ≤ r.length) :
    cost l.reverse r.reverse (l.length - x) (r.length - y) + 2 * lcs (l.drop x) (r.drop y) =
      (l.length - x) + (r.length - y) := by
  have h : common l.reverse r.reverse (l.length - x) (r.length - y) =
      lcs (l.drop x) (r.drop y) := by
    unfold common
    rw [take_reverse, take_reverse, lcs_reverse]
    congr 2 <;> omega
  rw [← h]
  exact cost_add_common

/-- The scripts before and after a point, put together, are no shorter than the distance. -/
theorem distance_le (hx : x ≤ l.length) (hy : y ≤ r.length) :
    distance l r ≤ cost l r x y + cost l.reverse r.reverse (l.length - x) (r.length - y) := by
  have h1 := cost_add_common (l := l) (r := r) (x := x) (y := y)
  have h2 := cost_drop_eq hx hy
  have h3 := lcs_append_le (l.take x) (l.drop x) (r.take y) (r.drop y)
  rw [take_append_drop, take_append_drop] at h3
  have h4 := distance_add_lcs (l := l) (r := r)
  unfold common at h1
  omega

/-- The cost of a point is the distance of what stands before it. -/
theorem distance_take (hx : x ≤ l.length) (hy : y ≤ r.length) :
    distance (l.take x) (r.take y) = cost l r x y := by
  have h1 := cost_add_common (l := l) (r := r) (x := x) (y := y)
  have h4 := distance_add_lcs (l := l.take x) (r := r.take y)
  unfold common at h1
  simp only [length_take] at h4
  omega

/-- The cost of a point from the end is the distance of what stands after it. -/
theorem distance_drop (hx : x ≤ l.length) (hy : y ≤ r.length) :
    distance (l.drop x) (r.drop y) =
      cost l.reverse r.reverse (l.length - x) (r.length - y) := by
  have h2 := cost_drop_eq hx hy
  have h5 := distance_add_lcs (l := l.drop x) (r := r.drop y)
  simp only [length_drop] at h5
  omega

/-- A point whose two costs add up to at most the distance cuts the problem into two whose
distances add up to it. -/
theorem split_of_costs (hx : x ≤ l.length) (hy : y ≤ r.length)
    (h : cost l r x y + cost l.reverse r.reverse (l.length - x) (r.length - y) ≤ distance l r) :
    distance (l.take x) (r.take y) + distance (l.drop x) (r.drop y) = distance l r := by
  have h3 := distance_le hx hy
  rw [distance_take hx hy, distance_drop hx hy]
  omega

omit [DecidableEq α] in
theorem matches_reverse (hx : x < l.length) (hy : y < r.length) (h : Matches l r x y) :
    Matches l.reverse r.reverse (l.length - 1 - x) (r.length - 1 - y) := by
  obtain ⟨a, h1, h2⟩ := h
  refine ⟨a, ?_, ?_⟩
  · rw [getElem?_reverse (by omega)]; rw [← h1]; congr 1; omega
  · rw [getElem?_reverse (by omega)]; rw [← h2]; congr 1; omega

/-- A shortest script has a point at every cost up to the distance. -/
theorem exists_split (he : e ≤ distance l r) :
    ∃ x y, x ≤ l.length ∧ y ≤ r.length ∧ cost l r x y = e ∧
      cost l.reverse r.reverse (l.length - x) (r.length - y) = distance l r - e := by
  -- Walk from a point of the script at cost at most `e` towards the end.
  suffices H : ∀ s x y, x ≤ l.length → y ≤ r.length → (l.length - x) + (r.length - y) = s →
      cost l r x y + cost l.reverse r.reverse (l.length - x) (r.length - y) = distance l r →
      cost l r x y ≤ e →
      ∃ x y, x ≤ l.length ∧ y ≤ r.length ∧ cost l r x y = e ∧
        cost l.reverse r.reverse (l.length - x) (r.length - y) = distance l r - e by
    refine H _ 0 0 (Nat.zero_le _) (Nat.zero_le _) rfl ?_ (by rw [cost_zero]; omega)
    have := cost_length (l := l.reverse) (r := r.reverse)
    simp only [length_reverse] at this
    rw [cost_zero, Nat.sub_zero, Nat.sub_zero, this, Nat.zero_add]
    unfold distance; rw [lcs_reverse]; simp
  intro s
  induction s using Nat.strong_induction_on with
  | _ s ih =>
    intro x y hx hy hs hsum hle
    rcases Nat.lt_or_ge (cost l r x y) e with hlt | hge
    swap
    · exact ⟨x, y, hx, hy, by omega, by omega⟩
    -- Some way on from `(x, y)` stays on a shortest script.
    have hback : 0 < cost l.reverse r.reverse (l.length - x) (r.length - y) := by omega
    by_cases hxl : x < l.length
    · by_cases hyr : y < r.length
      · by_cases hm : Matches l r x y
        · have hc := cost_match hm
          have hr := cost_match (matches_reverse hxl hyr hm)
          rw [show l.length - 1 - x + 1 = l.length - x by omega,
            show r.length - 1 - y + 1 = r.length - y by omega] at hr
          refine ih (s - 2) (by omega) (x + 1) (y + 1) hxl hyr (by omega) ?_ (by omega)
          rw [show l.length - (x + 1) = l.length - 1 - x by omega,
            show r.length - (y + 1) = r.length - 1 - y by omega]
          omega
        · have hm' : ¬ Matches l.reverse r.reverse (l.length - 1 - x) (r.length - 1 - y) := by
            intro h
            have := matches_reverse (by simp; omega) (by simp; omega) h
            simp only [reverse_reverse, length_reverse] at this
            rw [show l.length - 1 - (l.length - 1 - x) = x by omega,
              show r.length - 1 - (r.length - 1 - y) = y by omega] at this
            exact hm this
          have hr := cost_of_not_matches hm'
          rw [show l.length - 1 - x + 1 = l.length - x by omega,
            show r.length - 1 - y + 1 = r.length - y by omega] at hr
          rcases le_total (cost l.reverse r.reverse (l.length - 1 - x) (r.length - y))
            (cost l.reverse r.reverse (l.length - x) (r.length - 1 - y)) with h | h
          · have h1 := cost_succ_left_le (l := l) (r := r) (x := x) (y := y)
            have h2 := distance_le (l := l) (r := r) (x := x + 1) (y := y) (by omega) hy
            rw [show l.length - (x + 1) = l.length - 1 - x by omega] at h2
            refine ih (s - 1) (by omega) (x + 1) y hxl hy (by omega) ?_ (by omega)
            rw [show l.length - (x + 1) = l.length - 1 - x by omega]
            omega
          · have h1 := cost_succ_right_le (l := l) (r := r) (x := x) (y := y)
            have h2 := distance_le (l := l) (r := r) (x := x) (y := y + 1) hx (by omega)
            rw [show r.length - (y + 1) = r.length - 1 - y by omega] at h2
            refine ih (s - 1) (by omega) x (y + 1) hx hyr (by omega) ?_ (by omega)
            rw [show r.length - (y + 1) = r.length - 1 - y by omega]
            omega
      · obtain rfl : y = r.length := by omega
        have h1 := cost_succ_left_le (l := l) (r := r) (x := x) (y := r.length)
        have h2 := distance_le (l := l) (r := r) (x := x + 1) (y := r.length) (by omega) le_rfl
        rw [Nat.sub_self, cost_axis_left] at hsum h2
        refine ih (s - 1) (by omega) (x + 1) r.length hxl le_rfl (by omega) ?_ (by omega)
        rw [Nat.sub_self, cost_axis_left]; omega
    · obtain rfl : x = l.length := by omega
      rw [Nat.sub_self, cost_axis_right] at hsum hback
      have h1 := cost_succ_right_le (l := l) (r := r) (x := l.length) (y := y)
      have h2 := distance_le (l := l) (r := r) (x := l.length) (y := y + 1) le_rfl (by omega)
      rw [Nat.sub_self, cost_axis_right] at h2
      refine ih (s - 1) (by omega) l.length (y + 1) le_rfl (by omega) (by omega) ?_ (by omega)
      rw [Nat.sub_self, cost_axis_right]; omega

theorem distance_reverse : distance l.reverse r.reverse = distance l r := by
  simp [distance, lcs_reverse]

omit [DecidableEq α] in
/-- A sublist with one element less shares an end with the list. -/
theorem ends_of_sublist {l r : List α} (h : l.Sublist r) (hl : l ≠ [])
    (hlen : r.length ≤ l.length + 1) : l.head? = r.head? ∨ l.getLast? = r.getLast? := by
  cases h with
  | slnil => exact absurd rfl hl
  | @cons _ r b h =>
    right
    obtain rfl : l = r := h.eq_of_length_le (by simpa using hlen)
    rw [getLast?_cons_of_ne_nil hl]
  | cons_cons a h => exact .inl rfl

/-- Lists that differ in their first and in their last elements. -/
theorem two_le_distance (hl : l ≠ []) (hr : r ≠ []) (hfirst : l.head? ≠ r.head?)
    (hlast : l.getLast? ≠ r.getLast?) : 2 ≤ distance l r := by
  have hD := distance_add_lcs (l := l) (r := r)
  obtain ⟨s, hsl, hsr, hs⟩ := exists_common_sublist l r
  have h1 := hsl.length_le
  have h2 := hsr.length_le
  by_contra hlt
  -- One of the lists is the longest common sublist.
  rcases (by omega : s.length = l.length ∨ s.length = r.length) with h | h
  · obtain rfl := hsl.eq_of_length h
    rcases ends_of_sublist hsr hl (by omega) with h | h
    · exact hfirst h
    · exact hlast h
  · obtain rfl := hsr.eq_of_length h
    rcases ends_of_sublist hsl hr (by omega) with h | h
    · exact hfirst h.symm
    · exact hlast h.symm

/-- A cost and a distance have the parity of the lines they cover. -/
theorem cost_parity : cost l r x y % 2 = (x + y) % 2 := by
  have := cost_add_common (l := l) (r := r) (x := x) (y := y)
  omega

theorem distance_parity : distance l r % 2 = (l.length + r.length) % 2 := by
  have := distance_add_lcs (l := l) (r := r)
  omega

/-- On the diagonal of a point of a shortest script, the furthest point for the cost of that
point has not left the lists. -/
theorem furthest_inside (hsum : d + e = distance l r) (hx : x ≤ l.length) (hy : y ≤ r.length)
    (hk : (x : Int) - y = k) (hback : cost l.reverse r.reverse (l.length - x) (r.length - y) ≤ e)
    (hu : Furthest l r d k u) : u ≤ l.length ∧ u - k ≤ r.length := by
  obtain ⟨a, b, rfl, hb, hc, -⟩ := hu
  -- What the point already matched bounds the distance from above.
  have h1 := cost_add_common (l := l) (r := r) (x := a) (y := b)
  have h2 : common l r a b ≤ lcs l r := lcs_mono (take_sublist _ _) (take_sublist _ _)
  have h3 := distance_add_lcs (l := l) (r := r)
  have h4 := diff_le_cost (l := l.reverse) (r := r.reverse) (x := l.length - x)
    (y := r.length - y)
  omega

end EditGraph
