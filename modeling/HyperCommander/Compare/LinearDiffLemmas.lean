import HyperCommander.Compare.LinearDiff

/-!
# What `LinearDiff` returns

* `diagonal_yields`: one frontier entry is the furthest point of its diagonal whenever that
  point lies inside the range, and in any case `-1` or a point within the cost (`Entry`).
* `partition_yields`: the cut lies on a shortest script of the range. `PartitionBound` carries
  the search: as long as the frontiers have not met, the distance is not yet covered.
* `linearDiff_yields`: the result is a canonical script of the least size. The stack invariant
  `Chained` says that the edits so far lead to the first pending range and that the ranges join.
-/

namespace Hc.Compare

open List EditGraph Slice Lcs

variable {E : Failure → Prop} {limits : Budget}

/-! ## Frontier entries -/

/-- What the entry `v` of diagonal `k` says after turn `d`. -/
structure Entry (l r : List Line) (d : Nat) (k v : Int) : Prop where
  ge : -1 ≤ v
  furthest : ∀ x, Furthest l r d k x → x ≤ l.length → x - k ≤ r.length → v = x
  reached : 0 ≤ v → ∃ a b : Nat, v = a ∧ (a : Int) - b = k ∧ a ≤ l.length ∧ b ≤ r.length ∧
    cost l r a b ≤ d

/-- `same` compares the lines of the range at hand. -/
def Compares (same : Nat → Nat → Bool) (l r : List Line) : Prop :=
  ∀ x y, x < l.length → y < r.length → (same x y ↔ Matches l r x y)

/-- The snake from `(x, y)`. -/
theorem snake_yields {same : Nat → Nat → Bool} {l r : List Line} (hs : Compares same l r)
    (hstep : Yields E limits.step fun _ => True) {x y : Nat} (hx : x ≤ l.length) :
    Yields E (countWhile limits
        (fun i => x + i < l.length && (y + i < r.length && same (x + i) (y + i)))
        (l.length - x) 0)
      fun j => (∀ i < j, Matches l r (x + i) (y + i)) ∧ ¬ Matches l r (x + j) (y + j) := by
  refine (countWhile_yields hstep _ _).weaken ?_
  rintro j ⟨-, h2, h3, h4⟩
  constructor
  · intro i hi
    have := h3 i (Nat.zero_le _) hi
    simp only [Bool.and_eq_true, decide_eq_true_eq] at this
    exact (hs _ _ this.1 this.2.1).mp this.2.2
  · intro hm
    obtain ⟨h5, h6⟩ := hm.lt
    refine h4 (by omega) ?_
    simp only [Bool.and_eq_true, decide_eq_true_eq]
    exact ⟨h5, h6, (hs _ _ h5 h6).mpr hm⟩

/-- A point within cost `d` on the chosen start of diagonal `k`, and where the snake ends. -/
theorem entry_of_snake {l r : List Line} {d : Nat} {k x : Int} {j : Nat}
    (hc : cost l r x.toNat (x - k).toNat ≤ d) (hx : 0 ≤ x) (hy : 0 ≤ x - k) (hxl : x ≤ l.length)
    (hyr : x - k ≤ r.length) (hm : ∀ i < j, Matches l r (x.toNat + i) ((x - k).toNat + i))
    (hf : ∀ u, Furthest l r d k u → u ≤ l.length → u - k ≤ r.length → Furthest l r d k (x + j)) :
    Entry l r d k (x + j) where
  ge := by omega
  furthest u hu h1 h2 := (hf u hu h1 h2).unique hu
  reached _ := by
    refine ⟨x.toNat + j, (x - k).toNat + j, by omega, by omega, ?_, ?_, ?_⟩
    · rcases Nat.eq_zero_or_pos j with rfl | hj
      · omega
      · have := (hm (j - 1) (by omega)).lt; omega
    · rcases Nat.eq_zero_or_pos j with rfl | hj
      · omega
      · have := (hm (j - 1) (by omega)).lt; omega
    · rw [cost_snake hm]; exact hc

/-- Turn 0: the main diagonal starts at the corner. -/
theorem diagonal_zero {same : Nat → Nat → Bool} {l r : List Line} (hs : Compares same l r)
    (hstep : Yields E limits.step fun _ => True) (low : Int) :
    Yields E (diagonal limits l.length r.length same 0 0 low 0) fun v => Entry l r 0 0 v := by
  refine hstep.skip fun _ => ?_
  refine .ite (fun h => by omega) fun _ => ?_
  refine (snake_yields hs hstep (x := 0) (y := 0) (Nat.zero_le _)).bind fun j hj => .pure ?_
  refine entry_of_snake (by simp [cost_zero]) le_rfl le_rfl (by omega) (by omega) hj.1 ?_
  intro u hu h1 h2
  refine ⟨j, j, by simp, by simp, ?_, ?_⟩
  · have := cost_snake hj.1
    simp only [Nat.zero_add] at this
    rw [this, cost_zero]
  · have hm := hj.2
    simp only [Nat.zero_add] at hm
    rw [cost_of_not_matches hm]
    omega

/-- A turn of a `for` loop over `k`. The values on the neighbouring diagonals are those of the
turn before; a neighbour beyond them is not looked at. -/
theorem diagonal_succ {same : Nat → Nat → Bool} {l r : List Line} (hs : Compares same l r)
    (hstep : Yields E limits.step fun _ => True) {d : Nat} {k low high : Int}
    (hk1 : -((d : Int) + 1) ≤ k) (hk2 : k ≤ (d : Int) + 1)
    (hlow : k ≠ -((d : Int) + 1) → Entry l r d (k - 1) low)
    (hhigh : k ≠ (d : Int) + 1 → Entry l r d (k + 1) high) (hpar : (k - ((d : Int) + 1)) % 2 = 0) :
    Yields E (diagonal limits l.length r.length same (d + 1) k low high)
      fun v => Entry l r (d + 1) k v := by
  refine hstep.skip fun _ => ?_
  simp only [Nat.cast_add, Nat.cast_one]
  -- The start of the snake, and the furthest point of the turn before that it comes from.
  generalize hx : (if k = -((d : Int) + 1) ∨ (k ≠ (d : Int) + 1 ∧ low < high) then high
    else low + 1) = x
  have hin : ∀ u, Furthest l r (d + 1) k u → u ≤ l.length → u - k ≤ r.length →
      (k ≠ -((d : Int) + 1) → Furthest l r d (k - 1) low ∧ low + 1 ≤ u) ∧
      (k ≠ (d : Int) + 1 → Furthest l r d (k + 1) high ∧ high ≤ u) := by
    intro u hu h1 h2
    constructor
    · intro hk
      obtain ⟨p, hp⟩ :=
        exists_furthest (l := l) (r := r) (d := d) (k := k - 1) (by omega) (by omega)
      have hle := hp.succ_le hu
      rw [(hlow hk).furthest p hp (by omega) (by omega)]
      exact ⟨hp, hle⟩
    · intro hk
      obtain ⟨q, hq⟩ :=
        exists_furthest (l := l) (r := r) (d := d) (k := k + 1) (by omega) (by omega)
      have hle := hq.le_below hu
      rw [(hhigh hk).furthest q hq (by omega) (by omega)]
      exact ⟨hq, hle⟩
  refine .ite (fun hout => .pure ⟨le_rfl, ?_, by omega⟩) fun hout => ?_
  · -- Clamped: the furthest point is not inside.
    intro u hu h1 h2
    exfalso
    obtain ⟨hp, hq⟩ := hin u hu h1 h2
    split at hx
    · rename_i hc
      obtain ⟨⟨a, b, ha, hb, -⟩, hle⟩ := hq (by omega)
      omega
    · rename_i hc
      obtain ⟨⟨a, b, ha, hb, -⟩, hle⟩ := hp (by omega)
      omega
  -- Inside: the start costs at most `d + 1`.
  have hc : cost l r x.toNat (x - k).toNat ≤ d + 1 := by
    split at hx
    · rename_i hc
      obtain ⟨a, b, ha, hb, -, -, hcost⟩ := (hhigh (by omega)).reached (by omega)
      rw [show x.toNat = a by omega, show (x - k).toNat = b + 1 by omega]
      exact cost_succ_right_le.trans (by omega)
    · rename_i hc
      rcases lt_or_ge low 0 with h0 | h0
      · rw [show x.toNat = 0 by omega, cost_axis_right]; omega
      · obtain ⟨a, b, ha, hb, -, -, hcost⟩ := (hlow (by omega)).reached h0
        rw [show x.toNat = a + 1 by omega, show (x - k).toNat = b by omega]
        exact cost_succ_left_le.trans (by omega)
  refine (snake_yields hs hstep (x := x.toNat) (y := (x - k).toNat) (by omega)).bind
    fun j hj => .pure ?_
  refine entry_of_snake hc (by omega) (by omega) (by omega) (by omega) hj.1 ?_
  intro u hu h1 h2
  obtain ⟨hp, hq⟩ := hin u hu h1 h2
  have hlast := furthest_succ (l := l) (r := r) (d := d) (k := k) (a := x.toNat + j)
    (b := (x - k).toNat + j) (by push_cast; omega) (by rw [cost_snake hj.1]; exact hc) hj.2
    (fun hk => ?_) fun hk => ?_
  · rwa [show ((x.toNat + j : Nat) : Int) = x + j by omega] at hlast
  · obtain ⟨hp, -⟩ := hp (by omega)
    refine ⟨_, hp, ?_⟩
    split at hx <;> push_cast <;> omega
  · obtain ⟨hq, -⟩ := hq (by omega)
    refine ⟨_, hq, ?_⟩
    split at hx <;> push_cast <;> omega

/-! ## A loop over the diagonals -/

theorem Frontier.length_put (f : Frontier) (offset k x : Int) :
    (f.put offset k x).length = f.length := by simp [Frontier.put]

theorem Frontier.at_put_self {f : Frontier} {offset k : Int} (x : Int) (h0 : 0 ≤ offset + k)
    (h1 : offset + k < f.length) : (f.put offset k x).at offset k = x := by
  unfold Frontier.at Frontier.put
  rw [getD_eq_getElem?_getD, getElem?_set_self (by omega)]
  rfl

theorem Frontier.at_put_ne {f : Frontier} {offset k k' : Int} (x : Int) (h : k' ≠ k)
    (h0 : 0 ≤ offset + k) (h0' : 0 ≤ offset + k') :
    (f.put offset k x).at offset k' = f.at offset k' := by
  unfold Frontier.at Frontier.put
  rw [getD_eq_getElem?_getD, getD_eq_getElem?_getD, getElem?_set_ne (by omega)]

/-- The diagonals of turn `d`. -/
def OnTurn (d : Nat) (k : Int) : Prop := -(d : Int) ≤ k ∧ k ≤ d ∧ (k - d) % 2 = 0

/-- The frontier after turn `d`. -/
def FrontierAt (l r : List Line) (offset : Int) (d : Nat) (f : Frontier) : Prop :=
  ∀ k, OnTurn d k → Entry l r d k (f.at offset k)

/-- The frontier before turn `d`. -/
def Prepared (l r : List Line) (offset : Int) : Nat → Frontier → Prop
  | 0, f => f.at offset 1 = 0
  | d + 1, f => FrontierAt l r offset d f

/-- What a loop over the diagonals of turn `d` leaves behind. -/
def PhaseResult (l r : List Line) (offset : Int) (d size : Nat)
    (hit : Int → Int → Option (Nat × Nat)) (out : Frontier × Option (Nat × Nat)) : Prop :=
  out.1.length = size ∧
  (out.2 = none → FrontierAt l r offset d out.1 ∧
    ∀ k, OnTurn d k → 0 ≤ out.1.at offset k → hit k (out.1.at offset k) = none) ∧
  ∀ p, out.2 = some p → ∃ k x, OnTurn d k ∧ 0 ≤ x ∧ Entry l r d k x ∧ hit k x = some p

section Phase

variable {l r : List Line} {same : Nat → Nat → Bool} {offset : Int} {d : Nat}
  {hit : Int → Int → Option (Nat × Nat)}

/-- One diagonal of turn `d`, from the frontier before the turn. -/
theorem diagonal_yields (hs : Compares same l r) (hstep : Yields E limits.step fun _ => True)
    {f : Frontier} {k : Int} (hf : Prepared l r offset d f) (hk : OnTurn d k) :
    Yields E (diagonal limits l.length r.length same d k (f.at offset (k - 1))
      (f.at offset (k + 1))) fun v => Entry l r d k v := by
  cases d with
  | zero =>
    obtain rfl : k = 0 := by have := hk.1; have := hk.2.1; omega
    have h : f.at offset (0 + 1) = 0 := hf
    rw [h]
    exact diagonal_zero hs hstep _
  | succ d =>
    obtain ⟨h1, h2, h3⟩ := hk
    push_cast at h1 h2 h3
    refine diagonal_succ hs hstep h1 h2 (fun h => hf _ ⟨?_, ?_, ?_⟩) (fun h => hf _ ⟨?_, ?_, ?_⟩) h3
      <;> omega

theorem Prepared.put {f : Frontier} {k x : Int} (hf : Prepared l r offset d f)
    (hk : OnTurn d k) (ho : (d : Int) + 1 ≤ offset) :
    Prepared l r offset d (f.put offset k x) := by
  obtain ⟨h1, h2, h3⟩ := hk
  cases d with
  | zero =>
    have h : f.at offset 1 = 0 := hf
    show (f.put offset k x).at offset 1 = 0
    rw [Frontier.at_put_ne x (by omega) (by omega) (by omega), h]
  | succ d =>
    intro k' hk'
    obtain ⟨h4, h5, h6⟩ := hk'
    push_cast at h1 h2 h3 ho
    rw [Frontier.at_put_ne x (by omega) (by omega) (by omega)]
    exact hf k' ⟨h4, h5, h6⟩

theorem phase_yields (limits : Budget) (offset : Int) (hit : Int → Int → Option (Nat × Nat))
    (hs : Compares same l r) (hstep : Yields E limits.step fun _ => True)
    (ho : (d : Int) + 1 ≤ offset) {f : Frontier} (hlen : offset + d + 1 < f.length)
    (hf : Prepared l r offset d f) :
    Yields E (phase limits l.length r.length same offset d hit (d + 1) (-d) f)
      (PhaseResult l r offset d f.length hit) := by
  -- `k` is the next diagonal; those below it are done and did not hit.
  suffices H : ∀ (fuel : Nat) (k : Int) (g : Frontier),
      k = (d : Int) + 2 - 2 * fuel → fuel ≤ d + 1 →
      g.length = f.length → Prepared l r offset d g →
      (∀ k', OnTurn d k' → k' < k → Entry l r d k' (g.at offset k') ∧
        (0 ≤ g.at offset k' → hit k' (g.at offset k') = none)) →
      Yields E (phase limits l.length r.length same offset d hit fuel k g)
        (PhaseResult l r offset d f.length hit) by
    refine H (d + 1) (-d) f (by push_cast; omega) le_rfl rfl hf fun k' hk' hlt => ?_
    exact absurd hk'.1 (by omega)
  intro fuel
  induction fuel with
  | zero =>
    intro k g hk hle hg hp hdone
    refine .pure ⟨hg, fun _ => ⟨fun k' hk' => ?_, fun k' hk' => ?_⟩, fun p hp => (by cases hp)⟩
    · exact (hdone k' hk' (by have := hk'.2.1; push_cast at hk; omega)).1
    · exact (hdone k' hk' (by have := hk'.2.1; push_cast at hk; omega)).2
  | succ fuel ih =>
    intro k g hk hle hg hp hdone
    have hon : OnTurn d k :=
      ⟨by push_cast at hk; omega, by push_cast at hk; omega, by push_cast at hk; omega⟩
    refine (diagonal_yields hs hstep hp hon).bind fun x hx => ?_
    have hself : (g.put offset k x).at offset k = x :=
      Frontier.at_put_self x (by omega) (by omega)
    simp only
    split
    · rename_i p hsome
      refine .pure ⟨by rw [Frontier.length_put, hg], fun h => (by cases h), fun q hq => ?_⟩
      cases hq
      split at hsome
      · exact ⟨k, x, hon, ‹_›, hx, hsome⟩
      · cases hsome
    · rename_i hnone
      refine ih (k + 2) _ (by push_cast at hk; omega) (by omega) (by rw [Frontier.length_put, hg])
        (hp.put hon ho) fun k' hk' hlt => ?_
      have h3 := hk'.1
      by_cases he : k' = k
      · subst he
        rw [hself]
        exact ⟨hx, fun h0 => by rwa [if_pos h0] at hnone⟩
      · rw [Frontier.at_put_ne x he (by omega) (by omega)]
        have := hk'.2.2
        exact hdone k' hk' (by omega)

end Phase

/-! ## The cut -/

/-- Points of a forward and a reverse search on one diagonal that have met: the forward one lies
on a script as short as both searches together. -/
theorem split_of_meet {l r : List Line} {d e : Nat} {k x v : Int} {a b : Nat}
    (hx : x = a) (hk : (a : Int) - b = k) (ha : a ≤ l.length) (hb : b ≤ r.length)
    (hc : cost l r a b ≤ d)
    (hv : ∃ a' b' : Nat, v = a' ∧ (a' : Int) - b' = (l.length : Int) - r.length - k ∧
      cost l.reverse r.reverse a' b' ≤ e)
    (hmeet : (l.length : Int) - v ≤ x) (hsum : d + e ≤ distance l r) :
    distance (l.take a) (r.take b) + distance (l.drop a) (r.drop b) = distance l r ∧
      distance (l.take a) (r.take b) ≤ d ∧ distance (l.drop a) (r.drop b) ≤ e := by
  obtain ⟨a', b', rfl, hk', hc'⟩ := hv
  obtain ⟨j, hj⟩ : ∃ j, a' = l.length - a + j := ⟨a' - (l.length - a), by omega⟩
  have hj' : b' = r.length - b + j := by omega
  have := cost_diag_mono (l := l.reverse) (r := r.reverse) (x := l.length - a) (y := r.length - b) j
  rw [← hj, ← hj'] at this
  refine ⟨split_of_costs ha hb (by omega), ?_, ?_⟩
  · rw [distance_take ha hb]
    exact hc
  · rw [distance_drop ha hb]
    omega

/-- Where a shortest script is split at cost `d`, both frontiers have passed its point, each on
its diagonal. -/
theorem meet_of_distance {l r : List Line} {d e : Nat} (hsum : d + e = distance l r)
    {offset : Int} {f g : Frontier} (hf : FrontierAt l r offset d f)
    (hg : FrontierAt l.reverse r.reverse offset e g) :
    ∃ k, OnTurn d k ∧ OnTurn e ((l.length : Int) - r.length - k) ∧ 0 ≤ f.at offset k ∧
      0 ≤ g.at offset ((l.length : Int) - r.length - k) ∧
      (l.length : Int) ≤ f.at offset k + g.at offset ((l.length : Int) - r.length - k) := by
  obtain ⟨x, y, hx, hy, hc, hc'⟩ := exists_split (l := l) (r := r) (e := d) (by omega)
  have hd := diff_le_cost (l := l) (r := r) (x := x) (y := y)
  have hd' := diff_le_cost (l := l.reverse) (r := r.reverse) (x := l.length - x) (y := r.length - y)
  have hp := cost_parity (l := l) (r := r) (x := x) (y := y)
  have hp' := cost_parity (l := l.reverse) (r := r.reverse) (x := l.length - x) (y := r.length - y)
  have hon : OnTurn d ((x : Int) - y) := ⟨by omega, by omega, by omega⟩
  have hon' : OnTurn e ((l.length : Int) - r.length - ((x : Int) - y)) :=
    ⟨by omega, by omega, by omega⟩
  obtain ⟨u, hu⟩ := exists_furthest (l := l) (r := r) hon.1 hon.2.1
  obtain ⟨w, hw⟩ := exists_furthest (l := l.reverse) (r := r.reverse) hon'.1 hon'.2.1
  have hui := furthest_inside hsum hx hy rfl (by omega) hu
  have hwi := furthest_inside (l := l.reverse) (r := r.reverse) (d := e) (e := d)
    (x := l.length - x) (y := r.length - y) (by rw [distance_reverse]; omega) (by simp) (by simp)
    (by push_cast [hx, hy]; omega)
    (by
      simp only [reverse_reverse, length_reverse]
      rw [show l.length - (l.length - x) = x by omega, show r.length - (r.length - y) = y by omega]
      omega) hw
  have hfu := (hf _ hon).furthest u hu hui.1 hui.2
  have hgw := (hg _ hon').furthest w hw hwi.1 hwi.2
  have h1 := hu.le_of_cost rfl (by omega : cost l r x y ≤ d)
  have h2 := hw.le_of_cost (a := l.length - x) (b := r.length - y) (by push_cast [hx, hy]; omega)
    (by omega)
  push_cast [hx] at h2
  exact ⟨_, hon, hon', by omega, by omega, by omega⟩

theorem lineAt_eq_iff {left right : List Line} {i j : Nat} (hi : i < left.length)
    (hj : j < right.length) : lineAt left i == lineAt right j ↔ Matches left right i j := by
  unfold lineAt Matches
  rw [getD_eq_getElem?_getD, getD_eq_getElem?_getD, getElem?_eq_getElem hi,
    getElem?_eq_getElem hj]
  simp only [Option.getD_some, beq_iff_eq, Option.some.injEq, exists_eq_left']
  exact eq_comm

theorem matches_slice {left right : List Line} {a a' b b' x y : Nat} (hx : x < a' - a)
    (hy : y < b' - b) :
    Matches (slice left a a') (slice right b b') x y ↔ Matches left right (a + x) (b + y) := by
  unfold Matches
  rw [getElem?_slice hx, getElem?_slice hy]

/-- The lines of a range. -/
structure Range.Within (r : Range) (left right : List Line) : Prop where
  left_le : r.a_ ≤ r.endA
  left_in : r.endA ≤ left.length
  right_le : r.b_ ≤ r.endB
  right_in : r.endB ≤ right.length

namespace Range

variable {left right : List Line} {r : Range}

def lefts (r : Range) (left : List Line) : List Line := slice left r.a_ r.endA

def rights (r : Range) (right : List Line) : List Line := slice right r.b_ r.endB

/-- The length of a shortest script for a range. -/
def distance (r : Range) (left right : List Line) : Nat :=
  EditGraph.distance (r.lefts left) (r.rights right)

theorem Within.length_lefts (h : r.Within left right) :
    (r.lefts left).length = r.endA - r.a_ := length_slice h.left_in

theorem Within.length_rights (h : r.Within left right) :
    (r.rights right).length = r.endB - r.b_ := length_slice h.right_in

theorem Within.compares (h : r.Within left right) :
    Compares (fun x y => lineAt left (r.a_ + x) == lineAt right (r.b_ + y)) (r.lefts left)
      (r.rights right) := by
  intro x y hx hy
  rw [h.length_lefts] at hx
  rw [h.length_rights] at hy
  have h1 := h.left_in
  have h2 := h.right_in
  rw [lineAt_eq_iff (by omega) (by omega)]
  exact (matches_slice hx hy).symm

theorem Within.compares_reverse (h : r.Within left right) :
    Compares (fun x y => lineAt left (r.endA - 1 - x) == lineAt right (r.endB - 1 - y))
      (r.lefts left).reverse (r.rights right).reverse := by
  intro x y hx hy
  rw [length_reverse, h.length_lefts] at hx
  rw [length_reverse, h.length_rights] at hy
  have h1 := h.left_in
  have h2 := h.right_in
  rw [lineAt_eq_iff (by omega) (by omega)]
  unfold Matches lefts rights
  rw [getElem?_reverse (by rw [length_slice h.left_in]; omega),
    getElem?_reverse (by rw [length_slice h.right_in]; omega), length_slice h.left_in,
    length_slice h.right_in, getElem?_slice (by omega), getElem?_slice (by omega),
    show r.a_ + (r.endA - r.a_ - 1 - x) = r.endA - 1 - x by omega,
    show r.b_ + (r.endB - r.b_ - 1 - y) = r.endB - 1 - y by omega]

/-- A point of the range on one of its shortest scripts. -/
def IsCut (r : Range) (left right : List Line) (p : Nat × Nat) : Prop :=
  r.a_ ≤ p.1 ∧ p.1 ≤ r.endA ∧ r.b_ ≤ p.2 ∧ p.2 ≤ r.endB ∧
  distance ⟨r.a_, p.1, r.b_, p.2⟩ left right + distance ⟨p.1, r.endA, p.2, r.endB⟩ left right =
    r.distance left right

/-- A cut in the middle of a shortest script. -/
structure IsMiddle (r : Range) (left right : List Line) (p : Nat × Nat) : Prop where
  cut : r.IsCut left right p
  front : 2 * distance ⟨r.a_, p.1, r.b_, p.2⟩ left right ≤ r.distance left right + 1
  back : 2 * distance ⟨p.1, r.endA, p.2, r.endB⟩ left right ≤ r.distance left right + 1

theorem Within.isMiddle (h : r.Within left right) {a b d e : Nat} (ha : a ≤ r.endA - r.a_)
    (hb : b ≤ r.endB - r.b_)
    (hd : EditGraph.distance ((r.lefts left).take a) ((r.rights right).take b) +
        EditGraph.distance ((r.lefts left).drop a) ((r.rights right).drop b) =
          r.distance left right ∧
      EditGraph.distance ((r.lefts left).take a) ((r.rights right).take b) ≤ d ∧
      EditGraph.distance ((r.lefts left).drop a) ((r.rights right).drop b) ≤ e)
    (hd2 : 2 * d ≤ r.distance left right + 1) (he2 : 2 * e ≤ r.distance left right + 1) :
    r.IsMiddle left right (r.a_ + a, r.b_ + b) := by
  have h1 := h.left_le
  have h2 := h.right_le
  unfold lefts rights at hd
  rw [take_slice ha, take_slice hb, drop_slice, drop_slice] at hd
  obtain ⟨hsum, hfront, hback⟩ := hd
  refine ⟨⟨by simp only; omega, by simp only; omega, by simp only; omega, by simp only; omega,
    hsum⟩, ?_, ?_⟩
  · exact (Nat.mul_le_mul_left 2 hfront).trans hd2
  · exact (Nat.mul_le_mul_left 2 hback).trans he2

end Range

/-- What the turns of `partition` before `d` did not cover. -/
def PartitionBound (l r : List Line) (d : Nat) : Prop :=
  (((l.length : Int) - r.length) % 2 ≠ 0 → 2 * d ≤ distance l r + 1) ∧
  (((l.length : Int) - r.length) % 2 = 0 → 2 * d ≤ distance l r)

theorem forwardHit_cut {left right : List Line} {r : Range} (h : r.Within left right) {d : Nat}
    {offset k x : Int} {reverse : Frontier} {p : Nat × Nat} (hon : OnTurn d k)
    (hx0 : 0 ≤ x) (hx : Entry (r.lefts left) (r.rights right) d k x)
    (hr : Prepared (r.lefts left).reverse (r.rights right).reverse offset d reverse)
    (hb : PartitionBound (r.lefts left) (r.rights right) d)
    (hit : forwardHit r (r.endA - r.a_ : Nat)
      ((r.endA - r.a_ : Nat) - (r.endB - r.b_ : Nat)) offset d reverse k x = some p) :
    r.IsMiddle left right p := by
  have hn := h.length_lefts
  have hm := h.length_rights
  simp only [forwardHit] at hit
  split at hit
  · rename_i hc
    obtain ⟨hodd, h1, h2, hv0, hmeet⟩ := hc
    cases hit
    obtain ⟨a, b, rfl, hk, ha, hb', hcost⟩ := hx.reached hx0
    cases d with
    | zero => push_cast at h1 h2; omega
    | succ e =>
      have hev := hr ((r.endA - r.a_ : Nat) - (r.endB - r.b_ : Nat) - k)
        ⟨by push_cast at h1; omega, by push_cast at h2; omega, by
          have := hon.2.2; push_cast at this; omega⟩
      obtain ⟨a', b', ha', hk', -, -, hcost'⟩ := hev.reached hv0
      have hsum := hb.1 (by rw [hn, hm]; exact hodd)
      rw [show ((a : Int)).toNat = a by omega, show ((a : Int) - k).toNat = b by omega]
      refine h.isMiddle (by omega) (by omega) (split_of_meet rfl hk ha hb' hcost
        ⟨a', b', ha', by rw [hn, hm]; exact hk', hcost'⟩ (by rw [hn]; exact hmeet) (by omega)) ?_ ?_
      · unfold Range.distance
        omega
      · unfold Range.distance
        omega
  · cases hit

theorem reverseHit_cut {left right : List Line} {r : Range} (h : r.Within left right) {d : Nat}
    {offset k x : Int} {forward : Frontier} {p : Nat × Nat} (hon : OnTurn d k)
    (hx0 : 0 ≤ x) (hx : Entry (r.lefts left).reverse (r.rights right).reverse d k x)
    (hf : FrontierAt (r.lefts left) (r.rights right) offset d forward)
    (hb : PartitionBound (r.lefts left) (r.rights right) d)
    (hit : reverseHit r (r.endA - r.a_ : Nat)
      ((r.endA - r.a_ : Nat) - (r.endB - r.b_ : Nat)) offset d forward k x = some p) :
    r.IsMiddle left right p := by
  have hn := h.length_lefts
  have hm := h.length_rights
  simp only [reverseHit] at hit
  split at hit
  · rename_i hc
    obtain ⟨heven, h1, h2, hv0, hmeet⟩ := hc
    cases hit
    obtain ⟨a', b', rfl, hk', -, -, hcost'⟩ := hx.reached hx0
    have hev := hf ((r.endA - r.a_ : Nat) - (r.endB - r.b_ : Nat) - k)
      ⟨h1, h2, by have := hon.2.2; omega⟩
    obtain ⟨a, b, ha, hk, hal, hbl, hcost⟩ := hev.reached hv0
    have hsum := hb.2 (by rw [hn, hm]; omega)
    rw [ha] at hmeet ⊢
    rw [show ((a : Int)).toNat = a by omega,
      show ((a : Int) - ((r.endA - r.a_ : Nat) - (r.endB - r.b_ : Nat) - k)).toNat = b by omega]
    have hle : 2 * d ≤ r.distance left right + 1 := by
      unfold Range.distance
      omega
    exact h.isMiddle (by omega) (by omega) (split_of_meet rfl hk hal hbl hcost
      ⟨a', b', rfl, by rw [hn, hm]; omega, hcost'⟩ (by rw [hn]; omega) (by omega)) hle hle
  · cases hit

/-- The search for the cut. It cannot run out of turns: two frontiers that have not met bound
the distance from below. -/
theorem partitionFrom_yields {left right : List Line} {r : Range} (h : r.Within left right)
    (hcheck : Yields E limits.check fun _ => True) (hstep : Yields E limits.step fun _ => True)
    {offset : Int} {maximum : Nat} (hmax : maximum = (r.endA - r.a_ + (r.endB - r.b_) + 1) / 2)
    (ho : offset = maximum + 1) (fuel d : Nat) (hfuel : fuel + d = maximum + 1)
    (forward reverse : Frontier) (hfl : forward.length = 2 * maximum + 3)
    (hrl : reverse.length = 2 * maximum + 3)
    (hf : Prepared (r.lefts left) (r.rights right) offset d forward)
    (hr : Prepared (r.lefts left).reverse (r.rights right).reverse offset d reverse)
    (hb : PartitionBound (r.lefts left) (r.rights right) d) :
    Yields E (partitionFrom limits left right r offset fuel d forward reverse)
      (r.IsMiddle left right) := by
  have hn := h.length_lefts
  have hm := h.length_rights
  have hD := distance_add_lcs (l := r.lefts left) (r := r.rights right)
  induction fuel generalizing d forward reverse with
  | zero =>
    exfalso
    obtain ⟨h1, h2⟩ := hb
    by_cases hodd : (((r.lefts left).length : Int) - (r.rights right).length) % 2 = 0
    · have := h2 hodd; omega
    · have := h1 hodd; omega
  | succ fuel ih =>
    rw [partitionFrom]
    refine hcheck.skip fun _ => ?_
    have hphase := phase_yields (E := E) (l := r.lefts left) (r := r.rights right) (d := d)
      (f := forward) limits offset (forwardHit r (r.endA - r.a_ : Nat)
        ((r.endA - r.a_ : Nat) - (r.endB - r.b_ : Nat)) offset d reverse)
      h.compares hstep (by omega) (by omega) hf
    rw [hn, hm] at hphase
    refine hphase.bind fun out hout => ?_
    obtain ⟨forward', met⟩ := out
    obtain ⟨hlen, hnone, hsome⟩ := hout
    simp only at hlen hnone hsome ⊢
    cases met with
    | some p =>
      obtain ⟨k, x, hon, hx0, hx, hit⟩ := hsome p rfl
      exact .pure (forwardHit_cut h hon hx0 hx hr hb hit)
    | none =>
      obtain ⟨hfd, hmiss⟩ := hnone rfl
      have hphase' := phase_yields (E := E) (l := (r.lefts left).reverse)
        (r := (r.rights right).reverse) (d := d) (f := reverse) limits offset
        (reverseHit r (r.endA - r.a_ : Nat) ((r.endA - r.a_ : Nat) - (r.endB - r.b_ : Nat))
          offset d forward')
        h.compares_reverse hstep (by omega) (by omega) hr
      rw [length_reverse, length_reverse, hn, hm] at hphase'
      refine hphase'.bind fun out hout => ?_
      obtain ⟨reverse', met'⟩ := out
      obtain ⟨hlen', hnone', hsome'⟩ := hout
      simp only at hlen' hnone' hsome' ⊢
      cases met' with
      | some p =>
        obtain ⟨k, x, hon, hx0, hx, hit⟩ := hsome' p rfl
        exact .pure (reverseHit_cut h hon hx0 hx hfd hb hit)
      | none =>
        obtain ⟨hrd, hmiss'⟩ := hnone' rfl
        refine ih (d + 1) (by omega) forward' reverse' (by omega) (by omega) hfd hrd ⟨?_, ?_⟩
        · -- Odd: a distance of `2d - 1` would have met in the forward loop.
          intro hodd
          have := hb.1 hodd
          by_contra hlt
          cases d with
          | zero => omega
          | succ e =>
            obtain ⟨k, hk, hk', h0, h0', hmeet⟩ :=
              meet_of_distance (d := e + 1) (e := e) (by omega) hfd hr
            have hmis := hmiss k hk h0
            rw [hn, hm] at hk' h0' hmeet
            obtain ⟨hk1, hk2, -⟩ := hk'
            unfold forwardHit at hmis
            rw [if_pos
              ⟨by rw [hn, hm] at hodd; exact hodd, by push_cast; omega, by push_cast; omega,
              h0', by omega⟩] at hmis
            cases hmis
        · -- Even: a distance of `2d` would have met in the reverse loop.
          intro heven
          have := hb.2 heven
          by_contra hlt
          obtain ⟨k, hk, hk', h0, h0', hmeet⟩ :=
            meet_of_distance (d := d) (e := d) (by omega) hfd hrd
          have hmis := hmiss' _ hk' h0'
          rw [hn, hm] at hmis h0' hmeet
          obtain ⟨hk1, hk2, -⟩ := hk
          have hopp : ((r.endA - r.a_ : Nat) : Int) - (r.endB - r.b_ : Nat) -
              (((r.endA - r.a_ : Nat) : Int) - (r.endB - r.b_ : Nat) - k) = k := by omega
          unfold reverseHit at hmis
          simp only [hopp] at hmis
          rw [if_pos ⟨by rw [hn, hm] at heven; omega, hk1, hk2, h0, by omega⟩] at hmis
          cases hmis

theorem partition_yields {left right : List Line} {r : Range} (h : r.Within left right)
    (hcheck : Yields E limits.check fun _ => True) (hstep : Yields E limits.step fun _ => True) :
    Yields E (partition limits left right r) (r.IsMiddle left right) := by
  have hat : ∀ maximum : Nat, Frontier.at (Frontier.put (replicate (2 * maximum + 3) (-1))
      ((maximum : Int) + 1) 1 0) (maximum + 1) 1 = 0 := fun maximum =>
    Frontier.at_put_self 0 (by omega) (by simp; omega)
  refine partitionFrom_yields h hcheck hstep rfl rfl _ 0 (by omega) _ _ ?_ ?_ (hat _) (hat _) ?_
  · simp [Frontier.length_put]
  · simp [Frontier.length_put]
  · exact ⟨fun _ => by omega, fun _ => by omega⟩

/-! ## The stack of ranges -/

theorem appendLines_yields (hstep : Yields E limits.step fun _ => True) {right : List Line}
    (count i : Nat) (out : Bytes) (h : i + count ≤ right.length) :
    Yields E (appendLines limits right count i out)
      fun bytes => bytes = out ++ append right i (i + count) := by
  induction count generalizing i out with
  | zero => exact .pure (by simp [append])
  | succ count ih =>
    refine hstep.skip fun _ => (ih (i + 1) _ (by omega)).weaken fun bytes hb => ?_
    have hi : right[i]? = some right[i] := getElem?_eq_getElem (by omega)
    rw [hb, append, append, slice_cons (a := i) (by omega) hi, lineAt, getD_eq_getElem?_getD, hi,
      show i + 1 + count = i + (count + 1) by omega]
    simp

/-- A range at the cursor becomes a new edit, or the newest edit grows by it. -/
theorem Built.close {ro : Bool} {left right : List Line} {edits : List Edit} {a b : Nat}
    (endA endB : Nat) (h : Built ro left right edits a b) (ha : a ≤ endA) (hb : b ≤ endB)
    (hne : ¬ (a = endA ∧ b = endB)) (ha' : endA ≤ left.length) (hb' : endB ≤ right.length) :
    Built ro left right (closeEdit (openEdit edits a b) endA endB
      ((openEdit edits a b).1.replacement ++ replacementOf ro right b endB)) endA endB ∧
    scriptSize (closeEdit (openEdit edits a b) endA endB
      ((openEdit edits a b).1.replacement ++ replacementOf ro right b endB)) =
        scriptSize edits + ((endA - a) + (endB - b)) := by
  by_cases hend : ∃ e older, edits = e :: older ∧ e.end_ = a ∧ e.otherEnd = b
  · obtain ⟨e, older, rfl, hend⟩ := hend
    have hopen : openEdit (e :: older) a b = (e, older) := if_neg (by omega)
    have hord := (h.forall_edit e (mem_cons_self ..)).1
    rw [hopen]
    refine ⟨h.widen hend ha hb ha' hb', ?_⟩
    simp only [closeEdit, scriptSize, map_cons, sum_cons, Edit.size]
    omega
  · have hgap : ∀ f ∈ edits.head?, ¬ (f.end_ = a ∧ f.otherEnd = b) := by
      intro f hf hfe
      cases edits with
      | nil => cases hf
      | cons g es => cases hf; exact hend ⟨f, es, rfl, hfe⟩
    have hopen : openEdit edits a b = (⟨a, a, b, b, []⟩, edits) := by
      cases edits with
      | nil => rfl
      | cons g es => exact if_pos (by have := hgap g rfl; omega)
    rw [hopen]
    refine ⟨h.push hgap ha hb (by omega) ha' hb', ?_⟩
    simp only [closeEdit, scriptSize, map_cons, sum_cons, Edit.size]
    omega

theorem emitRange_yields (hstep : Yields E limits.step fun _ => True) {left right : List Line}
    {edits : List Edit} {a b endA endB : Nat} (h : Built limits.rangesOnly left right edits a b)
    (ha : a ≤ endA) (hb : b ≤ endB) (ha' : endA ≤ left.length) (hb' : endB ≤ right.length) :
    Yields E (emitRange limits right edits a endA b endB) fun edits' =>
      Built limits.rangesOnly left right edits' endA endB ∧
      scriptSize edits' = scriptSize edits + ((endA - a) + (endB - b)) := by
  refine .ite (fun he => .pure ?_) fun hne => ?_
  · obtain ⟨rfl, rfl⟩ := he
    exact ⟨h, by omega⟩
  have hbytes : ∀ old : Bytes, Yields E (if limits.rangesOnly then pure old
      else appendLines limits right (endB - b) b old)
      fun bytes => bytes = old ++ replacementOf limits.rangesOnly right b endB := by
    intro old
    refine .ite (fun hro => .pure ?_) fun hro => ?_
    · simp [replacementOf, hro]
    · refine (appendLines_yields hstep _ _ _ (by omega)).weaken fun bytes hbs => ?_
      rw [hbs, replacementOf, if_neg hro, show b + (endB - b) = endB by omega]
  refine (hbytes _).bind fun bytes hbs => .pure ?_
  rw [hbs]
  exact h.close _ _ ha hb hne ha' hb'

theorem search_yields (hstep : Yields E limits.step fun _ => True) {found : Nat → Bool}
    (fuel i : Nat) :
    Yields E (search limits found fuel i) fun out =>
      (∀ j, out = some j → i ≤ j ∧ j < i + fuel ∧ found j) ∧
      (out = none → ∀ j, i ≤ j → j < i + fuel → ¬ found j) := by
  induction fuel generalizing i with
  | zero => exact .pure ⟨fun j hj => (by cases hj), fun _ j _ _ => by omega⟩
  | succ fuel ih =>
    refine hstep.skip fun _ => .ite (fun hf => .pure ?_) fun hf => ?_
    · exact ⟨fun j hj => (by cases hj; exact ⟨Nat.le_refl _, by omega, hf⟩), fun h => (by cases h)⟩
    · refine (ih (i + 1)).weaken ?_
      rintro out ⟨h1, h2⟩
      refine ⟨fun j hj => ?_, fun ho j hj hj' => ?_⟩
      · obtain ⟨h3, h4, h5⟩ := h1 j hj
        exact ⟨by omega, by omega, h5⟩
      · rcases Nat.eq_or_lt_of_le hj with rfl | hlt
        · exact hf
        · exact h2 ho j hlt (by omega)

namespace Range

variable {left right : List Line} {r : Range}

/-- Equal lines at the front of a range cost nothing. -/
theorem distance_trim_front {a b : Nat} (h : Same left right r.a_ r.b_ a b) (ha : a ≤ r.endA)
    (hb : b ≤ r.endB) :
    distance ⟨a, r.endA, b, r.endB⟩ left right = r.distance left right := by
  have hle := h.le
  have h1 : r.lefts left = slice left r.a_ a ++ slice left a r.endA := (slice_append hle.1 ha).symm
  have h2 : r.rights right = slice left r.a_ a ++ slice right b r.endB := by
    rw [h.slice_eq]; exact (slice_append hle.2.1 hb).symm
  have hd := distance_add_lcs (l := r.lefts left) (r := r.rights right)
  have hd' := distance_add_lcs (l := slice left a r.endA) (r := slice right b r.endB)
  rw [h1, h2, lcs_append_left_cancel] at hd
  rw [distance, distance, h1, h2]
  simp only [lefts, rights, length_append] at hd ⊢
  omega

/-- Equal lines at the back of a range cost nothing. -/
theorem distance_trim_back {a b : Nat} (h : Same left right a b r.endA r.endB) (ha : r.a_ ≤ a)
    (hb : r.b_ ≤ b) :
    distance ⟨r.a_, a, r.b_, b⟩ left right = r.distance left right := by
  have hle := h.le
  have h1 : r.lefts left = slice left r.a_ a ++ slice left a r.endA := (slice_append ha hle.1).symm
  have h2 : r.rights right = slice right r.b_ b ++ slice left a r.endA := by
    rw [h.slice_eq]; exact (slice_append hb hle.2.1).symm
  have hd := distance_add_lcs (l := r.lefts left) (r := r.rights right)
  have hd' := distance_add_lcs (l := slice left r.a_ a) (r := slice right r.b_ b)
  rw [h1, h2, lcs_append_right_cancel] at hd
  rw [distance, distance, h1, h2]
  simp only [lefts, rights, length_append] at hd ⊢
  omega

/-- The lines of a range on both sides. -/
def size (r : Range) : Nat := (r.endA - r.a_) + (r.endB - r.b_)

theorem Within.distance_add (h : r.Within left right) :
    r.distance left right + 2 * lcs (r.lefts left) (r.rights right) = r.size := by
  have := distance_add_lcs (l := r.lefts left) (r := r.rights right)
  rw [h.length_lefts, h.length_rights] at this
  exact this

/-- A range with no common line costs all its lines. -/
theorem Within.distance_of_disjoint (h : r.Within left right)
    (hd : ∀ i j, r.a_ ≤ i → i < r.endA → r.b_ ≤ j → j < r.endB → ¬ Matches left right i j) :
    r.distance left right = r.size := by
  have h0 : lcs (r.lefts left) (r.rights right) = 0 := by
    refine lcs_eq_zero fun x hx hx' => ?_
    obtain ⟨i, hi1, hi2, hi⟩ := mem_slice.mp hx
    obtain ⟨j, hj1, hj2, hj⟩ := mem_slice.mp hx'
    exact hd i j hi1 hi2 hj1 hj2 ⟨x, hi, hj⟩
  have := h.distance_add
  omega

/-- A range with one line on a side that the other side has as well. -/
theorem Within.distance_of_single (h : r.Within left right) {i j : Nat} (hi : r.a_ ≤ i)
    (hi' : i < r.endA) (hj : r.b_ ≤ j) (hj' : j < r.endB) (hm : Matches left right i j)
    (h1 : r.endA - r.a_ = 1 ∨ r.endB - r.b_ = 1) : r.distance left right + 2 = r.size := by
  obtain ⟨x, hx, hy⟩ := hm
  have hl : 1 ≤ lcs (r.lefts left) (r.rights right) := sublist_length_le_lcs _ _ [x]
    (singleton_sublist.mpr (mem_slice.mpr ⟨i, hi, hi', hx⟩))
    (singleton_sublist.mpr (mem_slice.mpr ⟨j, hj, hj', hy⟩))
  have h2 := lcs_le_left (r.lefts left) (r.rights right)
  have h3 := lcs_le_right (r.lefts left) (r.rights right)
  rw [h.length_lefts] at h2
  rw [h.length_rights] at h3
  have := h.distance_add
  omega

/-- Turns of the loop that a range can take. -/
def weight (r : Range) : Nat := max 1 (2 * r.size - 1)

theorem weight_le {r r' : Range} (h : r'.size ≤ r.size) : r'.weight ≤ r.weight := by
  unfold weight
  omega

/-- A range that is cut inside, at no corner, loses turns. -/
theorem weight_cut {r : Range} {a b : Nat} (h1 : r.a_ ≤ a) (h2 : a ≤ r.endA) (h3 : r.b_ ≤ b)
    (h4 : b ≤ r.endB) (hcorner : ¬((a = r.a_ ∧ b = r.b_) ∨ a = r.endA ∧ b = r.endB)) :
    weight ⟨r.a_, a, r.b_, b⟩ + weight ⟨a, r.endA, b, r.endB⟩ < r.weight := by
  have hsum : size ⟨r.a_, a, r.b_, b⟩ + size ⟨a, r.endA, b, r.endB⟩ = r.size := by
    simp only [size]
    omega
  have hfront : 0 < size ⟨r.a_, a, r.b_, b⟩ := by
    simp only [size]
    omega
  have hback : 0 < size ⟨a, r.endA, b, r.endB⟩ := by
    simp only [size]
    omega
  unfold weight
  omega

end Range

/-- What `trimRange` cuts off. -/
structure Trimmed (left right : List Line) (r r' : Range) : Prop where
  within : r'.Within left right
  front : Same left right r.a_ r.b_ r'.a_ r'.b_
  back : Same left right r'.endA r'.endB r.endA r.endB
  distance_eq : r'.distance left right = r.distance left right
  size_le : r'.size ≤ r.size
  first_ne : r'.a_ < r'.endA → r'.b_ < r'.endB → ¬ Matches left right r'.a_ r'.b_
  last_ne : r'.a_ < r'.endA → r'.b_ < r'.endB → ¬ Matches left right (r'.endA - 1) (r'.endB - 1)

theorem trimRange_yields (hstep : Yields E limits.step fun _ => True) {left right : List Line}
    {r : Range} (h : r.Within left right) :
    Yields E (trimRange limits left right r) (Trimmed left right r) := by
  obtain ⟨h1, h2, h3, h4⟩ := h
  refine (countWhile_yields hstep _ _).bind fun i hi => ?_
  obtain ⟨-, hi1, hi2, hi3⟩ := hi
  have hfront : Same left right r.a_ r.b_ (r.a_ + i) (r.b_ + i) ∧ r.a_ + i ≤ r.endA ∧
      r.b_ + i ≤ r.endB := by
    refine ⟨⟨i, rfl, rfl, fun t ht => ?_⟩, by omega, ?_⟩
    · have := hi2 t (Nat.zero_le _) ht
      simp only [Bool.and_eq_true, decide_eq_true_eq] at this
      exact (lineAt_eq_iff (by omega) (by omega)).mp this.2.2
    · rcases Nat.eq_zero_or_pos i with rfl | hpos
      · exact h3
      · have := hi2 (i - 1) (Nat.zero_le _) (by omega)
        simp only [Bool.and_eq_true, decide_eq_true_eq] at this
        omega
  refine (countWhile_yields hstep _ _).bind fun j hj => .pure ?_
  obtain ⟨-, hj1, hj2, hj3⟩ := hj
  simp only at hj1 hj2 hj3 ⊢
  have hlast : ∀ t < j, r.a_ + i < r.endA - t ∧ r.b_ + i < r.endB - t ∧
      Matches left right (r.endA - t - 1) (r.endB - t - 1) := by
    intro t ht
    have := hj2 t (Nat.zero_le _) ht
    simp only [Bool.and_eq_true, decide_eq_true_eq] at this
    exact ⟨this.1, this.2.1, (lineAt_eq_iff (by omega) (by omega)).mp this.2.2⟩
  have hle : r.a_ + i ≤ r.endA - j ∧ r.b_ + i ≤ r.endB - j ∧ j ≤ r.endA ∧ j ≤ r.endB := by
    rcases Nat.eq_zero_or_pos j with rfl | hpos
    · omega
    · have := hlast (j - 1) (by omega); omega
  have hback : Same left right (r.endA - j) (r.endB - j) r.endA r.endB := by
    refine ⟨j, by omega, by omega, fun t ht => ?_⟩
    have := (hlast (j - 1 - t) (by omega)).2.2
    rwa [show r.endA - (j - 1 - t) - 1 = r.endA - j + t by omega,
      show r.endB - (j - 1 - t) - 1 = r.endB - j + t by omega] at this
  refine ⟨⟨hle.1, by simp only; omega, hle.2.1, by simp only; omega⟩, hfront.1, hback, ?_, ?_,
    fun ha hb hm => ?_, fun ha hb hm => ?_⟩
  · have e1 := Range.distance_trim_front (r := r) hfront.1 hfront.2.1 hfront.2.2
    have e2 := Range.distance_trim_back (r := ⟨r.a_ + i, r.endA, r.b_ + i, r.endB⟩) hback hle.1
      hle.2.1
    exact e2.trans e1
  · simp only [Range.size]; omega
  · simp only at ha hb hm
    refine hi3 (by omega) ?_
    simp only [Bool.and_eq_true, decide_eq_true_eq]
    exact ⟨by omega, by omega, (lineAt_eq_iff (by omega) (by omega)).mpr hm⟩
  · simp only at ha hb hm
    refine hj3 (by omega) ?_
    simp only [Bool.and_eq_true, decide_eq_true_eq]
    exact ⟨ha, hb, (lineAt_eq_iff (by omega) (by omega)).mpr hm⟩

/-- The pending ranges, first one first, join the lines `(a, b)` to `(a', b')`, with equal lines
wherever a range lost its ends. -/
def Chained (left right : List Line) : Nat → Nat → List Range → Nat → Nat → Prop
  | a, b, [], a', b' => Same left right a b a' b'
  | a, b, r :: rs, a', b' =>
    Same left right a b r.a_ r.b_ ∧ r.Within left right ∧
      Chained left right r.endA r.endB rs a' b'

theorem Chained.front {left right : List Line} {a b c d a' b' : Nat} {rs : List Range}
    (h : Chained left right c d rs a' b') (hs : Same left right a b c d) :
    Chained left right a b rs a' b' := by
  cases rs with
  | nil => exact hs.trans h
  | cons r rs => exact ⟨hs.trans h.1, h.2⟩

/-- What the pending ranges still cost. -/
def pendingDistance (left right : List Line) (pending : List Range) : Nat :=
  (pending.map (·.distance left right)).sum

def pendingWeight (pending : List Range) : Nat := (pending.map Range.weight).sum

/-- What the loop returns: a script up to `(a', b')` that grew by the cost of the pending
ranges. -/
def Worked (ro : Bool) (left right : List Line) (a' b' : Nat) (size : Nat) (edits : List Edit) :
    Prop :=
  Built ro left right edits a' b' ∧ scriptSize edits = size

/-- `limits` can end the run, by itself and on purpose. -/
structure Interrupts (E : Failure → Prop) (limits : Budget) : Prop where
  outside : ∀ e, limits.Outside e → E e
  work : E ⟨"DiffWorkLimit"⟩

theorem Interrupts.check (h : Interrupts E limits) : Yields E limits.check fun _ => True :=
  Budget.check_yields h.outside

theorem Interrupts.step (h : Interrupts E limits) : Yields E limits.step fun _ => True :=
  Budget.step_yields h.outside h.work

theorem linearDiffFrom_yields (hi : Interrupts E limits) (hpart : E ⟨"DiffPartition"⟩)
    (hmem : E ⟨"DiffMemoryLimit"⟩) {left right : List Line} {a' b' : Nat} (fuel : Nat)
    (pending : List Range) (edits : List Edit) {a b : Nat}
    (h : Built limits.rangesOnly left right edits a b)
    (hc : Chained left right a b pending a' b') (hw : pendingWeight pending ≤ fuel) :
    Yields E (linearDiffFrom limits left right fuel pending edits)
      (Worked limits.rangesOnly left right a' b'
        (scriptSize edits + pendingDistance left right pending)) := by
  induction fuel generalizing pending edits a b with
  | zero =>
    rcases pending with _ | ⟨r, pending⟩
    · exact .pure ⟨h.keep_same hc, rfl⟩
    · exfalso
      simp only [pendingWeight, map_cons, sum_cons, Range.weight] at hw
      omega
  | succ fuel ih =>
    rcases pending with _ | ⟨r, pending⟩
    · exact .pure ⟨h.keep_same hc, rfl⟩
    obtain ⟨hfront, hr, hc⟩ := hc
    simp only [pendingWeight, map_cons, sum_cons, Range.weight] at hw
    rw [linearDiffFrom]
    refine hi.check.skip fun _ => (trimRange_yields hi.step hr).bind fun r' ht => ?_
    have hsize := ht.size_le
    have hdist := ht.distance_eq
    have hb := h.keep_same (hfront.trans ht.front)
    have hc' := hc.front ht.back
    obtain ⟨hw1, hw2, hw3, hw4⟩ := id ht.within
    -- A range that is emitted leaves the others.
    have hrest : ∀ edits', Built limits.rangesOnly left right edits' r'.endA r'.endB →
        scriptSize edits' = scriptSize edits + r.distance left right →
        Yields E (linearDiffFrom limits left right fuel pending edits')
          (Worked limits.rangesOnly left right a' b'
            (scriptSize edits + pendingDistance left right (r :: pending))) := by
      intro edits' h' hs'
      refine (ih pending edits' h' hc' ?_).weaken fun out ho => ⟨ho.1, ?_⟩
      · unfold pendingWeight; omega
      · rw [ho.2, hs', pendingDistance, pendingDistance, map_cons, sum_cons]; omega
    refine .ite (fun hempty => ?_) fun hempty => ?_
    · refine (emitRange_yields hi.step hb hw1 hw3 hw2 hw4).bind fun edits' he => ?_
      refine hrest _ he.1 ?_
      have := ht.within.distance_of_disjoint fun i j h1 h2 h3 h4 => by omega
      rw [he.2, ← hdist, this]; rfl
    refine .ite (fun hone => ?_) fun hone => ?_
    · refine (search_yields hi.step _ _).bind fun at? hat => ?_
      obtain ⟨hsome, hnone⟩ := hat
      cases at? with
      | none =>
        refine (emitRange_yields hi.step hb hw1 hw3 hw2 hw4).bind fun edits' he => ?_
        refine hrest _ he.1 ?_
        have := ht.within.distance_of_disjoint fun i j h1 h2 h3 h4 hm => by
          obtain rfl : i = r'.a_ := by omega
          exact hnone rfl j h3 (by omega) ((lineAt_eq_iff (by omega) (by omega)).mpr hm)
        rw [he.2, ← hdist, this]; rfl
      | some i =>
        obtain ⟨hi1, hi2, hi3⟩ := hsome i rfl
        have hm := (lineAt_eq_iff (by omega) (by omega)).mp hi3
        refine (emitRange_yields hi.step hb le_rfl hi1 (by omega) (by omega)).bind fun e1 he1 => ?_
        have hk := he1.1.keep hm
        rw [show r'.a_ + 1 = r'.endA by omega] at hk
        refine (emitRange_yields hi.step hk le_rfl (by omega) hw2 hw4).bind fun e2 he2 => ?_
        refine hrest _ he2.1 ?_
        have := ht.within.distance_of_single le_rfl (by omega) hi1 (by omega) hm (.inl hone)
        rw [he2.2, he1.2]
        simp only [Range.size] at this
        omega
    refine .ite (fun hone' => ?_) fun hone' => ?_
    · refine (search_yields hi.step _ _).bind fun at? hat => ?_
      obtain ⟨hsome, hnone⟩ := hat
      cases at? with
      | none =>
        refine (emitRange_yields hi.step hb hw1 hw3 hw2 hw4).bind fun edits' he => ?_
        refine hrest _ he.1 ?_
        have := ht.within.distance_of_disjoint fun i j h1 h2 h3 h4 hm => by
          obtain rfl : j = r'.b_ := by omega
          exact hnone rfl i h1 (by omega) ((lineAt_eq_iff (by omega) (by omega)).mpr hm)
        rw [he.2, ← hdist, this]; rfl
      | some i =>
        obtain ⟨hi1, hi2, hi3⟩ := hsome i rfl
        have hm := (lineAt_eq_iff (by omega) (by omega)).mp hi3
        refine (emitRange_yields hi.step hb hi1 le_rfl (by omega) (by omega)).bind fun e1 he1 => ?_
        have hk := he1.1.keep hm
        rw [show r'.b_ + 1 = r'.endB by omega] at hk
        refine (emitRange_yields hi.step hk (by omega) le_rfl hw2 hw4).bind fun e2 he2 => ?_
        refine hrest _ he2.1 ?_
        have := ht.within.distance_of_single hi1 (by omega) le_rfl (by omega) hm (.inr hone')
        rw [he2.2, he1.2]
        simp only [Range.size] at this
        omega
    refine (partition_yields ht.within hi.check hi.step).bind fun p hp => ?_
    obtain ⟨hp1, hp2, hp3, hp4, hsum⟩ := hp.cut
    refine (throwIf_yields fun _ => hpart).bind fun _ hcorner => ?_
    refine (throwIf_yields fun _ => hmem).bind fun _ _ => ?_
    have hweight : pendingWeight (⟨r'.a_, p.1, r'.b_, p.2⟩ ::
        ⟨p.1, r'.endA, p.2, r'.endB⟩ :: pending) ≤ fuel := by
      have hlt := (Range.weight_cut hp1 hp2 hp3 hp4 fun h =>
        hcorner (h.imp_right .inl)).trans_le (Range.weight_le hsize)
      change r.weight + (pending.map Range.weight).sum ≤ fuel + 1 at hw
      simp only [pendingWeight, map_cons, sum_cons]
      omega
    have hchain : Chained left right r'.a_ r'.b_ (⟨r'.a_, p.1, r'.b_, p.2⟩ ::
        ⟨p.1, r'.endA, p.2, r'.endB⟩ :: pending) a' b' :=
      ⟨Same.refl _ _, ⟨hp1, by simp only; omega, hp3, by simp only; omega⟩,
        Same.refl _ _, ⟨hp2, hw2, hp4, hw4⟩, hc'⟩
    refine (ih _ edits hb hchain hweight).weaken fun out ho => ⟨ho.1, ?_⟩
    rw [ho.2]
    simp only [pendingDistance, map_cons, sum_cons]
    omega

/-- `LinearDiff` between a common prefix and a common suffix: a canonical script of the least
size. The turns of its loop never run out. -/
theorem linearDiff_yields (hi : Interrupts E limits) (hrange : E ⟨"InvalidDiffRange"⟩)
    (hpart : E ⟨"DiffPartition"⟩) (hmem : E ⟨"DiffMemoryLimit"⟩) {left right : List Line}
    {pre suf : Nat} (hpre : Same left right 0 0 pre pre)
    (hsuf : Same left right (left.length - suf) (right.length - suf) left.length right.length) :
    Yields E (linearDiff limits left right pre suf) fun edits =>
      Built limits.rangesOnly left right edits.reverse left.length right.length ∧
      scriptSize edits =
        Range.distance ⟨pre, left.length - suf, pre, right.length - suf⟩ left right := by
  refine hi.check.skip fun _ => (throwIf_yields fun _ => hrange).bind fun _ hin => ?_
  refine (throwIf_yields fun _ => hmem).bind fun _ _ => ?_
  have hchain : Chained left right 0 0 [⟨pre, left.length - suf, pre, right.length - suf⟩]
      left.length right.length :=
    ⟨hpre, ⟨by simp only; omega, by simp only; omega, by simp only; omega, by simp only; omega⟩,
      hsuf⟩
  refine (linearDiffFrom_yields hi hpart hmem _ _ _ Built.start hchain ?_).bind fun edits h => ?_
  · simp only [pendingWeight, map_cons, map_nil, sum_cons, sum_nil, Range.weight,
      Range.size]
    omega
  refine hi.check.skip fun _ => .pure ⟨by rw [reverse_reverse]; exact h.1, ?_⟩
  have hs := h.2
  simp only [scriptSize, pendingDistance, map_cons, map_nil, sum_cons, sum_nil,
    Nat.add_zero, Nat.zero_add] at hs
  rw [scriptSize, map_reverse, sum_reverse, hs]

end Hc.Compare
