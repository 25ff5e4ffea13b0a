import HyperCommander.Compare.SparseDiff
import HyperCommander.Compare.LinearDiffLemmas
import HyperCommander.Lib.Patience
import Mathlib.Data.List.Sort

/-!
# What `SparseDiff` returns

* `matchesOf_yields`: the looked-up span of the sorted positions holds the matches of the left
  line, ascending.
* `ChainsOk`: after the left lines before `i`, and the matches of line `i` from position `t` on,
  the number of tails under `y` is the longest chain that ends before `y`.
* `sparseDiff_yields`: a result is a canonical script of the least size.
-/

namespace Hc.Compare

open List EditGraph Slice Patience Lcs

variable {E : Failure → Prop} {limits : Budget}

/-! ## Bisection and sorting -/

theorem lineLess_irrefl (s : Line) : lineLess s s = false := by
  induction s with
  | nil => rfl
  | cons a s ih => simp [lineLess, ih]

theorem lineLess_total (s t : Line) : lineLess s t ∨ s = t ∨ lineLess t s := by
  induction s generalizing t with
  | nil => cases t <;> simp [lineLess]
  | cons a s ih =>
    cases t with
    | nil => simp [lineLess]
    | cons b t =>
      simp only [lineLess, Bool.or_eq_true, decide_eq_true_eq, Bool.and_eq_true, beq_iff_eq,
        cons.injEq]
      have hab : a < b ∨ a = b ∨ b < a := by
        simp only [UInt8.lt_iff_toNat_lt, ← UInt8.toNat_inj]; omega
      rcases hab with h | h | h
      · exact .inl (.inl h)
      · rcases ih t with h' | h' | h'
        · exact .inl (.inr ⟨h, h'⟩)
        · exact .inr (.inl ⟨h, h'⟩)
        · exact .inr (.inr (.inr ⟨h.symm, h'⟩))
      · exact .inr (.inr (.inl h))

theorem lineLess_trans {s t u : Line} (h : lineLess s t) (h' : lineLess t u) : lineLess s u := by
  induction s generalizing t u with
  | nil => cases u <;> cases t <;> simp_all [lineLess]
  | cons a s ih =>
    cases t with
    | nil => simp [lineLess] at h
    | cons b t =>
      cases u with
      | nil => simp [lineLess] at h'
      | cons c u =>
        simp only [lineLess, Bool.or_eq_true, decide_eq_true_eq, Bool.and_eq_true,
          beq_iff_eq] at h h' ⊢
        rcases h with h | ⟨rfl, h⟩
        · rcases h' with h' | ⟨rfl, h'⟩
          · exact .inl (UInt8.lt_trans h h')
          · exact .inl h
        · rcases h' with h' | ⟨rfl, h'⟩
          · exact .inl h'
          · exact .inr ⟨rfl, ih h h'⟩

theorem orderLess_total (right : List Line) (pre A B : Nat) :
    orderLess right pre A B ∨ A = B ∨ orderLess right pre B A := by
  unfold orderLess
  by_cases h : lineAt right (pre + A) = lineAt right (pre + B)
  · simp only [h, ne_eq, not_true_eq_false, if_false, decide_eq_true_eq]
    omega
  · rw [if_pos h, if_pos (Ne.symm h)]
    rcases lineLess_total (lineAt right (pre + A)) (lineAt right (pre + B)) with h' | h' | h'
    · exact .inl h'
    · exact absurd h' h
    · exact .inr (.inr h')

theorem orderLess_trans {right : List Line} {pre A B C : Nat} (h : orderLess right pre A B)
    (h' : orderLess right pre B C) : orderLess right pre A C := by
  unfold orderLess at h h' ⊢
  by_cases h1 : lineAt right (pre + A) = lineAt right (pre + B)
  · by_cases h2 : lineAt right (pre + B) = lineAt right (pre + C)
    · simp only [h1, h2, ne_eq, not_true_eq_false, if_false, decide_eq_true_eq] at h h' ⊢
      omega
    · rw [if_pos h2] at h'
      rw [if_pos (by rw [h1]; exact h2), h1]
      exact h'
  · rw [if_pos h1] at h
    by_cases h2 : lineAt right (pre + B) = lineAt right (pre + C)
    · rw [if_pos (by rw [← h2]; exact h1), ← h2]
      exact h
    · rw [if_pos h2] at h'
      have := lineLess_trans h h'
      rw [if_pos fun e => by rw [e, lineLess_irrefl] at this; cases this]
      exact this

theorem orderLess_irrefl {right : List Line} {pre A : Nat} : orderLess right pre A A = false := by
  simp [orderLess]

theorem sortOrder_perm (right : List Line) (pre m : Nat) :
    (sortOrder right pre m).Perm (List.range m) := mergeSort_perm _ _

theorem sortOrder_pairwise (right : List Line) (pre m : Nat) :
    (sortOrder right pre m).Pairwise fun A B => orderLess right pre A B := by
  have hle : (sortOrder right pre m).Pairwise fun A B => !orderLess right pre B A := by
    refine pairwise_mergeSort (fun a b c h1 h2 => ?_) (fun a b => ?_) _
    · simp only [Bool.not_eq_true'] at h1 h2 ⊢
      by_contra hca
      rcases orderLess_total right pre a b with h | rfl | h
      · have := orderLess_trans (by simpa using hca) h
        rw [this] at h2; cases h2
      · rw [h2] at hca; exact hca rfl
      · rw [h] at h1; cases h1
    · simp only [Bool.or_eq_true, Bool.not_eq_true']
      by_contra hab
      simp only [not_or, Bool.not_eq_false] at hab
      have := orderLess_trans hab.1 hab.2
      rw [orderLess_irrefl] at this; cases this
  have hnd : (sortOrder right pre m).Nodup :=
    (sortOrder_perm right pre m).nodup_iff.mpr nodup_range
  refine (hle.and hnd).imp fun {A B} h => ?_
  obtain ⟨h1, h2⟩ := h
  rcases orderLess_total right pre A B with h | h | h
  · exact h
  · exact absurd h h2
  · rw [h] at h1; cases h1

theorem lowerBound_yields (hstep : Yields E limits.step fun _ => True) {before : Nat → Bool}
    (fuel first count : Nat) (hf : count ≤ fuel)
    (hmono : ∀ j k, first ≤ j → j < k → k < first + count → before k → before j) :
    Yields E (lowerBound limits before fuel first count) fun i =>
      first ≤ i ∧ i ≤ first + count ∧ (∀ j, first ≤ j → j < i → before j) ∧
      ∀ j, i ≤ j → j < first + count → ¬ before j := by
  induction fuel generalizing first count with
  | zero =>
    refine .pure ⟨le_rfl, by omega, fun j h1 h2 => by omega, fun j h1 h2 => by omega⟩
  | succ fuel ih =>
    rw [lowerBound]
    refine .ite (fun h0 => .pure ?_) fun h0 => hstep.skip fun _ => ?_
    · exact ⟨le_rfl, by omega, fun j h1 h2 => by omega, fun j h1 h2 => by omega⟩
    refine .ite (fun hb => ?_) fun hb => ?_
    · refine (ih _ _ (by omega) fun j k h1 h2 h3 => hmono j k (by omega) h2 (by omega)).weaken ?_
      rintro i ⟨h1, h2, h3, h4⟩
      refine ⟨by omega, by omega, fun j hj hji => ?_, fun j hj hjc => h4 j hj (by omega)⟩
      rcases Nat.lt_or_ge j (first + count / 2 + 1) with hlt | hge
      · rcases Nat.eq_or_lt_of_le (Nat.lt_succ_iff.mp hlt) with rfl | hlt
        · exact hb
        · exact hmono j _ hj hlt (by omega) hb
      · exact h3 j hge hji
    · refine (ih _ _ (by omega) fun j k h1 h2 h3 => hmono j k h1 h2 (by omega)).weaken ?_
      rintro i ⟨h1, h2, h3, h4⟩
      refine ⟨by omega, by omega, h3, fun j hj hjc => ?_⟩
      rcases Nat.lt_or_ge j (first + count / 2) with hlt | hge
      · exact h4 j hj hlt
      · rcases Nat.eq_or_lt_of_le hge with rfl | hgt
        · exact hb
        · exact fun hbj => hb (hmono _ j (by omega) hgt hjc hbj)

theorem stepMany_yields (hstep : Yields E limits.step fun _ => True) (count : Nat) :
    Yields E (stepMany limits count) fun _ => True := by
  induction count with
  | zero => exact .pure trivial
  | succ count ih => exact hstep.skip fun _ => ih

/-- The looked-up span: the positions of the matches of a left line, ascending. -/
structure IsSpan (right : List Line) (pre m : Nat) (text : Line) (span : List Nat) : Prop where
  ascending : span.Pairwise (· < ·)
  mem_iff : ∀ b, b ∈ span ↔ b < m ∧ lineAt right (pre + b) = text

theorem matchesOf_yields (hstep : Yields E limits.step fun _ => True) (left right : List Line)
    (pre m A : Nat) :
    Yields E (matchesOf limits left right pre (sortOrder right pre m) A) fun p =>
      IsSpan right pre m (lineAt left (pre + A)) (slice (sortOrder right pre m) p.1 p.2) := by
  generalize hord : sortOrder right pre m = order
  generalize htext : lineAt left (pre + A) = text
  have hsorted : order.Pairwise fun A B => orderLess right pre A B :=
    hord ▸ sortOrder_pairwise right pre m
  have hmem : ∀ b, b ∈ order ↔ b < m := fun b => by
    rw [← hord, (sortOrder_perm right pre m).mem_iff, mem_range]
  -- Along `order` the texts do not fall.
  have htexts : ∀ j k, j < k → k < order.length →
      lineLess (lineAt right (pre + order.getD j 0)) (lineAt right (pre + order.getD k 0)) ∨
      lineAt right (pre + order.getD j 0) = lineAt right (pre + order.getD k 0) := by
    intro j k hjk hk
    have h := pairwise_iff_getElem.mp hsorted j k (by omega) hk hjk
    rw [getD_eq_getElem _ _ (by omega), getD_eq_getElem _ _ hk]
    unfold orderLess at h
    by_cases he : lineAt right (pre + order[j]) = lineAt right (pre + order[k])
    · exact .inr he
    · rw [if_pos he] at h; exact .inl h
  unfold matchesOf
  rw [htext]
  refine (lowerBound_yields hstep _ _ _ le_rfl fun j k _ hjk hk hb => ?_).bind
    fun first hfirst => ?_
  · rcases htexts j k hjk (by omega) with h | h
    · exact lineLess_trans h hb
    · rw [h]; exact hb
  refine (lowerBound_yields hstep _ _ _ le_rfl fun j k _ hjk hk hb => ?_).bind fun last hlast =>
    .pure ?_
  · simp only [Bool.not_eq_true'] at hb ⊢
    rcases htexts j k hjk (by omega) with h | h
    · by_contra hc
      have := lineLess_trans (by simpa using hc) h
      rw [hb] at this; cases this
    · rw [h]; exact hb
  obtain ⟨-, hf1, hf2, hf3⟩ := hfirst
  obtain ⟨hl0, hl1, hl2, hl3⟩ := hlast
  simp only [Bool.not_eq_true', Bool.not_eq_false] at hl2 hl3
  have hequal : ∀ k, first ≤ k → k < last → lineAt right (pre + order.getD k 0) = text := by
    intro k h1 h2
    rcases lineLess_total (lineAt right (pre + order.getD k 0)) text with h | h | h
    · exact absurd h (hf3 k h1 (by omega))
    · exact h
    · have := hl2 k h1 h2; rw [h] at this; cases this
  refine ⟨?_, fun b => ?_⟩
  · have hsub := (hsorted.sublist ((take_sublist (last - first) _).trans
      (drop_sublist first order)))
    refine List.Pairwise.imp_of_mem (fun {A B} hA hB h => ?_) hsub
    obtain ⟨i, hi1, hi2, hi⟩ := mem_slice.mp hA
    obtain ⟨j, hj1, hj2, hj⟩ := mem_slice.mp hB
    have e1 := hequal i hi1 hi2
    have e2 := hequal j hj1 hj2
    rw [getD_eq_getElem?_getD, hi, Option.getD_some] at e1
    rw [getD_eq_getElem?_getD, hj, Option.getD_some] at e2
    unfold orderLess at h
    rw [e1, e2] at h
    simpa using h
  · rw [mem_slice]
    constructor
    · rintro ⟨k, hk1, hk2, hk⟩
      refine ⟨(hmem b).mp (mem_of_getElem? hk), ?_⟩
      have := hequal k hk1 hk2
      rwa [getD_eq_getElem?_getD, hk, Option.getD_some] at this
    · rintro ⟨hbm, hb⟩
      obtain ⟨k, hk⟩ := mem_iff_getElem?.mp ((hmem b).mpr hbm)
      have hklt := (List.getElem?_eq_some_iff.mp hk).1
      have hkD : order.getD k 0 = b := by rw [getD_eq_getElem?_getD, hk, Option.getD_some]
      refine ⟨k, ?_, ?_, hk⟩
      · by_contra hlt
        have := hf2 k (Nat.zero_le _) (by omega)
        rw [hkD, hb, lineLess_irrefl] at this; cases this
      · by_contra hge
        have := hl3 k (by omega) (by omega)
        rw [hkD, hb, lineLess_irrefl] at this; cases this

/-! ## The chains -/

/-- The matches from a node back along `previous_`, which fall on both sides. -/
inductive Linked (l r : List Line) (nodes : List Node) : Option Nat → List (Nat × Nat) → Prop
  | stop : Linked l r nodes none []
  | step {t node rest} (hn : nodes[t]? = some node) (hm : Matches l r node.a_ node.b_)
    (h : Linked l r nodes node.previous_ rest)
    (hlt : ∀ p ∈ rest.head?, p.1 < node.a_ ∧ p.2 < node.b_) :
    Linked l r nodes (some t) ((node.a_, node.b_) :: rest)

theorem Linked.mono {l r : List Line} {nodes : List Node} {t : Option Nat} {ps : List (Nat × Nat)}
    (h : Linked l r nodes t ps) (more : List Node) : Linked l r (nodes ++ more) t ps := by
  induction h with
  | stop => exact .stop
  | step hn hm h hlt ih =>
    exact .step (by rw [List.getElem?_append_left (List.getElem?_eq_some_iff.mp hn).1, hn])
      hm ih hlt

theorem Linked.head {l r : List Line} {c : Chains} {t a b : Nat} {rest : List (Nat × Nat)}
    (h : Linked l r c.nodes (some t) ((a, b) :: rest)) :
    c.b t = b ∧ t < c.nodes.length ∧ Matches l r a b := by
  generalize ht : some t = o at h
  generalize hp : (a, b) :: rest = ps at h
  cases h with
  | stop => cases ht
  | step hn hm h hlt =>
    cases ht
    cases hp
    exact ⟨by simp [Chains.b, hn], (List.getElem?_eq_some_iff.mp hn).1, hm⟩

/-- The last right positions of the best chains. -/
def Chains.values (c : Chains) : List Nat := c.tails.map c.b

/-- The chains while line `i` is worked on: its matches from position `t` on are in. -/
structure ChainsOk (l r : List Line) (i t : Nat) (c : Chains) : Prop where
  sorted : c.values.Pairwise (· < ·)
  linked : ∀ j (hj : j < c.tails.length), ∃ a b rest,
    Linked l r c.nodes (some c.tails[j]) ((a, b) :: rest) ∧ rest.length = j ∧
      (a < i ∨ (a = i ∧ t ≤ b))
  atLeast : ∀ y, common l r i y ≤ below c.values y
  atMost : ∀ y, below c.values y ≤ common l r (i + 1) y
  untouched : ∀ y ≤ t, below c.values y = common l r i y
  counted : ∀ b y, t ≤ b → b < y → Matches l r i b → common l r i b + 1 ≤ below c.values y

/-- The chains between two lines. -/
structure Settled (l r : List Line) (i : Nat) (c : Chains) : Prop where
  sorted : c.values.Pairwise (· < ·)
  linked : ∀ j (hj : j < c.tails.length), ∃ a b rest,
    Linked l r c.nodes (some c.tails[j]) ((a, b) :: rest) ∧ rest.length = j ∧ a < i
  below_eq : ∀ y, below c.values y = common l r i y

section Chains

variable {l r : List Line} {i t b : Nat} {c : Chains}

theorem Settled.start : Settled l r 0 {} where
  sorted := List.Pairwise.nil
  linked j hj := absurd hj (by simp)
  below_eq y := by simp [Chains.values, below, common]

theorem Settled.open (h : Settled l r i c) (ht : r.length ≤ t) : ChainsOk l r i t c where
  sorted := h.sorted
  linked j hj := by
    obtain ⟨a, b, rest, h1, h2, h3⟩ := h.linked j hj
    exact ⟨a, b, rest, h1, h2, .inl h3⟩
  atLeast y := (h.below_eq y).ge
  atMost y := (h.below_eq y).le.trans common_succ_left.1
  untouched y _ := h.below_eq y
  counted b y hb _ hm := absurd hm.lt.2 (by omega)

/-- Once all matches of a line are in, the tails count for the next line. -/
theorem ChainsOk.settled (h : ChainsOk l r i 0 c) : Settled l r (i + 1) c where
  sorted := h.sorted
  linked j hj := by
    obtain ⟨a, b, rest, h1, h2, h3⟩ := h.linked j hj
    exact ⟨a, b, rest, h1, h2, by omega⟩
  below_eq y := by
    refine le_antisymm (h.atMost y) ?_
    induction y with
    | zero => exact (common_le (x := i + 1) (y := 0)).2.trans (Nat.zero_le _)
    | succ y ih =>
      by_cases hm : Matches l r i y
      · rw [common_match hm]
        exact h.counted y (y + 1) (Nat.zero_le _) (by omega) hm
      · rw [common_of_not_matches hm]
        exact max_le (h.atLeast (y + 1)) (ih.trans (below_mono (by omega)))

theorem Chains.values_insert (hn : ∀ x ∈ c.tails, x < c.nodes.length)
    (hs : c.values.Pairwise (· < ·)) :
    (c.insert i b (below c.values b)).values = place c.values b := by
  have hold : ∀ x, x < c.nodes.length → (c.insert i b (below c.values b)).b x = c.b x := by
    intro x hx
    simp only [Chains.b, Chains.insert]
    rw [getElem?_append_left hx]
  have hnew : (c.insert i b (below c.values b)).b c.nodes.length = b := by
    simp [Chains.b, Chains.insert]
  have hmap : c.tails.map (c.insert i b (below c.values b)).b = c.values :=
    map_congr_left fun x hx => hold x (hn x hx)
  rw [← place_eq_set hs, Chains.values,
    show (c.insert i b (below c.values b)).tails = if below c.values b = c.tails.length then
      c.tails ++ [c.nodes.length] else c.tails.set (below c.values b) c.nodes.length from rfl,
    show c.values.length = c.tails.length from length_map _]
  split
  · rw [map_append, hmap, map_singleton, hnew]
  · rw [map_set, hmap, hnew]

/-- A further match of the line at hand, the last one under `t`. -/
theorem ChainsOk.insert (h : ChainsOk l r i t c) (hb : b < t) (hm : Matches l r i b)
    (hgap : ∀ y, b < y → y < t → ¬ Matches l r i y) :
    ChainsOk l r i b (c.insert i b (below c.values b)) := by
  have hindex : below c.values b = common l r i b := h.untouched b hb.le
  have hlen : below c.values b ≤ c.tails.length := by
    have := countP_le_length (p := fun x => decide (x < b)) (l := c.values)
    rwa [show c.values.length = c.tails.length from length_map _] at this
  have hnodes : ∀ x ∈ c.tails, x < c.nodes.length := by
    intro x hx
    obtain ⟨j, hj, rfl⟩ := mem_iff_getElem.mp hx
    obtain ⟨_, _, _, h1, -⟩ := h.linked j hj
    exact h1.head.2.1
  have hvals := Chains.values_insert (i := i) (b := b) hnodes h.sorted
  have hbelow : ∀ y, below (c.insert i b (below c.values b)).values y =
      if b < y then max (below c.values y) (common l r i b + 1) else below c.values y := by
    intro y
    rw [hvals, below_place h.sorted, hindex]
  refine ⟨by rw [hvals]; exact pairwise_place h.sorted, ?_, fun y => ?_, fun y => ?_,
    fun y hy => ?_, fun b' y hb' hy hm' => ?_⟩
  · -- The chain of the new node, and the old ones.
    intro j hj
    have hnewchain : ∃ rest, Linked l r (c.insert i b (below c.values b)).nodes
        (some c.nodes.length) ((i, b) :: rest) ∧ rest.length = below c.values b := by
      have hget : (c.insert i b (below c.values b)).nodes[c.nodes.length]? = some
          ⟨i, b, if below c.values b = 0 then none else c.tails[below c.values b - 1]?⟩ := by
        simp [Chains.insert]
      by_cases h0 : below c.values b = 0
      · refine ⟨[], .step hget hm ?_ (fun p hp => by cases hp), h0.symm⟩
        rw [if_pos h0]; exact .stop
      · have hlt : below c.values b - 1 < c.tails.length := by omega
        obtain ⟨a', b', rest, h1, h2, h3⟩ := h.linked _ hlt
        refine ⟨(a', b') :: rest, .step hget hm ?_ ?_, by simp only [length_cons]; omega⟩
        · rw [if_neg h0, getElem?_eq_getElem hlt]
          exact h1.mono _
        · intro p hp
          cases hp
          have hval := getElem_lt_of_lt_below (j := below c.values b - 1) (y := b) h.sorted
            (by rw [Chains.values, length_map]; exact hlt) (by omega)
          simp only [Chains.values, getElem_map] at hval
          have hb' := h1.head.1
          simp only [Chains.values] at hb'
          rw [hb'] at hval
          exact ⟨show a' < i by omega, hval⟩
    have hold : ∀ (hj : j < c.tails.length), ∃ a b' rest,
        Linked l r (c.insert i b (below c.values b)).nodes (some c.tails[j]) ((a, b') :: rest) ∧
          rest.length = j ∧ (a < i ∨ (a = i ∧ b ≤ b')) := by
      intro hj
      obtain ⟨a, b', rest, h1, h2, h3⟩ := h.linked j hj
      exact ⟨a, b', rest, h1.mono _, h2, by omega⟩
    obtain ⟨rest, hr1, hr2⟩ := hnewchain
    have htails : (c.insert i b (below c.values b)).tails = if below c.values b = c.tails.length
      then c.tails ++ [c.nodes.length] else c.tails.set (below c.values b) c.nodes.length := rfl
    by_cases hnew : j = below c.values b
    · refine ⟨i, b, rest, ?_, by omega, .inr ⟨rfl, le_rfl⟩⟩
      have : (c.insert i b (below c.values b)).tails[j] = c.nodes.length := by
        simp only [htails]
        split
        · rw [getElem_append_right (by omega)]; simp
        · subst hnew; rw [getElem_set_self]
      rw [this]; exact hr1
    · have hjold : j < c.tails.length := by
        rw [htails] at hj
        split at hj
        · rw [length_append, length_singleton] at hj; omega
        · rwa [length_set] at hj
      have : (c.insert i b (below c.values b)).tails[j] = c.tails[j] := by
        simp only [htails]
        split
        · rw [getElem_append_left]
        · rw [getElem_set_ne (Ne.symm hnew)]
      rw [this]; exact hold hjold
  · have := h.atLeast y
    rw [hbelow]; split <;> omega
  · have := h.atMost y
    rw [hbelow]
    split
    · rename_i hy
      have h1 := common_match hm
      have h2 : common l r (i + 1) (b + 1) ≤ common l r (i + 1) y :=
        lcs_mono (List.Sublist.refl _) (take_sublist_take_left (by omega))
      omega
    · exact this
  · rw [hbelow, if_neg (by omega)]
    exact h.untouched y (by omega)
  · rw [hbelow, if_pos (by omega)]
    rcases Nat.eq_or_lt_of_le hb' with rfl | hlt
    · exact le_max_right _ _
    · rcases Nat.lt_or_ge b' t with hbt | hbt
      · exact absurd hm' (hgap b' hlt hbt)
      · exact (h.counted b' y hbt hy hm').trans (le_max_left _ _)

end Chains

/-! ## The loops -/

section Loops

variable {l r : List Line}

theorem insertMatches_yields (hstep : Yields E limits.step fun _ => True) {i : Nat}
    (bs : List Nat) {t : Nat} {c : Chains} (h : ChainsOk l r i t c)
    (hdesc : bs.Pairwise (· > ·)) (hmem : ∀ b, b ∈ bs ↔ b < t ∧ Matches l r i b) :
    Yields E (insertMatches limits i bs c) fun c' => ChainsOk l r i 0 c' := by
  induction bs generalizing t c with
  | nil =>
    refine .pure ⟨h.sorted, fun j hj => ?_, h.atLeast, h.atMost, fun y hy => ?_, ?_⟩
    · obtain ⟨a, b, rest, h1, h2, h3⟩ := h.linked j hj
      exact ⟨a, b, rest, h1, h2, by omega⟩
    · exact h.untouched y (by omega)
    · intro b y _ hy hm
      rcases Nat.lt_or_ge b t with hlt | hge
      · exact absurd ((hmem b).mpr ⟨hlt, hm⟩) (by simp)
      · exact h.counted b y hge hy hm
  | cons b bs ih =>
    obtain ⟨hb1, hb2⟩ := pairwise_cons.mp hdesc
    obtain ⟨hbt, hbm⟩ := (hmem b).mp (mem_cons_self ..)
    have hvals : ∀ j (hj : j < c.tails.length), c.b (c.tails.getD j 0) = c.values.getD j 0 := by
      intro j hj
      rw [getD_eq_getElem _ _ hj, getD_eq_getElem _ _ (by simpa [Chains.values] using hj)]
      simp [Chains.values]
    have hlen : c.values.length = c.tails.length := length_map _
    refine hstep.skip fun _ => ?_
    refine (lowerBound_yields hstep _ _ _ le_rfl fun j k _ hjk hk hb => ?_).bind fun index hi => ?_
    · simp only [decide_eq_true_eq] at hb ⊢
      rw [hvals k (by omega), getD_eq_getElem _ _ (by omega)] at hb
      rw [hvals j (by omega), getD_eq_getElem _ _ (by omega)]
      have := pairwise_iff_getElem.mp h.sorted j k (by omega) (by omega) hjk
      omega
    obtain ⟨-, hi1, hi2, hi3⟩ := hi
    have hindex : index = below c.values b := by
      refine (below_eq_of_split index (by omega) (fun j hj hlt => ?_) fun j hj hge => ?_).symm
      · have := hi2 j (Nat.zero_le _) hlt
        rw [hvals j (by omega), getD_eq_getElem _ _ hj] at this
        simpa using this
      · have := hi3 j hge (by omega)
        rw [hvals j (by omega), getD_eq_getElem _ _ hj] at this
        simpa using this
    rw [hindex]
    refine ih (h.insert hbt hbm fun y hy hyt hm => ?_) hb2 fun y => ?_
    · -- A match between would stand before `b` in the list.
      rcases mem_cons.mp ((hmem y).mpr ⟨hyt, hm⟩) with rfl | hy'
      · omega
      · exact absurd (hb1 y hy') (by omega)
    · constructor
      · intro hy
        exact ⟨hb1 y hy, ((hmem y).mp (mem_cons_of_mem _ hy)).2⟩
      · rintro ⟨hyb, hm⟩
        rcases mem_cons.mp ((hmem y).mpr ⟨by omega, hm⟩) with rfl | hy'
        · omega
        · exact hy'

theorem countMatches_yields (hstep : Yields E limits.step fun _ => True) (left right : List Line)
    (pre m maximum : Nat) (fuel i count : Nat) :
    Yields E (countMatches limits left right pre (sortOrder right pre m) maximum fuel i count)
      fun _ => True := by
  induction fuel generalizing i count with
  | zero => exact .pure trivial
  | succ fuel ih =>
    refine hstep.skip fun _ => (matchesOf_yields hstep left right pre m i).bind fun p _ => ?_
    exact .ite (fun _ => .pure trivial) fun _ => ih _ _

theorem collect_yields (hstep : Yields E limits.step fun _ => True) {nodes : List Node}
    {t : Option Nat} {ps : List (Nat × Nat)} (h : Linked l r nodes t ps) {fuel : Nat}
    (hf : ps.length ≤ fuel) : Yields E (collect limits nodes fuel t) fun out => out = ps := by
  induction h generalizing fuel with
  | stop => cases fuel <;> exact .pure rfl
  | @step t node rest hn hm h hlt ih =>
    cases fuel with
    | zero => simp at hf
    | succ fuel =>
      refine hstep.skip fun _ => ?_
      have hget : nodes.getD t ⟨0, 0, none⟩ = node := by
        rw [getD_eq_getElem?_getD, hn, Option.getD_some]
      rw [hget]
      refine (ih (by simpa using hf)).bind fun out ho => .pure ?_
      rw [ho]

end Loops

/-- Matches in order, from the lines `(a, b)` on. -/
def Anchors (l r : List Line) : List (Nat × Nat) → Nat → Nat → Prop
  | [], _, _ => True
  | p :: ps, a, b => a ≤ p.1 ∧ b ≤ p.2 ∧ Matches l r p.1 p.2 ∧ Anchors l r ps (p.1 + 1) (p.2 + 1)

theorem Linked.anchors {l r : List Line} {nodes : List Node} {t : Option Nat}
    {ps : List (Nat × Nat)} (h : Linked l r nodes t ps) (later : List (Nat × Nat))
    (hl : ∀ p ∈ ps.head?, Anchors l r later (p.1 + 1) (p.2 + 1))
    (hl0 : ps = [] → Anchors l r later 0 0) : Anchors l r (ps.reverse ++ later) 0 0 := by
  induction h generalizing later with
  | stop => exact hl0 rfl
  | @step t node rest hn hm h hlt ih =>
    rw [reverse_cons, append_assoc]
    refine ih _ (fun p hp => ?_) fun _ => ⟨Nat.zero_le _, Nat.zero_le _, hm, hl _ rfl⟩
    obtain ⟨h1, h2⟩ := hlt p hp
    exact ⟨h1, h2, hm, hl _ rfl⟩

/-- The gaps between the anchors, as edits. -/
theorem emitGaps_yields (hstep : Yields E limits.step fun _ => True) {left right : List Line}
    {pre suf n m : Nat} (hn : n = left.length - pre - suf) (hm : m = right.length - pre - suf)
    (hpl : pre + suf ≤ left.length) (hpr : pre + suf ≤ right.length)
    (anchors : List (Nat × Nat)) (a b : Nat)
    (hanchors : Anchors (slice left pre (pre + n)) (slice right pre (pre + m)) anchors a b)
    (ha : a ≤ n) (hb : b ≤ m) (es : List Edit)
    (h : Built limits.rangesOnly left right es (pre + a) (pre + b))
    (hgap : ∀ f ∈ es.head?, ¬ (f.end_ = pre + a ∧ f.otherEnd = pre + b)) :
    Yields E (emitGaps limits right pre n m anchors a b) fun edits =>
      Built limits.rangesOnly left right (edits.reverse ++ es) (pre + n) (pre + m) ∧
      scriptSize edits + 2 * anchors.length = (n - a) + (m - b) := by
  -- One gap: nothing, or a new edit.
  have hone : ∀ endA endB a b (es : List Edit), a ≤ endA → b ≤ endB → endA ≤ n → endB ≤ m →
      Built limits.rangesOnly left right es (pre + a) (pre + b) →
      (∀ f ∈ es.head?, ¬ (f.end_ = pre + a ∧ f.otherEnd = pre + b)) →
      Yields E (emitGap limits right pre a b endA endB) fun edits =>
        Built limits.rangesOnly left right (edits.reverse ++ es) (pre + endA) (pre + endB) ∧
        scriptSize edits = (endA - a) + (endB - b) := by
    intro endA endB a b es h1 h2 h3 h4 hes hfree
    refine .ite (fun he => .pure ?_) fun hne => ?_
    · obtain ⟨rfl, rfl⟩ := he
      exact ⟨hes, by simp [scriptSize]⟩
    have hbytes : Yields E (if limits.rangesOnly then pure []
        else appendLines limits right (endB - b) (pre + b) [])
        fun bytes => bytes = replacementOf limits.rangesOnly right (pre + b) (pre + endB) := by
      refine .ite (fun hro => .pure ?_) fun hro => ?_
      · simp [replacementOf, hro]
      · refine (appendLines_yields hstep _ _ _ (by omega)).weaken fun bytes hbs => ?_
        rw [hbs, replacementOf, if_neg hro, show pre + b + (endB - b) = pre + endB by omega,
          nil_append]
    refine hbytes.bind fun bytes hbs => .pure ⟨?_, ?_⟩
    · rw [hbs]
      exact hes.push hfree (by omega) (by omega) (by omega) (by omega) (by omega)
    · simp only [scriptSize, map_cons, map_nil, sum_cons, sum_nil, Edit.size]
      omega
  induction anchors generalizing a b es with
  | nil =>
    exact (hone n m a b es ha hb le_rfl le_rfl h hgap).weaken
      fun edits he => ⟨he.1, by simpa using he.2⟩
  | cons p ps ih =>
    obtain ⟨h1, h2, hmatch, hrest⟩ := hanchors
    have hlt := hmatch.lt
    rw [length_slice (by omega), length_slice (by omega)] at hlt
    refine hstep.skip fun _ => ?_
    refine (hone p.1 p.2 a b es h1 h2 (by omega) (by omega) h hgap).bind fun gap hg => ?_
    have hkeep := hg.1.keep ((matches_slice (by omega) (by omega)).mp hmatch)
    refine (ih (p.1 + 1) (p.2 + 1) hrest (by omega) (by omega) (gap.reverse ++ es)
      (by rw [← Nat.add_assoc, ← Nat.add_assoc]; exact hkeep) fun f hf => ?_).bind fun rest hr =>
        .pure ⟨?_, ?_⟩
    · -- The anchor line separates the next edit from the last one.
      intro he
      cases hes : gap.reverse ++ es with
      | nil => rw [hes] at hf; cases hf
      | cons g gs =>
        rw [hes] at hf
        cases hf
        obtain ⟨k, hk, -⟩ := (hes ▸ hg.1).cursor
        omega
    · rw [reverse_append, append_assoc]; exact hr.1
    · have h3 := hr.2
      have h4 := hg.2
      simp only [scriptSize, map_append, List.sum_append, length_cons] at h3 h4 ⊢
      omega

/-- `SparseDiff` between a common prefix and a common suffix: when it decides the input, a
canonical script of the least size. -/
theorem sparseDiff_yields (hi : Interrupts E limits) (hinput : E ⟨"InvalidAlignmentInput"⟩)
    (lib : Library) {left right : List Line} {pre suf : Nat} (hpre : Same left right 0 0 pre pre)
    (hsuf : Same left right (left.length - suf) (right.length - suf) left.length right.length) :
    Yields E (sparseDiff limits lib left right pre suf) fun out => ∀ edits, out = some edits →
      Built limits.rangesOnly left right edits.reverse left.length right.length ∧
      scriptSize edits =
        Range.distance ⟨pre, left.length - suf, pre, right.length - suf⟩ left right := by
  have hstep := hi.step
  refine hi.check.skip fun _ => (throwIf_yields fun _ => hinput).bind fun _ hin => ?_
  simp only
  refine .ite (fun _ => .pure fun edits he => by cases he) fun _ => ?_
  refine (stepMany_yields hstep _).skip fun _ => (stepMany_yields hstep _).skip fun _ => ?_
  refine (countMatches_yields hstep _ _ _ _ _ _ _ _).skip fun total => ?_
  cases total with
  | none => exact .pure fun edits he => by cases he
  | some _ =>
  refine hi.check.skip fun _ => ?_
  generalize hn : left.length - pre - suf = n
  generalize hm : right.length - pre - suf = m
  generalize hl : slice left pre (pre + n) = l
  generalize hr : slice right pre (pre + m) = r
  have hln : l.length = n := by rw [← hl, length_slice (by omega)]; omega
  have hrm : r.length = m := by rw [← hr, length_slice (by omega)]; omega
  have hmatch : ∀ i b, i < n → (Matches l r i b ↔ b < m ∧
      lineAt right (pre + b) = lineAt left (pre + i)) := by
    intro i b hi
    constructor
    · intro h
      have hb := h.lt.2
      rw [← hl, ← hr, matches_slice (by omega) (by omega)] at h
      have := (lineAt_eq_iff (by omega) (by omega)).mpr h
      exact ⟨by omega, by simpa using (beq_iff_eq.mp this).symm⟩
    · rintro ⟨hb, he⟩
      rw [← hl, ← hr, matches_slice (by omega) (by omega)]
      exact (lineAt_eq_iff (by omega) (by omega)).mp (beq_iff_eq.mpr he.symm)
  -- The loop over the left lines.
  have hall : ∀ fuel i c, i + fuel = n → Settled l r i c →
      Yields E (insertAll limits left right pre (sortOrder right pre m) fuel i c)
        (Settled l r n) := by
    intro fuel
    induction fuel with
    | zero =>
      intro i c hif hc
      obtain rfl : i = n := by omega
      exact .pure hc
    | succ fuel ih =>
      intro i c hif hc
      refine hstep.skip fun _ => (matchesOf_yields hstep left right pre m i).bind fun p hp => ?_
      refine (insertMatches_yields hstep _ (hc.open (t := m) (by omega)) ?_ fun b => ?_).bind
        fun c' hc' => ih (i + 1) c' (by omega) hc'.settled
      · exact pairwise_reverse.mpr hp.ascending
      · rw [mem_reverse, hp.mem_iff, hmatch i b (by omega)]
        exact ⟨fun h => ⟨h.1, h⟩, fun h => h.2⟩
  refine (hall n 0 {} (by omega) Settled.start).bind fun c hc => ?_
  have htails : c.tails.length = lcs l r := by
    have h1 := hc.below_eq m
    have h2 : below c.values m = c.tails.length := by
      rw [below_eq_length, Chains.values, length_map]
      intro x hx
      obtain ⟨t, ht, rfl⟩ := mem_map.mp hx
      obtain ⟨j, hj, rfl⟩ := mem_iff_getElem.mp ht
      obtain ⟨a, b, rest, h3, -⟩ := hc.linked j hj
      rw [h3.head.1]
      have := h3.head.2.2.lt.2
      omega
    rw [← h2, h1, ← hln, ← hrm]
    simp [common]
  obtain ⟨ps, hps, hlen⟩ : ∃ ps, Linked l r c.nodes c.tails.getLast? ps ∧
      ps.length = c.tails.length := by
    cases hlast : c.tails.getLast? with
    | none => exact ⟨[], .stop, by rw [getLast?_eq_none_iff.mp hlast]; rfl⟩
    | some t =>
      rw [getLast?_eq_getElem?] at hlast
      obtain ⟨hlt, hget⟩ := List.getElem?_eq_some_iff.mp hlast
      obtain ⟨a, b, rest, h1, h2, -⟩ := hc.linked _ hlt
      rw [hget] at h1
      exact ⟨_, h1, by simp only [length_cons]; omega⟩
  refine (collect_yields hstep hps (by omega)).bind fun back hback => ?_
  have hanchors : Anchors l r back.reverse 0 0 := by
    have := hps.anchors [] (fun p _ => trivial) fun _ => trivial
    rwa [append_nil, ← hback] at this
  subst hl hr
  refine (emitGaps_yields hstep hn.symm hm.symm (by omega) (by omega) back.reverse 0 0 hanchors
    (Nat.zero_le _) (Nat.zero_le _) [] (Built.start.keep_same hpre) fun f hf => by cases hf).bind
      fun edits he => ?_
  refine hi.check.skip fun _ => .pure fun edits' he' => ?_
  cases he'
  have hend : pre + n = left.length - suf ∧ pre + m = right.length - suf := by omega
  rw [append_nil, hend.1, hend.2] at he
  refine ⟨he.1.keep_same hsuf, ?_⟩
  have h1 := he.2
  have h2 := distance_add_lcs (l := slice left pre (pre + n)) (r := slice right pre (pre + m))
  rw [length_reverse, hback, hlen, htails] at h1
  rw [Range.distance, Range.lefts, Range.rights]
  simp only
  rw [← hend.1, ← hend.2]
  omega

end Hc.Compare
