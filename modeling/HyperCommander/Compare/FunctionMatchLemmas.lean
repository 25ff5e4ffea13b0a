import HyperCommander.Compare.FunctionMatch

/-!
# What function matching keeps

* `longestChain_longest`: no chain of pairs that go up is longer than the one found.
* `matchFunctions_proper`: every function is in one relation, and what is not moved is in order and
  longest.
-/

namespace Hc.Compare

/-! ## The longest chain -/

section Longest

open List Patience

variable {c : List (Nat × Nat)} {previous : List (Option Nat)}

/-- The second line of a pair, by its index. -/
def secondAt (c : List (Nat × Nat)) (k : Nat) : Nat := (c.getD k (0, 0)).2

/-- The links of the pairs so far do not depend on the later ones. -/
theorem followChain_append {x : Option Nat} {fuel k : Nat} (hl : Links c previous)
    (hk : k < previous.length) :
    followChain c (previous ++ [x]) fuel (some k) = followChain c previous fuel (some k) := by
  induction fuel generalizing k with
  | zero => rfl
  | succ fuel ih =>
    have hget : (previous ++ [x]).getD k none = previous.getD k none := by
      rw [getD_eq_getElem?_getD, getElem?_append_left hk, ← getD_eq_getElem?_getD]
    rw [followChain, followChain, hget]
    rcases hb : previous.getD k none with - | b
    · cases fuel <;> rfl
    · rw [ih ((hl k b hb).1.trans hk)]

/-- The tails end the best chains of each length. -/
structure TailsOf (c : List (Nat × Nat)) (i : Nat) (tails : List Nat)
    (previous : List (Option Nat)) :
    Prop where
  length : previous.length = i
  links : Links c previous
  lt : ∀ k ∈ tails, k < i
  increasing : (tails.map (secondAt c)).Pairwise (· < ·)
  covers : BoundsRising ((List.range i).map (secondAt c)) (tails.map (secondAt c))
  depth : ∀ p (hp : p < tails.length), ∀ fuel, tails[p] < fuel →
    (followChain c previous fuel (some tails[p])).length = p + 1

theorem TailsOf.step {i : Nat} {tails : List Nat} (h : TailsOf c i tails previous) (p : Nat)
    (hp : p = below (tails.map (secondAt c)) (secondAt c i)) :
    TailsOf c (i + 1) (if p = tails.length then tails ++ [i] else tails.set p i)
      (previous ++ [if p = 0 then none else tails[p - 1]?]) := by
  have hle : p ≤ tails.length := by
    rw [hp]
    exact countP_le_length.trans_eq (length_map _)
  have hplace : (if p = tails.length then tails ++ [i] else tails.set p i).map (secondAt c) =
      place (tails.map (secondAt c)) (secondAt c i) := by
    rw [← place_eq_set h.increasing, ← hp, length_map]
    split
    · rw [map_append]
      rfl
    · rw [map_set]
  have hlink : Links c (previous ++ [if p = 0 then none else tails[p - 1]?]) := by
    intro i' k hk
    rw [getD_eq_getElem?_getD] at hk
    rcases Nat.lt_trichotomy i' i with hlt | rfl | hgt
    · rw [getElem?_append_left (by rw [h.length]; exact hlt), ← getD_eq_getElem?_getD] at hk
      exact h.links i' k hk
    · rw [getElem?_append_right (by rw [h.length]), h.length, Nat.sub_self] at hk
      split at hk
      · cases hk
      · obtain ⟨hj, rfl⟩ := List.getElem?_eq_some_iff.mp hk
        refine ⟨h.lt _ (getElem_mem hj), ?_⟩
        have := getElem_lt_of_lt_below h.increasing (y := secondAt c i')
          (by rw [length_map]; exact hj) (by omega)
        rwa [getElem_map] at this
    · rw [getElem?_eq_none (by rw [length_append, h.length]; exact hgt)] at hk
      cases hk
  refine ⟨by rw [length_append, h.length]; rfl, hlink, fun k hk => ?_, ?_, ?_, ?_⟩
  · have hk : k ∈ tails ∨ k = i := by
      split at hk
      · simpa using hk
      · exact mem_or_eq_of_mem_set hk
    rcases hk with hk | rfl
    · exact (h.lt k hk).trans (Nat.lt_succ_self i)
    · exact Nat.lt_succ_self k
  · rw [hplace]
    exact pairwise_place h.increasing
  · rw [hplace, range_succ, map_append]
    exact h.covers.place h.increasing
  · -- The chain of the new pair is one longer than that of the tail it follows.
    have hnew : ∀ fuel, i < fuel →
        (followChain c (previous ++ [if p = 0 then none else tails[p - 1]?]) fuel (some i)).length =
          p + 1 := by
      intro fuel hfuel
      obtain ⟨fuel, rfl⟩ := Nat.exists_eq_succ_of_ne_zero (Nat.ne_zero_of_lt hfuel)
      have hget : (previous ++ [if p = 0 then none else tails[p - 1]?]).getD i none =
          if p = 0 then none else tails[p - 1]? := by
        rw [getD_eq_getElem?_getD, getElem?_append_right h.length.le, h.length, Nat.sub_self]
        rfl
      rw [followChain, hget, length_cons]
      split
      · rename_i h0
        rw [h0]
        cases fuel <;> rfl
      · have hj : p - 1 < tails.length := by omega
        have hlt := h.lt _ (getElem_mem hj)
        rw [getElem?_eq_getElem hj, followChain_append h.links (hlt.trans_eq h.length.symm),
          h.depth (p - 1) hj fuel (by omega)]
        omega
    have hold : ∀ q (hq : q < tails.length), ∀ fuel, tails[q] < fuel →
        (followChain c (previous ++ [if p = 0 then none else tails[p - 1]?]) fuel
          (some tails[q])).length = q + 1 := by
      intro q hq fuel hfuel
      rw [followChain_append h.links ((h.lt _ (getElem_mem hq)).trans_eq h.length.symm)]
      exact h.depth q hq fuel hfuel
    intro q hq fuel hfuel
    by_cases happ : p = tails.length
    · simp only [if_pos happ, length_append, length_singleton] at hq hfuel ⊢
      rcases Nat.lt_or_ge q tails.length with hlt | hge
      · rw [getElem_append_left hlt] at hfuel ⊢
        exact hold q hlt fuel hfuel
      · obtain rfl : q = tails.length := by omega
        rw [getElem_concat_length rfl] at hfuel ⊢
        rw [hnew fuel hfuel, happ]
    · simp only [if_neg happ, length_set] at hq hfuel ⊢
      rw [getElem_set] at hfuel ⊢
      split at hfuel
      · rename_i heq
        rw [if_pos heq, hnew fuel hfuel, heq]
      · rename_i hne
        rw [if_neg hne]
        exact hold q hq fuel hfuel

theorem chainTails_tailsOf (count : Nat) {i : Nat} {tails : List Nat}
    (h : TailsOf c i tails previous) :
    TailsOf c (i + count) (chainTails c count i tails previous).1
      (chainTails c count i tails previous).2 := by
  induction count generalizing i tails previous with
  | zero => exact h
  | succ count ih =>
    rw [chainTails, show i + (count + 1) = i + 1 + count by omega]
    refine ih (h.step _ ?_)
    rw [← findIdx_eq_below h.increasing, findIdx_map]
    rfl

/-- No chain of pairs whose second lines go up is longer. -/
theorem longestChain_longest {l : List (Nat × Nat)} (hl : l.Sublist c)
    (hp : l.Pairwise fun p q => p.2 < q.2) : l.length ≤ (longestChain c).length := by
  have hstart : TailsOf c 0 [] [] :=
    ⟨rfl, fun i k hk => by simp at hk, fun k hk => absurd hk not_mem_nil, .nil, .nil,
      fun p hp => absurd hp (Nat.not_lt_zero p)⟩
  have h := chainTails_tailsOf c.length hstart
  rw [Nat.zero_add] at h
  have hc : (List.range c.length).map (secondAt c) = c.map Prod.snd := by
    refine ext_getElem (by simp) fun i h1 h2 => ?_
    have hi : i < c.length := by simpa using h2
    simp [secondAt, hi]
  have hle : l.length ≤ (chainTails c c.length 0 [] []).1.length := by
    have := h.covers.length_le (l := l.map Prod.snd) (hc ▸ hl.map _) (pairwise_map.mpr hp)
    rwa [length_map, length_map] at this
  refine hle.trans ?_
  unfold longestChain
  rw [length_reverse]
  rcases hnil : (chainTails c c.length 0 [] []).1.length with - | n
  · exact Nat.zero_le _
  · have hn : n < (chainTails c c.length 0 [] []).1.length := by omega
    have hlast := h.depth n hn c.length (h.lt _ (getElem_mem hn))
    rw [getLast?_eq_getElem?, hnil, Nat.add_sub_cancel, getElem?_eq_getElem hn, hlast]

end Longest

/-! ## Groups -/

/-- Two groups have no function in common. -/
def FunctionGroup.Apart (g h : FunctionGroup) : Prop :=
  (∀ i ∈ g.left, i ∉ h.left) ∧ ∀ j ∈ g.right, j ∉ h.right

theorem groupBy_apart (keyLeft keyRight : Nat → String) (as bs : List Nat) :
    (groupBy keyLeft keyRight as bs).Pairwise FunctionGroup.Apart := by
  have hnd : (((as.map keyLeft ++ bs.map keyRight).dedup).mergeSort fun a b =>
      decide (textUnits a ≤ textUnits b)).Nodup :=
    (List.mergeSort_perm _ _).nodup_iff.mpr (List.nodup_dedup _)
  refine List.pairwise_map.mpr (hnd.imp fun hne => ⟨fun i hi hi' => hne ?_, fun j hj hj' => hne ?_⟩)
  · rw [← beq_iff_eq.mp (List.mem_filter.mp hi).2, beq_iff_eq.mp (List.mem_filter.mp hi').2]
  · rw [← beq_iff_eq.mp (List.mem_filter.mp hj).2, beq_iff_eq.mp (List.mem_filter.mp hj').2]

/-- A group holds the functions of a key. -/
theorem mem_groupBy {keyLeft keyRight : Nat → String} {as bs : List Nat} {g : FunctionGroup} :
    g ∈ groupBy keyLeft keyRight as bs ↔ ∃ key, (key ∈ as.map keyLeft ∨ key ∈ bs.map keyRight) ∧
      g = ⟨as.filter fun i => keyLeft i == key, bs.filter fun i => keyRight i == key⟩ := by
  rw [groupBy, List.mem_map]
  refine exists_congr fun key => ?_
  rw [List.mem_mergeSort, List.mem_dedup, List.mem_append, eq_comm (b := g)]

theorem groupBy_subset {keyLeft keyRight : Nat → String} {as bs : List Nat} {g : FunctionGroup}
    (hg : g ∈ groupBy keyLeft keyRight as bs) : g.left ⊆ as ∧ g.right ⊆ bs := by
  obtain ⟨key, -, rfl⟩ := mem_groupBy.mp hg
  exact ⟨List.filter_subset_self _, List.filter_subset_self _⟩

/-! ## Partners -/

/-- The pairs are disjoint, and an ambiguous function has no partner. -/
structure Matching.Disjoint (n m : Nat) (s : Matching) : Prop where
  range : ∀ a b, s.partner a = some b → a < n ∧ b < m
  injective : ∀ a a' b, s.partner a = some b → s.partner a' = some b → a = a'
  used : ∀ b, s.used b = true ↔ ∃ a, s.partner a = some b
  ambiguous : ∀ a, s.ambiguousLeft a = true → s.partner a = none

/-- No function of a group has been looked at. -/
structure Matching.Fresh (n m : Nat) (s : Matching) (g : FunctionGroup) : Prop where
  left : ∀ i ∈ g.left, i < n ∧ s.partner i = none ∧ s.ambiguousLeft i = false
  right : ∀ j ∈ g.right, j < m ∧ s.used j = false

/-- Only functions of a group have changed. -/
structure Matching.Within (g : FunctionGroup) (s s' : Matching) : Prop where
  left : ∀ i, i ∉ g.left → s'.partner i = s.partner i ∧ s'.ambiguousLeft i = s.ambiguousLeft i
  right : ∀ j, j ∉ g.right → s'.used j = s.used j

section Partners

variable {n m a b : Nat} {s s' : Matching} {g h : FunctionGroup} {left right : Nat → Fields}

theorem Matching.Disjoint.start : ({} : Matching).Disjoint n m where
  range _ _ h := by cases h
  injective _ _ _ h := by cases h
  used b := by simp
  ambiguous _ _ := rfl

/-- Two functions without partners become one pair. -/
theorem Matching.Disjoint.pair (hs : s.Disjoint n m) (ha : a < n) (hb : b < m)
    (hpa : s.partner a = none) (hub : s.used b = false) (hamb : s.ambiguousLeft a = false) :
    (s.pair a b).Disjoint n m := by
  have hfree : ∀ a', s.partner a' ≠ some b := fun a' h' => by
    rw [(hs.used b).mpr ⟨a', h'⟩] at hub
    cases hub
  have hp : ∀ a' b', (s.pair a b).partner a' = some b' ↔
      (a' = a ∧ b' = b) ∨ (a' ≠ a ∧ s.partner a' = some b') := by
    intro a' b'
    by_cases h : a' = a
    · rw [h]
      simp [Matching.pair, eq_comm]
    · simp [Matching.pair, h]
  refine ⟨fun a' b' h => ?_, fun a1 a2 b' h1 h2 => ?_, fun b' => ?_, fun a' h => ?_⟩
  · rcases (hp a' b').mp h with ⟨rfl, rfl⟩ | ⟨-, h⟩
    · exact ⟨ha, hb⟩
    · exact hs.range a' b' h
  · rcases (hp a1 b').mp h1 with ⟨rfl, rfl⟩ | ⟨-, h1⟩
    · rcases (hp a2 b').mp h2 with ⟨rfl, -⟩ | ⟨-, h2⟩
      · rfl
      · exact absurd h2 (hfree a2)
    · rcases (hp a2 b').mp h2 with ⟨-, hb'⟩ | ⟨-, h2⟩
      · exact absurd (hb' ▸ h1) (hfree a1)
      · exact hs.injective a1 a2 b' h1 h2
  · by_cases hbb : b' = b
    · subst hbb
      simp only [Matching.pair, Function.update_self, true_iff]
      exact ⟨a, by simp⟩
    · have hu : (s.pair a b).used b' = s.used b' := by simp [Matching.pair, hbb]
      rw [hu, hs.used]
      refine exists_congr fun a' => ?_
      rw [hp]
      constructor
      · intro h
        refine .inr ⟨?_, h⟩
        rintro rfl
        rw [hpa] at h
        cases h
      · rintro (⟨-, h⟩ | ⟨-, h⟩)
        · exact absurd h hbb
        · exact h
  · have hold : s.ambiguousLeft a' = true := h
    have hne : a' ≠ a := by
      rintro rfl
      rw [hamb] at hold
      cases hold
    have : (s.pair a b).partner a' = s.partner a' := by simp [Matching.pair, hne]
    rw [this]
    exact hs.ambiguous a' hold

theorem Matching.Within.pair (ha : a ∈ g.left) (hb : b ∈ g.right) : Within g s (s.pair a b) := by
  refine ⟨fun i hi => ⟨?_, rfl⟩, fun j hj => ?_⟩
  · exact Function.update_of_ne (fun h : i = a => hi (h ▸ ha)) _ _
  · exact Function.update_of_ne (fun h : j = b => hj (h ▸ hb)) _ _

theorem Matching.Within.refl : Within g s s := ⟨fun _ _ => ⟨rfl, rfl⟩, fun _ _ => rfl⟩

theorem Matching.Within.trans {s'' : Matching} (h : Within g s s') (h' : Within g s' s'') :
    Within g s s'' := by
  refine ⟨fun i hi => ⟨?_, ?_⟩, fun j hj => (h'.right j hj).trans (h.right j hj)⟩
  · exact (h'.left i hi).1.trans (h.left i hi).1
  · exact (h'.left i hi).2.trans (h.left i hi).2

/-- What is done to a group leaves one apart from it as it was. -/
theorem Matching.Fresh.of_within (hf : s.Fresh n m h) (hw : Within g s s') (ha : g.Apart h) :
    s'.Fresh n m h := by
  refine ⟨fun i hi => ?_, fun j hj => ?_⟩
  · obtain ⟨h1, h2⟩ := hw.left i fun hg => ha.1 i hg hi
    rw [h1, h2]
    exact hf.left i hi
  · rw [hw.right j fun hg => ha.2 j hg hj]
    exact hf.right j hj

/-- A step that pairs fresh functions of a group keeps the pairs disjoint over all groups. -/
theorem foldl_disjoint {step : Matching → FunctionGroup → Matching}
    (hstep : ∀ s g, s.Disjoint n m → s.Fresh n m g → (step s g).Disjoint n m ∧
      Matching.Within g s (step s g))
    {groups : List FunctionGroup} (hp : groups.Pairwise FunctionGroup.Apart) (hs : s.Disjoint n m)
    (hf : ∀ g ∈ groups, s.Fresh n m g) :
    (groups.foldl step s).Disjoint n m ∧
      ∀ h : FunctionGroup, (∀ g ∈ groups, g.left ⊆ h.left ∧ g.right ⊆ h.right) →
        Matching.Within h s (groups.foldl step s) := by
  induction groups generalizing s with
  | nil => exact ⟨hs, fun _ _ => .refl⟩
  | cons g groups ih =>
    obtain ⟨hp1, hp2⟩ := List.pairwise_cons.mp hp
    obtain ⟨hd, hw⟩ := hstep s g hs (hf g List.mem_cons_self)
    obtain ⟨h1, h2⟩ := ih hp2 hd fun g' hg' =>
      (hf g' (List.mem_cons_of_mem _ hg')).of_within hw (hp1 g' hg')
    refine ⟨h1, fun h hsub => ?_⟩
    have hrest := h2 h fun g' hg' => hsub g' (List.mem_cons_of_mem _ hg')
    obtain ⟨hl, hr⟩ := hsub g List.mem_cons_self
    refine ⟨fun i hi => ?_, fun j hj => ?_⟩
    · obtain ⟨e1, e2⟩ := hrest.left i hi
      obtain ⟨f1, f2⟩ := hw.left i fun hg => hi (hl hg)
      exact ⟨e1.trans f1, e2.trans f2⟩
    · exact (hrest.right j hj).trans (hw.right j fun hg => hj (hr hg))

/-! ## The passes -/

theorem pairSignature_disjoint (hs : s.Disjoint n m) (hf : s.Fresh n m g) :
    (pairSignature s g).Disjoint n m ∧ Matching.Within g s (pairSignature s g) := by
  unfold pairSignature
  split
  · rename_i a b hl hr
    obtain ⟨ha, hpa, hamb⟩ := hf.left a (by rw [hl]; exact List.mem_cons_self)
    obtain ⟨hb, hub⟩ := hf.right b (by rw [hr]; exact List.mem_cons_self)
    exact ⟨hs.pair ha hb hpa hub hamb, .pair (by rw [hl]; exact List.mem_cons_self)
      (by rw [hr]; exact List.mem_cons_self)⟩
  · exact ⟨hs, .refl⟩

theorem pairSignature_ambiguous (s : Matching) (groups : List FunctionGroup) :
    (groups.foldl pairSignature s).ambiguousLeft = s.ambiguousLeft := by
  induction groups generalizing s with
  | nil => rfl
  | cons g groups ih =>
    rw [List.foldl_cons, ih]
    unfold pairSignature
    split <;> rfl

theorem matchName_disjoint (left right : Nat → Fields) (hs : s.Disjoint n m)
    (hf : s.Fresh n m g) :
    (matchName left right s g).Disjoint n m ∧ Matching.Within g s (matchName left right s g) := by
  unfold matchName
  dsimp only
  generalize (fun i => (left i).text "signature") = keyLeft
  generalize (fun i => (right i).text "signature") = keyRight
  have hsub : ∀ h ∈ groupBy keyLeft keyRight g.left g.right, h.left ⊆ g.left ∧ h.right ⊆ g.right :=
    fun h hh => groupBy_subset hh
  obtain ⟨hd, hw⟩ := foldl_disjoint (fun _ _ => pairSignature_disjoint)
    (groupBy_apart keyLeft keyRight g.left g.right) hs fun h hh =>
      ⟨fun i hi => hf.left i ((hsub h hh).1 hi), fun j hj => hf.right j ((hsub h hh).2 hj)⟩
  have hw := hw g hsub
  have hamb := pairSignature_ambiguous s (groupBy keyLeft keyRight g.left g.right)
  generalize (groupBy keyLeft keyRight g.left g.right).foldl pairSignature s = t at hd hw hamb
  -- What the signatures have left over.
  have hl : ∀ i ∈ g.left.filter fun i => (t.partner i).isNone,
      i ∈ g.left ∧ i < n ∧ t.partner i = none ∧ t.ambiguousLeft i = false := by
    intro i hi
    obtain ⟨hi, hp⟩ := List.mem_filter.mp hi
    refine ⟨hi, (hf.left i hi).1, Option.isNone_iff_eq_none.mp hp, ?_⟩
    rw [hamb]
    exact (hf.left i hi).2.2
  have hr : ∀ j ∈ g.right.filter fun j => !t.used j, j ∈ g.right ∧ j < m ∧ t.used j = false := by
    intro j hj
    obtain ⟨hj, hu⟩ := List.mem_filter.mp hj
    exact ⟨hj, (hf.right j hj).1, by simpa using hu⟩
  split
  · rename_i a b ha hb
    obtain ⟨hag, han, hpa, hamba⟩ := hl a (by rw [ha]; exact List.mem_cons_self)
    obtain ⟨hbg, hbm, hub⟩ := hr b (by rw [hb]; exact List.mem_cons_self)
    refine ⟨hd.pair han hbm hpa hub hamba, hw.trans (.pair hag hbg)⟩
  · split
    · refine ⟨⟨hd.range, hd.injective, hd.used, fun a ha => ?_⟩, hw.trans ⟨fun i hi => ⟨rfl, ?_⟩,
        fun _ _ => rfl⟩⟩
      · rcases Bool.or_eq_true_iff.mp ha with ha | ha
        · exact hd.ambiguous a ha
        · exact (hl a (List.contains_iff_mem.mp ha)).2.2.1
      · have : (g.left.filter fun i => (t.partner i).isNone).contains i = false := by
          rw [← Bool.not_eq_true, List.contains_iff_mem]
          exact fun h => hi (hl i h).1
        dsimp only
        rw [this, Bool.or_false]
    · exact ⟨hd, hw⟩

/-- Functions without partners. -/
theorem free_iff : s.free a b = true ↔ s.partner a = none ∧ s.used b = false ∧
    s.ambiguousLeft a = false ∧ s.ambiguousRight b = false := by
  simp [Matching.free, and_assoc]

/-- The marks of a pair make no difference. -/
theorem Matching.Disjoint.pair_free {renamed literal token : Nat → Bool} (hs : s.Disjoint n m)
    (ha : a < n) (hb : b < m) (hf : s.free a b = true) :
    ({ s.pair a b with renamed := renamed, literalChanged := literal, tokenChanged := token } :
      Matching).Disjoint n m := by
  obtain ⟨h1, h2, h3, -⟩ := free_iff.mp hf
  have h := hs.pair ha hb h1 h2 h3
  exact ⟨h.range, h.injective, h.used, h.ambiguous⟩

theorem matchBody_disjoint (hs : s.Disjoint n m) (hl : g.left ⊆ List.range n)
    (hr : g.right ⊆ List.range m) : (matchBody left right s g).Disjoint n m := by
  unfold matchBody
  split
  · rename_i a b ha hb
    rw [ha] at hl
    rw [hb] at hr
    split
    · exact hs
    · rename_i hc
      have hfree : s.free a b = true := by simpa using (not_or.mp hc).1
      exact hs.pair_free (List.mem_range.mp (hl List.mem_cons_self))
        (List.mem_range.mp (hr List.mem_cons_self)) hfree
  · exact hs

theorem matchLiterals_disjoint (hs : s.Disjoint n m) (hl : g.left ⊆ List.range n)
    (hr : g.right ⊆ List.range m) : (matchLiterals left right s g).Disjoint n m := by
  unfold matchLiterals
  split
  · rename_i a b ha hb
    rw [ha] at hl
    rw [hb] at hr
    dsimp only
    split
    · exact hs
    · rename_i hc
      have hfree : s.free a b = true := by simpa using (not_or.mp hc).1
      exact hs.pair_free (List.mem_range.mp (hl List.mem_cons_self))
        (List.mem_range.mp (hr List.mem_cons_self)) hfree
  · exact hs

theorem matchSimilar_disjoint {scores : GroupScores} (hs : s.Disjoint n m)
    (hl : g.left ⊆ List.range n) (hr : g.right ⊆ List.range m) (k : Nat) :
    (matchSimilar left right g scores s k).Disjoint n m := by
  unfold matchSimilar
  dsimp only
  split
  · rename_i a b ha hb
    split
    · exact hs
    · rename_i hc
      have hfree : s.free a b = true := by
        by_contra h
        exact hc (.inr (.inr (.inr (.inr (.inl (by simpa using h))))))
      exact hs.pair_free (List.mem_range.mp (hl (List.mem_of_getElem? ha)))
        (List.mem_range.mp (hr (List.mem_of_getElem? hb))) hfree
  · exact hs

end Partners

/-! ## Token sequences -/

/-- How the passes over the bodies fail. -/
def SimilarityFailure (limits : Budget) (e : Failure) : Prop :=
  limits.Outside e ∨ e = ⟨"FunctionSimilarityWorkLimit"⟩

section Sequences

variable {limits : Budget} {n m : Nat} {left right : Nat → Fields}

theorem similarityStep_yields (work : Nat) :
    Yields (SimilarityFailure limits) (similarityStep limits work) fun _ => True := by
  refine (throwIf_yields fun _ => .inr rfl).bind fun _ _ => ?_
  have hcheck : Yields (SimilarityFailure limits)
    (if (work + 1) % 1024 = 0 then limits.check else pure ())
      fun _ => True :=
    .ite (fun _ => Budget.check_yields fun _ he => .inl he) fun _ => .pure trivial
  exact hcheck.skip fun _ => .pure trivial

theorem commonTokens_yields (xs ys : List QJson) (work : Nat) :
    Yields (SimilarityFailure limits) (commonTokens limits xs ys work) fun _ => True := by
  induction xs generalizing ys work with
  | nil => exact .pure trivial
  | cons x xs ih =>
    cases ys with
    | nil => exact .pure trivial
    | cons y ys =>
      rw [commonTokens]
      refine (similarityStep_yields work).skip fun work => ?_
      exact .ite (fun _ => .pure trivial) fun _ =>
        (ih ys work).skip fun _ => .pure trivial

theorem bandRow_yields (x y : List QJson) (rows : List Int × Nat) (i : Nat) :
    Yields (SimilarityFailure limits) (bandRow limits x y rows i) fun _ => True := by
  refine .foldlM trivial fun row j _ _ => ?_
  exact (similarityStep_yields row.2).skip fun _ => .pure trivial

theorem tokenScore_yields {x y : List QJson} {work : Nat} :
    Yields (SimilarityFailure limits) (tokenScore limits x y work) fun _ => True := by
  refine (commonTokens_yields x y work).skip fun start => ?_
  refine (commonTokens_yields _ _ start.2).skip fun end_ => ?_
  refine .ite (fun _ => ?_) fun _ => .pure trivial
  exact (Yields.foldlM trivial fun rows i _ _ => bandRow_yields x y rows i).skip fun _ =>
    .pure trivial

theorem scorePairs_yields {python : Bool} {ls rs : List Fields} {pairs : List (Nat × Nat)}
    {scores : GroupScores} {work : Nat} :
    Yields (SimilarityFailure limits) (scorePairs limits python ls rs pairs scores work)
      fun _ => True := by
  induction pairs generalizing scores work with
  | nil => exact .pure trivial
  | cons p pairs ih =>
    rw [scorePairs]
    exact .ite (fun _ => ih) fun _ => tokenScore_yields.skip fun _ => ih

theorem matchSequences_yields {python : Bool} {s : SimilarityState} {g : FunctionGroup}
    (hs : s.matching.Disjoint n m) (hl : g.left ⊆ List.range n) (hr : g.right ⊆ List.range m) :
    Yields (SimilarityFailure limits) (matchSequences limits python left right s g) fun s' =>
      s'.matching.Disjoint n m := by
  refine (Budget.check_yields fun _ he => .inl he).skip fun _ => ?_
  refine .ite (fun _ => .pure hs) fun _ => ?_
  refine .ite (fun _ => .pure hs) fun _ => ?_
  refine .ite (fun _ => .pure hs) fun _ => ?_
  refine .ite (fun _ => .pure hs) fun _ => ?_
  refine scorePairs_yields.skip fun scores => .pure ?_
  -- The pairs that the group gains, one after the other.
  refine List.foldlRecOn (List.range g.left.length) (matchSimilar left right g scores.1) hs
    fun t ht k _ => ?_
  exact matchSimilar_disjoint ht hl hr k

theorem matchBodies_yields (left right : Nat → Fields) {python : Bool} {s : Matching}
    (hs : s.Disjoint n m) :
    Yields (SimilarityFailure limits) (matchBodies limits python left right n m s) fun s' =>
      s'.matching.Disjoint n m := by
  have hsub : ∀ {kl kr : Nat → String} {p q : Nat → Bool},
      ∀ g ∈ groupBy kl kr ((List.range n).filter p) ((List.range m).filter q),
        g.left ⊆ List.range n ∧ g.right ⊆ List.range m := fun g hg =>
    ⟨List.Subset.trans (groupBy_subset hg).1 (List.filter_subset_self _),
      List.Subset.trans (groupBy_subset hg).2 (List.filter_subset_self _)⟩
  refine (checkMany_yields (fun _ he => .inl he) _).skip fun _ => ?_
  refine (checkMany_yields (fun _ he => .inl he) _).skip fun _ => ?_
  refine (checkMany_yields (fun _ he => .inl he) _).skip fun _ => ?_
  refine .foldlM ?_ fun t g hg ht => matchSequences_yields ht (hsub g hg).1 (hsub g hg).2
  refine List.foldlRecOn _ (matchLiterals left right) ?_ fun t ht g hg =>
    matchLiterals_disjoint ht (hsub g hg).1 (hsub g hg).2
  exact List.foldlRecOn _ (matchBody left right) hs fun t ht g hg =>
    matchBody_disjoint ht (hsub g hg).1 (hsub g hg).2

end Sequences

/-! ## Moves -/

section Moves

variable {s : Matching} {n : Nat} {left : Nat → Fields}

/-- Every scope marks its own functions. -/
theorem foldl_markMoved {scopes : List (List Nat)}
    (hp : scopes.Pairwise fun x y => ∀ i ∈ x, i ∉ y) (f : Nat → Bool) :
    (∀ indexes ∈ scopes, ∀ i ∈ indexes,
      scopes.foldl (markMoved s) f i = !(keptInScope s indexes).contains i) ∧
    ∀ i, (∀ indexes ∈ scopes, i ∉ indexes) → scopes.foldl (markMoved s) f i = f i := by
  induction scopes generalizing f with
  | nil => exact ⟨fun _ h => absurd h List.not_mem_nil, fun _ _ => rfl⟩
  | cons x xs ih =>
    obtain ⟨hp1, hp2⟩ := List.pairwise_cons.mp hp
    obtain ⟨h1, h2⟩ := ih hp2 (markMoved s f x)
    have hx : ∀ i ∈ x, markMoved s f x i = !(keptInScope s x).contains i := fun i hi => by
      unfold markMoved
      rw [if_pos (List.contains_iff_mem.mpr hi)]
    refine ⟨fun indexes hmem i hi => ?_, fun i hi => ?_⟩
    · rw [List.foldl_cons]
      rcases List.mem_cons.mp hmem with rfl | hmem
      · rw [h2 i fun y hy => hp1 y hy i hi, hx i hi]
      · exact h1 indexes hmem i hi
    · rw [List.foldl_cons, h2 i fun y hy => hi y (List.mem_cons_of_mem _ hy)]
      unfold markMoved
      rw [if_neg fun h => hi x List.mem_cons_self (List.contains_iff_mem.mp h)]

/-- The matched functions of a scope. -/
def matchedIn (left : Nat → Fields) (s : Matching) (n : Nat) (scope : String) : List Nat :=
  ((List.range n).filter fun i => (s.partner i).isSome).filter fun i =>
    (left i).text "scope" == scope

/-- The functions that are not marked are those that keep their order. -/
theorem moved_eq {scope : String} {i : Nat} (hi : i ∈ matchedIn left s n scope) :
    (scopesOf left s n).foldl (markMoved s) (fun _ => false) i =
      !(keptInScope s (matchedIn left s n scope)).contains i := by
  refine (foldl_markMoved ?_ _).1 _ ?_ i hi
  · exact List.pairwise_map.mpr ((groupBy_apart _ (fun _ => "") _ []).imp fun h => h.1)
  · refine List.mem_map.mpr ⟨⟨matchedIn left s n scope, []⟩,
      mem_groupBy.mpr ⟨scope, .inl ?_, rfl⟩, rfl⟩
    obtain ⟨hmem, hscope⟩ := List.mem_filter.mp hi
    exact List.mem_map.mpr ⟨i, hmem, beq_iff_eq.mp hscope⟩

end Moves

/-! ## Relations -/

/-- The statuses of moved functions. -/
def movedStatuses : List String :=
  ["Moved", "MovedModified", "MovedRenamed", "MovedRenamedModified"]

/-- Whether a relation pairs two functions, the left one in `scope`. -/
def Relation.pairsIn (lefts : List Fields) (scope : String) (r : Relation) : Bool :=
  decide (0 ≤ r.left ∧ 0 ≤ r.right) && ((lefts.getD r.left.toNat []).text "scope" == scope)

/-- Whether it does so and says that the function was not moved. -/
def Relation.keeps (lefts : List Fields) (scope : String) (r : Relation) : Bool :=
  r.pairsIn lefts scope && !movedStatuses.contains r.status

/-- One pair lies in front of another on both sides. -/
def Relation.Ahead (r r' : Relation) : Prop := r.left < r'.left ∧ r.right < r'.right

/-- Every function is in one relation, and in every scope the pairs that are not moved are as many
as can be in one order on both sides. -/
structure ProperMatch (lefts rights : List Fields) (relations : List Relation) : Prop where
  range : ∀ r ∈ relations, -1 ≤ r.left ∧ r.left < lefts.length ∧ -1 ≤ r.right ∧
    r.right < rights.length ∧ (0 ≤ r.left ∨ 0 ≤ r.right)
  left : ∀ i < lefts.length, (relations.countP fun r => r.left = (i : Int)) = 1
  right : ∀ j < rights.length, (relations.countP fun r => r.right = (j : Int)) = 1
  inOrder : ∀ scope, (relations.filter (Relation.keeps lefts scope)).Pairwise Relation.Ahead
  longest : ∀ scope (l : List Relation), l ⊆ relations.filter (Relation.pairsIn lefts scope) →
    l.Pairwise Relation.Ahead → l.length ≤ (relations.filter (Relation.keeps lefts scope)).length

/-- A predicate that only one element of a list meets. -/
theorem countP_eq_one {l : List Nat} (hl : l.Nodup) {a : Nat} (ha : a ∈ l) {p : Nat → Bool}
    (hp : ∀ i ∈ l, p i = true ↔ i = a) : l.countP p = 1 := by
  rw [← List.count_eq_one_of_mem hl ha, List.count_eq_countP]
  refine List.countP_congr fun i hi => ?_
  rw [hp i hi, beq_iff_eq]

section Relations

variable {lefts rights : List Fields} {s : Matching} {n : Nat} {left right : Nat → Fields}
  {complete : Bool} {moved : Nat → Bool} {i : Nat} {scope : String}

theorem leftRelation_right (complete : Bool) (left right : Nat → Fields) (s : Matching)
    (moved : Nat → Bool) (i : Nat) :
    (leftRelation complete left right s moved i).right = -1 ∧ s.partner i = none ∨
      ∃ j : Nat, (leftRelation complete left right s moved i).right = (j : Int) ∧
        s.partner i = some j := by
  unfold leftRelation
  rcases s.partner i with - | j
  · exact .inl ⟨rfl, rfl⟩
  · exact .inr ⟨j, rfl, rfl⟩

/-- The status of a pair says whether it was moved. -/
theorem relationStatus_moved {complete renamed literal moved modified : Bool} :
    movedStatuses.contains (relationStatus complete false true renamed literal moved modified) =
      moved := by
  cases complete <;> cases renamed <;> cases literal <;> cases moved <;> cases modified <;> decide

theorem leftRelation_moved (hs : ∀ a, s.ambiguousLeft a = true → s.partner a = none)
    (hi : (s.partner i).isSome) :
    movedStatuses.contains (leftRelation complete left right s moved i).status = moved i := by
  have hamb : s.ambiguousLeft i = false := by
    by_contra h
    rw [hs i (by simpa using h)] at hi
    cases hi
  unfold leftRelation
  dsimp only
  rw [hamb, hi]
  exact relationStatus_moved

/-- What `matchLists` reports. -/
def allRelations (complete : Bool) (left right : Nat → Fields) (s : Matching) (moved : Nat → Bool)
    (n m : Nat) : List Relation :=
  (List.range n).map (leftRelation complete left right s moved) ++
    ((List.range m).filter fun j => !s.used j).map (rightRelation complete right s)

theorem relations_range {m : Nat} (hs : s.Disjoint n m) :
    ∀ r ∈ allRelations complete left right s moved n m, -1 ≤ r.left ∧ r.left < n ∧ -1 ≤ r.right ∧
      r.right < m ∧ (0 ≤ r.left ∨ 0 ≤ r.right) := by
  intro r hr
  rcases List.mem_append.mp hr with hr | hr
  · obtain ⟨i, hi, rfl⟩ := List.mem_map.mp hr
    have hi := List.mem_range.mp hi
    have hl : (leftRelation complete left right s moved i).left = (i : Int) := rfl
    rcases leftRelation_right complete left right s moved i with
      ⟨h, -⟩ | ⟨j, h, hp⟩
    · rw [hl, h]
      omega
    · have := (hs.range i j hp).2
      rw [hl, h]
      omega
  · obtain ⟨j, hj, rfl⟩ := List.mem_map.mp hr
    have hj := List.mem_range.mp (List.mem_filter.mp hj).1
    have hl : (rightRelation complete right s j).left = -1 := rfl
    have hr : (rightRelation complete right s j).right = (j : Int) := rfl
    rw [hl, hr]
    omega

theorem relations_left (m : Nat) (hi : i < n) :
    ((allRelations complete left right s moved n m).countP fun r => r.left = (i : Int)) = 1 := by
  have hright : (((List.range m).filter fun j => !s.used j).map
      (rightRelation complete right s)).countP (fun r => r.left = (i : Int)) = 0 := by
    rw [List.countP_eq_zero]
    intro r hr
    obtain ⟨j, -, rfl⟩ := List.mem_map.mp hr
    have : (rightRelation complete right s j).left = -1 := rfl
    simp only [decide_eq_true_eq]
    omega
  rw [allRelations, List.countP_append, hright, List.countP_map]
  refine countP_eq_one List.nodup_range (List.mem_range.mpr hi) fun i' _ => ?_
  have : (leftRelation complete left right s moved i').left = (i' : Int) := rfl
  simp [this]

theorem relations_right {m j : Nat} (hs : s.Disjoint n m) (hj : j < m) :
    ((allRelations complete left right s moved n m).countP fun r => r.right = (j : Int)) = 1 := by
  have hleft : ∀ i', (leftRelation complete left right s moved i').right = (j : Int) ↔
      s.partner i' = some j := by
    intro i'
    rcases leftRelation_right complete left right s moved i' with
      ⟨h, hp⟩ | ⟨j', h, hp⟩
    · rw [h, hp]
      simp
    · rw [h, hp]
      simp
  rw [allRelations, List.countP_append, List.countP_map, List.countP_map]
  cases hu : s.used j with
  | true =>
    obtain ⟨a, ha⟩ := (hs.used j).mp hu
    rw [countP_eq_one List.nodup_range (List.mem_range.mpr (hs.range a j ha).1),
      List.countP_eq_zero.mpr]
    · intro j' hj' h
      have heq : (rightRelation complete right s j').right = (j' : Int) := rfl
      simp only [Function.comp_apply, heq, decide_eq_true_eq, Int.natCast_inj] at h
      have := (List.mem_filter.mp hj').2
      rw [h, hu] at this
      cases this
    · intro i' _
      simp only [Function.comp_apply, decide_eq_true_eq, hleft]
      exact ⟨fun h => hs.injective i' a j h ha, fun h => h ▸ ha⟩
  | false =>
    rw [List.countP_eq_zero.mpr, Nat.zero_add]
    · refine countP_eq_one (List.nodup_range.filter _)
        (List.mem_filter.mpr ⟨List.mem_range.mpr hj, by rw [hu]; rfl⟩) fun j' _ => ?_
      have heq : (rightRelation complete right s j').right = (j' : Int) := rfl
      simp [heq]
    · intro i' _ h
      simp only [Function.comp_apply, decide_eq_true_eq, hleft] at h
      rw [(hs.used j).mpr ⟨i', h⟩] at hu
      cases hu

/-- The pairs of a scope are those of its matched functions. -/
theorem filter_pairsIn (m : Nat) (hleft : ∀ i, left i = lefts.getD i []) :
    (allRelations complete left right s moved n m).filter (Relation.pairsIn lefts scope) =
      (matchedIn left s n scope).map (leftRelation complete left right s moved) := by
  have hright : (((List.range m).filter fun j => !s.used j).map
      (rightRelation complete right s)).filter (Relation.pairsIn lefts scope) = [] := by
    rw [List.filter_eq_nil_iff]
    intro r hr
    obtain ⟨j, -, rfl⟩ := List.mem_map.mp hr
    simp [Relation.pairsIn, rightRelation]
  rw [allRelations, List.filter_append, hright, List.append_nil, List.filter_map, matchedIn,
    List.filter_filter]
  refine congrArg _ (List.filter_congr fun i _ => ?_)
  have hl : (leftRelation complete left right s moved i).left = (i : Int) := rfl
  rcases leftRelation_right complete left right s moved i with
    ⟨h, hp⟩ | ⟨j, h, hp⟩
  · simp [Relation.pairsIn, h, hp]
  · simp [Relation.pairsIn, h, hp, hl, hleft]

/-- The pairs among which the longest chain is looked for. -/
def scopePairs (left : Nat → Fields) (s : Matching) (n : Nat) (scope : String) : List (Nat × Nat) :=
  (matchedIn left s n scope).map fun i => (i, (s.partner i).getD 0)

theorem pairwise_matchedIn : (matchedIn left s n scope).Pairwise (· < ·) :=
  (List.pairwise_lt_range.filter _).filter _

theorem pairwise_scopePairs (left : Nat → Fields) (s : Matching) (n : Nat) (scope : String) :
    (scopePairs left s n scope).Pairwise fun p q => p.1 < q.1 :=
  List.pairwise_map.mpr pairwise_matchedIn

/-- The functions of a scope that keep their order. -/
theorem mem_kept : i ∈ keptInScope s (matchedIn left s n scope) ↔
    (i, (s.partner i).getD 0) ∈ longestChain (scopePairs left s n scope) := by
  unfold keptInScope
  rw [List.mem_map]
  constructor
  · rintro ⟨p, hp, rfl⟩
    obtain ⟨i', -, rfl⟩ :=
      List.mem_map.mp ((chain_increasing (pairwise_scopePairs left s _ scope)).2 p hp)
    exact hp
  · exact fun h => ⟨_, h, rfl⟩

theorem kept_subset : keptInScope s (matchedIn left s n scope) ⊆ matchedIn left s n scope := by
  intro i hi
  obtain ⟨i', hi', heq⟩ :=
    List.mem_map.mp ((chain_increasing (pairwise_scopePairs left s _ scope)).2 _ (mem_kept.mp hi))
  obtain rfl : i' = i := congrArg Prod.fst heq
  exact hi'

/-- The kept functions go up with their partners. -/
theorem kept_increasing {i' : Nat} (hi : i ∈ keptInScope s (matchedIn left s n scope))
    (hi' : i' ∈ keptInScope s (matchedIn left s n scope)) (h : i < i') :
    (s.partner i).getD 0 < (s.partner i').getD 0 := by
  have hup := (chain_increasing (pairwise_scopePairs left s n scope)).1
  obtain ⟨x, hx, hpx⟩ := List.mem_iff_getElem.mp (mem_kept.mp hi)
  obtain ⟨y, hy, hpy⟩ := List.mem_iff_getElem.mp (mem_kept.mp hi')
  rw [List.pairwise_iff_getElem] at hup
  rcases Nat.lt_trichotomy x y with hlt | rfl | hgt
  · have := (hup x y hx hy hlt).2
    rwa [hpx, hpy] at this
  · have := congrArg Prod.fst (hpx.symm.trans hpy)
    exact absurd this (Nat.ne_of_lt h)
  · have := (hup y x hy hx hgt).1
    rw [hpx, hpy] at this
    exact absurd h (Nat.lt_asymm this)

theorem filter_keeps {m : Nat} (hleft : ∀ i, left i = lefts.getD i []) (hs : s.Disjoint n m) :
    (allRelations complete left right s ((scopesOf left s n).foldl (markMoved s) fun _ => false) n
      m).filter (Relation.keeps lefts scope) =
    ((matchedIn left s n scope).filter fun i =>
      (keptInScope s (matchedIn left s n scope)).contains i).map (leftRelation complete left right s
        ((scopesOf left s n).foldl (markMoved s) fun _ => false)) := by
  have hkeeps : Relation.keeps lefts scope = fun r =>
      (!movedStatuses.contains r.status) && r.pairsIn lefts scope :=
    funext fun r => Bool.and_comm _ _
  rw [hkeeps, ← List.filter_filter, filter_pairsIn m hleft, List.filter_map]
  refine congrArg _ (List.filter_congr fun i hi => ?_)
  have hsome := (List.mem_filter.mp (List.mem_filter.mp hi).1).2
  rw [Function.comp_apply, leftRelation_moved hs.ambiguous hsome, moved_eq hi, Bool.not_not]

theorem partner_of_matchedIn (hi : i ∈ matchedIn left s n scope) :
    (leftRelation complete left right s moved i).right = ((s.partner i).getD 0 : Nat) := by
  have hsome := (List.mem_filter.mp (List.mem_filter.mp hi).1).2
  rcases leftRelation_right complete left right s moved i with
    ⟨-, hp⟩ | ⟨j, h, hp⟩
  · rw [hp] at hsome
    cases hsome
  · rw [h, hp]
    rfl

/-- What the passes leave is a proper matching, when the moves are marked from it. -/
theorem properMatch (hleft : ∀ i, left i = lefts.getD i [])
    (hs : s.Disjoint lefts.length rights.length) :
    ProperMatch lefts rights (allRelations complete left right s
      ((scopesOf left s lefts.length).foldl (markMoved s) fun _ => false) lefts.length
      rights.length) where
  range := relations_range hs
  left _ hi := relations_left rights.length hi
  right _ hj := relations_right hs hj
  inOrder scope := by
    rw [filter_keeps hleft hs]
    refine List.pairwise_map.mpr (List.Pairwise.imp_of_mem (fun {i i'} hi hi' h => ?_)
      (pairwise_matchedIn.filter _))
    obtain ⟨hi, hk⟩ := List.mem_filter.mp hi
    obtain ⟨hi', hk'⟩ := List.mem_filter.mp hi'
    refine ⟨Int.ofNat_lt.mpr h, ?_⟩
    rw [partner_of_matchedIn hi, partner_of_matchedIn hi']
    exact Int.ofNat_lt.mpr (kept_increasing (List.contains_iff_mem.mp hk)
      (List.contains_iff_mem.mp hk') h)
  longest scope l hl hp := by
    rw [filter_pairsIn rights.length hleft] at hl
    rw [filter_keeps hleft hs, List.length_map]
    -- The functions of the relations, which are in the order of the left side.
    have hback : ∀ r ∈ l, r.left.toNat ∈ matchedIn left s lefts.length scope ∧
        r.left = (r.left.toNat : Int) ∧ r.right = ((s.partner r.left.toNat).getD 0 : Nat) := by
      intro r hr
      obtain ⟨i, hi, rfl⟩ := List.mem_map.mp (hl hr)
      exact ⟨hi, rfl, partner_of_matchedIn hi⟩
    have hup : (l.map fun r => r.left.toNat).Pairwise (· < ·) := by
      refine List.pairwise_map.mpr (hp.imp_of_mem fun {r r'} hr hr' h => ?_)
      have h1 := (hback r hr).2.1
      have := h.1
      omega
    have hsub : (l.map fun r => r.left.toNat).Sublist (matchedIn left s lefts.length scope) := by
      have hnodup : (l.map fun r => r.left.toNat).Nodup := hup.imp fun h => Nat.ne_of_lt h
      refine List.sublist_of_subperm_of_pairwise (hnodup.subperm fun i hi => ?_)
        hup pairwise_matchedIn
      obtain ⟨r, hr, rfl⟩ := List.mem_map.mp hi
      exact (hback r hr).1
    have hchain : l.length ≤ (longestChain (scopePairs left s lefts.length scope)).length := by
      have := longestChain_longest (hsub.map fun i => (i, (s.partner i).getD 0)) (by
        refine List.pairwise_map.mpr
          (List.pairwise_map.mpr (hp.imp_of_mem fun {r r'} hr hr' h => ?_))
        have h1 := (hback r hr).2.2
        have h2 := (hback r' hr').2.2
        have := h.2
        omega)
      rwa [List.length_map, List.length_map] at this
    refine hchain.trans ?_
    have hkept : (keptInScope s (matchedIn left s lefts.length scope)).Nodup := by
      refine List.pairwise_map.mpr
        ((chain_increasing (pairwise_scopePairs left s _ scope)).1.imp fun h => ?_)
      exact Nat.ne_of_lt h.1
    have hall : keptInScope s (matchedIn left s lefts.length scope) ⊆
        (matchedIn left s lefts.length scope).filter fun i =>
          (keptInScope s (matchedIn left s lefts.length scope)).contains i := fun i hi =>
      List.mem_filter.mpr ⟨kept_subset hi, List.contains_iff_mem.mpr hi⟩
    have hle := (hkept.subperm hall).length_le
    rwa [keptInScope, List.length_map] at hle

end Relations

/-! ## `MatchFunctions` -/

/-- The functions of a document. -/
def functionsOf (document : Fields) : List Fields :=
  (document.value "functions").toValues.map QJson.toFields

/-- How the match of two documents fails. -/
def MatchFailure (limits : Budget) (left right : Fields) (e : Failure) : Prop :=
  SimilarityFailure limits e ∨ e = ⟨"FunctionLimit"⟩ ∧
    (10000 < (functionsOf left).length ∨ 10000 < (functionsOf right).length)

/-- Whether two documents are in languages that can be compared. -/
def comparable (left right : Fields) : Bool :=
  !(isPython left || isPython right) || left.sameField right "language"

theorem matchLists_yields {limits : Budget} {E : Failure → Prop} {python complete : Bool}
    {lefts rights : List Fields} (hE : ∀ e, SimilarityFailure limits e → E e)
    (hlimit : 10000 < lefts.length ∨ 10000 < rights.length → E ⟨"FunctionLimit"⟩) :
    Yields E (matchLists limits python complete lefts rights) fun result =>
      ProperMatch lefts rights result.relations := by
  have hcheck : ∀ count, Yields E (checkMany limits count) fun _ => True :=
    checkMany_yields fun e he => hE e (.inl he)
  refine (throwIf_yields hlimit).bind fun _ _ => ?_
  refine (hcheck _).skip fun _ => ?_
  have hnames := (foldl_disjoint (n := lefts.length) (m := rights.length)
    (fun _ _ => matchName_disjoint (fun i => lefts.getD i []) fun i => rights.getD i [])
    (groupBy_apart (fun i => (lefts.getD i []).text "name")
      (fun i => (rights.getD i []).text "name") (List.range lefts.length)
        (List.range rights.length))
    .start fun g hg => ⟨fun i hi => ⟨List.mem_range.mp ((groupBy_subset hg).1 hi), rfl, rfl⟩,
      fun j hj => ⟨List.mem_range.mp ((groupBy_subset hg).2 hj), rfl⟩⟩).1
  have hbodies : Yields E (matchBodies limits python (fun i => lefts.getD i [])
      (fun i => rights.getD i []) lefts.length rights.length _) fun t =>
        t.matching.Disjoint lefts.length rights.length :=
    (matchBodies_yields (fun i => lefts.getD i []) (fun i => rights.getD i []) hnames).mono hE
      fun _ h => h
  have hnone : Yields E (pure { matching := _ } : Run SimilarityState) fun t =>
    t.matching.Disjoint lefts.length rights.length := .pure hnames
  refine .ite (fun _ => hbodies.bind fun similar hs => ?_) fun _ => hnone.bind fun similar hs => ?_
  · refine (hcheck _).skip fun _ => (hcheck _).skip fun _ => (hcheck _).skip fun _ => .pure ?_
    exact properMatch (fun _ => rfl) hs
  · refine (hcheck _).skip fun _ => (hcheck _).skip fun _ => (hcheck _).skip fun _ => .pure ?_
    exact properMatch (fun _ => rfl) hs

/-- Two analysed sources in comparable languages get a proper matching. -/
theorem matchFunctions_proper (limits : Budget) {left right : Fields} (hl : isReady left = true)
    (hr : isReady right = true) (hc : comparable left right = true) :
    Yields (MatchFailure limits left right) (matchFunctions limits left right) fun result =>
      ProperMatch (functionsOf left) (functionsOf right) result.relations := by
  refine .ite (fun h => ?_) fun _ => ?_
  · rw [hl, hr] at h
    simp at h
  · dsimp only
    refine .ite (fun h => ?_) fun _ =>
      matchLists_yields (fun _ he => .inl he) fun h => .inr ⟨rfl, h⟩
    rw [comparable, h.1, h.2] at hc
    cases hc

/-- A document with the functions of these names. -/
def namedFunctions (language : String) (names : List String) : Fields :=
  [("status", .string "Complete"), ("language", .string language),
    ("functions", .array (names.map fun name => .object [("name", .string name)]))]

/-- The functions `f` and `g` change places, `h` stays, `old` is gone and two others are new. -/
theorem matchFunctions_proper_names :
    Yields (MatchFailure .unlimited (namedFunctions "cpp" ["f", "g", "h", "old"])
        (namedFunctions "cpp" ["g", "f", "h", "new", "more"]))
      (matchFunctions .unlimited (namedFunctions "cpp" ["f", "g", "h", "old"])
        (namedFunctions "cpp" ["g", "f", "h", "new", "more"])) fun result =>
        ProperMatch (functionsOf (namedFunctions "cpp" ["f", "g", "h", "old"]))
          (functionsOf (namedFunctions "cpp" ["g", "f", "h", "new", "more"])) result.relations := by
  refine matchFunctions_proper .unlimited ?_ ?_ ?_ <;> decide

/-- A document with one function of a language. -/
def oneFunction (language name : String) : Fields := namedFunctions language [name]

/-- Sources of other languages are not compared with Python: their functions are in no relation. -/
theorem matchFunctions_languages :
    (matchFunctions .unlimited (oneFunction "python" "f") (oneFunction "cpp" "f")).run {} =
      .ok ({ status := "Unavailable", reason := some "LanguageMismatch" }, {}) ∧
    ¬ ProperMatch (functionsOf (oneFunction "python" "f"))
      (functionsOf (oneFunction "cpp" "f")) [] := by
  refine ⟨by rfl, fun h => ?_⟩
  have := h.left 0 (by decide)
  cases this

end Hc.Compare
