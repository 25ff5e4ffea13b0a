import HyperCommander.Compare.InlineDiff
import HyperCommander.Compare.MergePlanLemmas

/-!
# What inline differences say

* `ofText_partition`: the clusters of a text make it up.
* `compareSpan_yields`, `compareLine_yields`: without their ranges the sides of a pair are the same.
* `inlineDiff_yields`, `inline_exact`: the ranges of two texts.
-/

namespace Hc.Compare

open Option List Slice Erasure

/-! ## Clusters -/

/-- The finder has a boundary at the beginning of a text. -/
def Clusters.StartsText (qt : Clusters) : Prop := ∀ text, text ≠ [] → qt.isAtBoundary text 0 = true

/-- The offsets go from the beginning of the text to its end. -/
structure Graphemes.Partition (g : Graphemes) : Prop where
  zero : g.offset 0 = 0
  last : g.offset g.size = g.text.length
  up : ∀ i < g.size, g.offset i < g.offset (i + 1)

section Clusters

variable {qt : Clusters} {text : Bytes} {g : Graphemes}

theorem scalarWidth_pos (lead : UInt8) : 0 < scalarWidth lead := by
  unfold scalarWidth
  split_ifs <;> decide

theorem boundariesFrom_mem {fuel i position run : Nat} :
    ∀ x ∈ boundariesFrom qt text fuel i position run, i ≤ x ∧ x < text.length := by
  induction fuel generalizing i position run with
  | zero => exact fun x hx => absurd hx not_mem_nil
  | succ fuel ih =>
    intro x hx
    rw [boundariesFrom] at hx
    split at hx
    · exact absurd hx not_mem_nil
    rename_i hi
    dsimp only at hx
    split at hx
    · rcases mem_cons.mp hx with rfl | hx
      · omega
      · have := ih x hx
        omega
    · have := ih x hx
      omega

theorem boundariesFrom_pairwise {fuel i position run : Nat} :
    (boundariesFrom qt text fuel i position run).Pairwise (· < ·) := by
  induction fuel generalizing i position run with
  | zero => exact .nil
  | succ fuel ih =>
    rw [boundariesFrom]
    split
    · exact .nil
    dsimp only
    have hpos := scalarWidth_pos (text.getD i 0)
    split
    · refine .cons (fun x hx => ?_) ih
      have := (boundariesFrom_mem x hx).1
      omega
    · exact ih

theorem boundariesFrom_head (hqt : qt.StartsText) (h : text ≠ []) :
    (boundariesFrom qt text text.length 0 0 0).head? = some 0 := by
  have hbegins : ∀ regional, clusterBegins qt text 0 0 regional = true := fun regional => by
    rw [clusterBegins, if_neg fun hc => hc.2 rfl, hqt text h]
  obtain ⟨n, hn⟩ := Nat.exists_eq_succ_of_ne_zero (fun hl => h (length_eq_zero_iff.mp hl))
  rw [hn, boundariesFrom, if_neg (by omega)]
  rw [if_pos (hbegins _)]
  rfl

/-- Rising offsets from the beginning to the end. -/
theorem partition_of {offsets : List Nat} (hup : offsets.Pairwise (· < ·))
    (h0 : offsets.head? = some 0) (hlast : offsets.getLast? = some text.length) :
    Graphemes.Partition ⟨text, offsets⟩ where
  zero := by
    rw [Graphemes.offset, getD_eq_getElem?_getD, ← head?_eq_getElem?, h0]
    rfl
  last := by
    rw [Graphemes.offset, Graphemes.size, getD_eq_getElem?_getD, ← getLast?_eq_getElem?, hlast]
    rfl
  up i hi := by
    unfold Graphemes.size at hi
    dsimp only at hi
    have hlt := pairwise_iff_getElem.mp hup i (i + 1) (by omega) (by omega) (Nat.lt_succ_self i)
    rw [Graphemes.offset, Graphemes.offset, getD_eq_getElem _ _ (by omega : i < offsets.length),
      getD_eq_getElem _ _ (by omega : i + 1 < offsets.length)]
    exact hlt

/-- The clusters of a text make it up. -/
theorem ofText_partition (hqt : qt.StartsText) (text : Bytes) :
    (Graphemes.ofText qt text).Partition := by
  unfold Graphemes.ofText
  split
  · refine partition_of pairwise_lt_range ?_ ?_
    · rw [range_succ_eq_map]
      rfl
    · rw [range_succ, getLast?_concat]
  · rename_i hascii
    have hne : text ≠ [] := fun h => hascii (by rw [h]; rfl)
    have hhead := boundariesFrom_head hqt hne
    refine partition_of ?_ ?_ getLast?_concat
    · refine pairwise_append.mpr ⟨boundariesFrom_pairwise, pairwise_singleton _ _, ?_⟩
      intro x hx y hy
      rw [mem_singleton.mp hy]
      exact (boundariesFrom_mem x hx).2
    · rw [head?_append, hhead]
      rfl

theorem length_all : g.all.length = g.size := by
  rw [Graphemes.all, length_map, length_range]

namespace Graphemes.Partition

variable {i j : Nat}

theorem le (h : g.Partition) (hij : i ≤ j) (hj : j ≤ g.size) : g.offset i ≤ g.offset j := by
  induction j with
  | zero => rw [Nat.le_zero.mp hij]
  | succ j ih =>
    rcases Nat.eq_or_lt_of_le hij with rfl | hlt
    · exact Nat.le_refl _
    · exact (ih (by omega) (by omega)).trans (h.up j (by omega)).le

theorem lt (h : g.Partition) (hij : i < j) (hj : j ≤ g.size) : g.offset i < g.offset j :=
  (h.up i (by omega)).trans_le (h.le hij hj)

theorem le_length (h : g.Partition) (hi : i ≤ g.size) : g.offset i ≤ g.text.length := by
  rw [← h.last]
  exact h.le hi (Nat.le_refl _)

/-- A part of the text is made up of clusters. -/
theorem slice_offsets (h : g.Partition) (hij : i ≤ j) (hj : j ≤ g.size) :
    slice g.text (g.offset i) (g.offset j) = (slice g.all i j).flatten := by
  induction j with
  | zero => rw [Nat.le_zero.mp hij, slice_self, slice_self]; rfl
  | succ j ih =>
    rcases Nat.eq_or_lt_of_le hij with rfl | hlt
    · rw [slice_self, slice_self]
      rfl
    · have hget : g.all[j]? = some (g.at_ j) := by
        rw [Graphemes.all, getElem?_map, getElem?_range (by omega)]
        rfl
      rw [slice_succ (by omega) hget, flatten_append, ← ih (by omega) (by omega),
        flatten_singleton, Graphemes.at_, slice_append (h.le (by omega) (by omega))
          (h.up j (by omega)).le]

/-- The range of `k` clusters from `i` on. -/
theorem gap_offsets {k : Nat} (h : g.Partition) (hk : i + k ≤ g.size) :
    (if k ≠ 0 then [(g.offset i, g.offset (i + k))] else []) =
      gap (g.offset i) (g.offset (i + k)) := by
  unfold gap
  rcases Nat.eq_zero_or_pos k with rfl | hpos
  · rw [if_neg (not_not.mpr rfl), Nat.add_zero, if_pos rfl]
  · have := h.lt (by omega : i < i + k) hk
    rw [if_pos (by omega), if_neg (by omega)]

/-- The clusters of a part and where they lie. -/
theorem clusters {k n : Nat} (h : g.Partition) (hk : k + n ≤ g.size) :
    ∀ i < (slice g.all k (k + n)).length, g.offset (k + i) < g.offset (k + (i + 1)) ∧
      (slice g.all k (k + n))[i]? =
        some (slice g.text (g.offset (k + i)) (g.offset (k + (i + 1)))) := by
  intro i hi
  rw [length_slice (by rw [length_all]; exact hk)] at hi
  refine ⟨h.up _ (by omega), ?_⟩
  rw [getElem?_slice hi, Graphemes.all, getElem?_map, getElem?_range (by omega)]
  rfl

end Graphemes.Partition

end Clusters

/-! ## Anchors -/

section Anchors

variable {qt : Clusters} {g : Graphemes}

/-- Words lie in order in the text, and none is empty. -/
theorem wordsFrom_spaced (hg : g.Partition) {fuel i begin_ count lo : Nat}
    (hi : i + fuel = g.size + 1) (hc : 0 < count → begin_ < i) (hlo : lo ≤ g.text.length)
    (hbegin : i ≤ g.size → lo ≤ g.offset (if count = 0 then i else begin_)) :
    Spaced lo g.text.length (wordsFrom qt g fuel i begin_ count) := by
  induction fuel generalizing i begin_ count lo with
  | zero => exact hlo
  | succ fuel ih =>
    have hnext : ∀ {j}, j ≤ i → i + 1 ≤ g.size → g.offset j ≤ g.offset (i + 1) := fun hj h =>
      hg.le (by omega) h
    rw [wordsFrom]
    split
    · rename_i hword
      refine ih (by omega) (fun _ => ?_) hlo fun _ => ?_
      · split <;> omega
      · rw [if_neg (Nat.succ_ne_zero _)]
        exact hbegin (by omega)
    · have hb := hbegin (by omega)
      split
      · rename_i hcount
        rw [if_neg (by omega)] at hb
        refine ⟨hb, hg.lt (hc (by omega)) (by omega), ?_⟩
        refine ih (by omega) (fun h => absurd h (Nat.lt_irrefl 0))
          (hg.le_length (by omega)) fun h => ?_
        rw [if_pos rfl]
        exact hnext (Nat.le_refl _) h
      · refine ih (by omega) (fun h => absurd h (Nat.lt_irrefl 0)) hlo fun h => ?_
        rw [if_pos rfl]
        refine hb.trans ?_
        split
        · exact hnext (Nat.le_refl _) h
        · exact hnext (by have := hc (by omega); omega) h

theorem words_spaced (hg : g.Partition) : Spaced 0 g.text.length (words qt g) :=
  wordsFrom_spaced hg (Nat.zero_add _) (fun h => absurd h (Nat.lt_irrefl 0)) (Nat.zero_le _)
    fun _ => Nat.zero_le _

variable {left right : Bytes} {lefts rights : List Word} {candidates : List Anchor}

/-- A candidate is a word of both lines. -/
theorem anchorCandidates_mem {anchor : Anchor}
    (h : anchor ∈ anchorCandidates left right lefts rights) :
    anchor.1 ∈ lefts ∧ anchor.2 ∈ rights ∧ wordText left anchor.1 = wordText right anchor.2 := by
  obtain ⟨word, hword, h⟩ := mem_filterMap.mp h
  dsimp only at h
  split at h
  · obtain ⟨other, hother, rfl⟩ := map_eq_some_iff.mp h
    have hsame := find?_some hother
    exact ⟨hword, mem_of_find?_eq_some hother, (beq_iff_eq.mp hsame).symm⟩
  · cases h

theorem anchorCandidates_pairwise (h : lefts.Pairwise fun r s => r.2 ≤ s.1) :
    (anchorCandidates left right lefts rights).Pairwise fun r s => r.1.2 ≤ s.1.1 := by
  refine List.Pairwise.filterMap _ (fun w w' hw a ha a' ha' => ?_) h
  have hfirst : ∀ {word : Word} {anchor : Anchor},
      anchor ∈ (if (lefts.countP fun w => wordText left w == wordText left word) = 1 ∧
          (rights.countP fun w => wordText right w == wordText left word) = 1 then
        (rights.find? fun w => wordText right w == wordText left word).map
          fun other => (word, other)
        else none) → anchor.1 = word := by
    intro word anchor hm
    split at hm
    · obtain ⟨other, -, rfl⟩ := map_eq_some_iff.mp hm
      rfl
    · cases hm
  rw [hfirst ha, hfirst ha']
  exact hw

/-- Words of one text that do not begin in one place do not overlap. -/
theorem words_apart {n : Nat} (h : Spaced 0 n rights) {w w' : Word} (hw : w ∈ rights)
    (hw' : w' ∈ rights) (hlt : w.1 < w'.1) : w.2 ≤ w'.1 := by
  obtain ⟨i, hi, rfl⟩ := mem_iff_getElem.mp hw
  obtain ⟨j, hj, rfl⟩ := mem_iff_getElem.mp hw'
  have hpair := pairwise_iff_getElem.mp h.pairwise
  rcases Nat.lt_trichotomy i j with hij | rfl | hji
  · exact hpair i j hi hj hij
  · exact absurd hlt (Nat.lt_irrefl _)
  · have := hpair j i hj hi hji
    have := (h.mem hw').2.1
    omega

/-- The chosen anchors go up in both lines, and the candidates they come from are theirs. -/
theorem chosenAnchors_spec {n : Nat} (hc : candidates.Pairwise fun r s => r.1.2 ≤ s.1.1)
    (hr : ∀ anchor ∈ candidates, anchor.2 ∈ rights) (hcuts : Spaced 0 n rights) :
    (chosenAnchors candidates).Pairwise (fun r s => r.1.2 ≤ s.1.1 ∧ r.2.2 ≤ s.2.1) ∧
      ∀ anchor ∈ chosenAnchors candidates, anchor ∈ candidates := by
  refine ⟨?_, fun anchor ha => ?_⟩
  · have hfirst : (candidates.zipIdx.map fun c => (c.2, c.1.2.1)).Pairwise fun p q =>
      p.1 < q.1 := by
      rw [pairwise_map, pairwise_iff_getElem]
      intro i j hi hj hij
      rw [getElem_zipIdx, getElem_zipIdx]
      omega
    obtain ⟨hup, hmem⟩ := chain_increasing hfirst
    -- A pair of the chain has the place of its candidate and where it begins on the right.
    have hplace : ∀ p ∈ longestChain (candidates.zipIdx.map fun c => (c.2, c.1.2.1)), ∀ a : Anchor,
        candidates[p.1]? = some a → p.2 = a.2.1 := by
      intro p hp a ha
      obtain ⟨c, hc, rfl⟩ := mem_map.mp (hmem p hp)
      have hget := mem_zipIdx_iff_getElem?.mp hc
      rw [ha] at hget
      rw [some.inj hget]
    refine List.Pairwise.filterMap _ (fun p q hpq a ha a' ha' => ?_) (List.Pairwise.and_mem.mp hup)
    obtain ⟨hp, hq, hlt, hright⟩ := hpq
    obtain ⟨hi, rfl⟩ := List.getElem?_eq_some_iff.mp ha
    obtain ⟨hj, rfl⟩ := List.getElem?_eq_some_iff.mp ha'
    refine ⟨pairwise_iff_getElem.mp hc _ _ hi hj hlt, ?_⟩
    rw [hplace p hp _ ha, hplace q hq _ ha'] at hright
    exact words_apart hcuts (hr _ (getElem_mem hi)) (hr _ (getElem_mem hj)) hright
  · obtain ⟨p, -, hp⟩ := mem_filterMap.mp ha
    exact mem_of_getElem? hp

end Anchors

/-! ## A span -/

section Span

variable {as bs : List Bytes} {table : List (List Nat)} {i j n m : Nat}

theorem sharedPrefix_spec (as bs : List Bytes) : sharedPrefix as bs ≤ as.length ∧
    sharedPrefix as bs ≤ bs.length ∧
    as.take (sharedPrefix as bs) = bs.take (sharedPrefix as bs) := by
  induction as generalizing bs with
  | nil => exact ⟨Nat.zero_le _, Nat.zero_le _, rfl⟩
  | cons x as ih =>
    cases bs with
    | nil => exact ⟨Nat.zero_le _, Nat.zero_le _, rfl⟩
    | cons y bs =>
      rw [sharedPrefix]
      split
      · rename_i hxy
        obtain ⟨h1, h2, h3⟩ := ih bs
        refine ⟨Nat.succ_le_succ h1, Nat.succ_le_succ h2, ?_⟩
        rw [take_succ_cons, take_succ_cons, h3, hxy]
      · exact ⟨Nat.zero_le _, Nat.zero_le _, rfl⟩

/-- What two lists share behind a common beginning. -/
theorem sharedSuffix_spec (as bs : List Bytes) (start shared : Nat)
    (h : shared = sharedPrefix (as.drop start).reverse (bs.drop start).reverse) :
    shared ≤ as.length - start ∧ shared ≤ bs.length - start ∧
      as.drop (as.length - shared) = bs.drop (bs.length - shared) := by
  obtain ⟨h1, h2, h3⟩ := sharedPrefix_spec (as.drop start).reverse (bs.drop start).reverse
  rw [← h] at h1 h2 h3
  rw [length_reverse, length_drop] at h1 h2
  refine ⟨h1, h2, ?_⟩
  rw [take_reverse, take_reverse, length_drop, length_drop, drop_drop,
    drop_drop, reverse_inj] at h3
  rcases Nat.lt_or_ge start as.length with hs | hs
  · rcases Nat.lt_or_ge start bs.length with hb | hb
    · rwa [show start + (as.length - start - shared) = as.length - shared by omega,
        show start + (bs.length - start - shared) = bs.length - shared by omega] at h3
    · rw [drop_of_length_le (by omega), drop_of_length_le (by omega)]
  · rw [drop_of_length_le (by omega), drop_of_length_le (by omega)]

/-- The sides go on in the inner loop, and stay within their ends. -/
theorem skipFrom_spec {fuel : Nat} (hf : 0 < fuel) (hi : i ≤ as.length) (hj : j ≤ bs.length)
    (hrest : i < as.length ∨ j < bs.length) :
    i ≤ (skipFrom as bs table fuel i j).1 ∧ (skipFrom as bs table fuel i j).1 ≤ as.length ∧
      j ≤ (skipFrom as bs table fuel i j).2 ∧ (skipFrom as bs table fuel i j).2 ≤ bs.length ∧
      i + j < (skipFrom as bs table fuel i j).1 + (skipFrom as bs table fuel i j).2 := by
  induction fuel generalizing i j with
  | zero => exact absurd hf (Nat.lt_irrefl 0)
  | succ fuel ih =>
    rw [skipFrom]
    generalize hnext :
      (if i < as.length ∧ (j = bs.length ∨ tableAt table (i + 1) j ≥ tableAt table i (j + 1))
        then (i + 1, j) else (i, j + 1)) = next
    have hstep : i ≤ next.1 ∧ next.1 ≤ as.length ∧ j ≤ next.2 ∧ next.2 ≤ bs.length ∧
        i + j < next.1 + next.2 := by
      rw [← hnext]
      split
      · dsimp only
        omega
      · rename_i hc
        omega
    split
    · rename_i hmore
      rcases Nat.eq_zero_or_pos fuel with rfl | hpos
      · rw [skipFrom]
        exact hstep
      · have := ih hpos hstep.2.1 hstep.2.2.2.1 hmore.1
        omega
    · exact hstep

/-- What the outer loop finds: without the ranges, the rest of the sides is the same. -/
theorem tracebackFrom_matched (table : List (List Nat)) {l r : Bytes} {a b : Nat → Nat}
    {fuel : Nat}
    (ha : ∀ i < as.length, a i < a (i + 1) ∧ as[i]? = some (slice l (a i) (a (i + 1))))
    (hb : ∀ j < bs.length, b j < b (j + 1) ∧ bs[j]? = some (slice r (b j) (b (j + 1))))
    (hi : i ≤ as.length) (hj : j ≤ bs.length) (hf : as.length - i + (bs.length - j) ≤ fuel) :
    Matched l r (a i) (a as.length) (b j) (b bs.length) (tracebackFrom as bs table a b fuel i j).1
      (tracebackFrom as bs table a b fuel i j).2 := by
  have hup : ∀ {f : Nat → Nat} {k x y : Nat}, (∀ i < k, f i < f (i + 1)) → x ≤ y → y ≤ k →
      f x ≤ f y := by
    intro f k x y h hxy hy
    induction y with
    | zero => rw [Nat.le_zero.mp hxy]
    | succ y ih =>
      rcases Nat.eq_or_lt_of_le hxy with rfl | hlt
      · exact Nat.le_refl _
      · exact (ih (by omega) (by omega)).trans (h y (by omega)).le
  have hgap : ∀ {f : Nat → Nat} {k x y : Nat}, (∀ i < k, f i < f (i + 1)) → x ≤ y → y ≤ k →
      (if y ≠ x then [(f x, f y)] else []) = gap (f x) (f y) := by
    intro f k x y h hxy hy
    unfold gap
    rcases Nat.eq_or_lt_of_le hxy with rfl | hlt
    · rw [if_neg (not_not.mpr rfl), if_pos rfl]
    · have := h x (by omega)
      have := hup h (by omega : x + 1 ≤ y) hy
      rw [if_pos (by omega), if_neg (by omega)]
  have ha' := fun i hi => (ha i hi).1
  have hb' := fun j hj => (hb j hj).1
  induction fuel generalizing i j with
  | zero =>
    obtain rfl : i = as.length := by omega
    obtain rfl : j = bs.length := by omega
    exact .same (Nat.le_refl _) (Nat.le_refl _) (by rw [slice_self, slice_self])
  | succ fuel ih =>
    rw [tracebackFrom]
    split
    · rename_i hend
      obtain rfl : i = as.length := by omega
      obtain rfl : j = bs.length := by omega
      exact .same (Nat.le_refl _) (Nat.le_refl _) (by rw [slice_self, slice_self])
    rename_i hrest
    split
    · rename_i hsame
      obtain ⟨hia, hjb, heq⟩ := hsame
      rw [(ha i hia).2, (hb j hjb).2] at heq
      exact (Matched.same (ha' i hia).le (hb' j hjb).le (some.inj heq)).append
        (ih (by omega) (by omega) (by omega))
    · obtain ⟨h1, h2, h3, h4, h5⟩ :=
        @skipFrom_spec as bs table i j _ (by omega : 0 < as.length + bs.length)
        hi hj (not_not.mp hrest)
      dsimp only
      rw [hgap ha' h1 h2, hgap hb' h3 h4]
      exact (Matched.gaps (hup ha' h1 h2) (hup hb' h3 h4)).append (ih h2 h4 (by omega))

end Span

/-! ## What is used -/

/-- The cells of a pair that began at `lineStart`: no more than its own bound and the bound of
all. -/
structure Within (limits : Budget) (lineStart cells : Nat) : Prop where
  from_ : lineStart ≤ cells
  line : cells - lineStart ≤ 262144
  all : cells ≤ min 4000000 limits.steps

section Search

variable {qt : Clusters} {limits : Budget} {l r : Bytes} {cells lineStart : Nat}

/-- A failure has the cells that were used. -/
theorem charge_within {α : Type} {m : Run α} {Q : α → Prop} (h : Yields (fun _ => True) m Q)
    (hw : Within limits lineStart cells) :
    Yields (fun e => Within limits lineStart e.2) (charge cells m) Q := by
  refine .of_runs (fun w a w' hrun => ?_) fun w e hrun => ?_
  · unfold charge StateT.run at hrun
    dsimp only at hrun
    split at hrun
    · rename_i heq
      cases hrun
      exact h.of_ok heq
    · cases hrun
  · unfold charge StateT.run at hrun
    dsimp only at hrun
    split at hrun
    · cases hrun
    · cases hrun
      exact hw

/-- A part that both sides begin with, the ranges of a middle, and a part that both end with. -/
theorem matched_between {a b : Graphemes} (ha : a.Partition) (hb : b.Partition)
    {start n m shared : Nat} (hsizeA : start + n + shared = a.size)
    (hsizeB : start + m + shared = b.size)
    (hstart : a.all.take start = b.all.take start)
    (hend : a.all.drop (a.size - shared) = b.all.drop (b.size - shared)) (ranges : SideRanges)
    (h : Matched a.text b.text (a.offset start) (a.offset (start + n)) (b.offset start)
      (b.offset (start + m)) ranges.1 ranges.2) :
    Matched a.text b.text 0 a.text.length 0 b.text.length ranges.1 ranges.2 := by
  have hfront : Matched a.text b.text 0 (a.offset start) 0 (b.offset start) [] [] := by
    refine .same (Nat.zero_le _) (Nat.zero_le _) ?_
    have h1 := ha.slice_offsets (Nat.zero_le start) (by omega)
    have h2 := hb.slice_offsets (Nat.zero_le start) (by omega)
    rw [ha.zero] at h1
    rw [hb.zero] at h2
    rw [h1, h2, slice_zero, slice_zero, hstart]
  have hback : Matched a.text b.text (a.offset (start + n)) a.text.length (b.offset (start + m))
      b.text.length [] [] := by
    refine .same (ha.le_length (by omega)) (hb.le_length (by omega)) ?_
    have h1 := ha.slice_offsets (by omega : start + n ≤ a.size) (Nat.le_refl _)
    have h2 := hb.slice_offsets (by omega : start + m ≤ b.size) (Nat.le_refl _)
    rw [ha.last] at h1
    rw [hb.last] at h2
    rw [h1, h2, ← length_all, ← length_all, slice_to_length, slice_to_length,
      show start + n = a.size - shared by omega, show start + m = b.size - shared by omega, hend]
  have := (hfront.append h).append hback
  rwa [nil_append, nil_append, append_nil, append_nil] at this

/-- What `compareSpan` finds. -/
theorem compareSpan_yields (hqt : qt.StartsText) (hw : Within limits lineStart cells) :
    Yields (fun e => Within limits lineStart e.2)
      (compareSpan qt limits l r cells lineStart) fun out =>
      Within limits lineStart out.2 ∧ (out.2 - cells) * 2 ≤ limits.traceBytes ∧ ∀ ranges ∈ out.1,
        Matched l r 0 l.length 0 r.length ranges.1 ranges.2 := by
  refine .ite (fun _ => .pure ⟨hw, by omega, nofun⟩) fun _ => ?_
  have ha := ofText_partition hqt l
  have hb := ofText_partition hqt r
  dsimp only
  generalize hstart : sharedPrefix (Graphemes.ofText qt l).all (Graphemes.ofText qt r).all = start
  generalize hshared : sharedPrefix ((Graphemes.ofText qt l).all.drop start).reverse
    ((Graphemes.ofText qt r).all.drop start).reverse = shared
  obtain ⟨h1, h2, hfront⟩ :=
    sharedPrefix_spec (Graphemes.ofText qt l).all (Graphemes.ofText qt r).all
  obtain ⟨h3, h4, hback⟩ :=
    sharedSuffix_spec (Graphemes.ofText qt l).all (Graphemes.ofText qt r).all
    start shared hshared.symm
  rw [hstart] at h1 h2 hfront
  rw [length_all] at h1 h2 h3 h4
  rw [length_all, length_all] at hback
  generalize hn : (Graphemes.ofText qt l).size - start - shared = n
  generalize hm : (Graphemes.ofText qt r).size - start - shared = m
  have hsizeA : start + n + shared = (Graphemes.ofText qt l).size := by omega
  have hsizeB : start + m + shared = (Graphemes.ofText qt r).size := by omega
  have hbetween := matched_between ha hb hsizeA hsizeB hfront hback
  refine .ite (fun hempty => .pure ⟨hw, by omega, fun ranges hr => ?_⟩) fun _ => ?_
  · obtain rfl := some.inj hr
    refine hbetween _ ?_
    rw [hempty.1, hempty.2]
    exact .same (Nat.le_refl _) (Nat.le_refl _) (by rw [Nat.add_zero, slice_self, slice_self])
  refine .ite (fun hone => .pure ⟨hw, by omega, fun ranges hr => ?_⟩) fun hboth => ?_
  · obtain rfl := some.inj hr
    refine hbetween _ ?_
    rw [ha.gap_offsets (by omega), hb.gap_offsets (by omega)]
    exact .gaps (ha.le (by omega) (by omega)) (hb.le (by omega) (by omega))
  generalize (n + 1) * (m + 1) = count
  refine .ite (fun _ => .pure ⟨hw, by omega, nofun⟩) fun hfits => ?_
  have hw' : Within limits lineStart (cells + count) := by
    obtain ⟨hw1, hw2, hw3⟩ := hw
    exact ⟨by omega, by omega, by omega⟩
  refine (charge_within (checkMany_yields (fun _ _ => trivial) n) hw').bind fun _ _ => .pure
    ⟨hw', by omega, fun ranges hr => ?_⟩
  obtain rfl := some.inj hr
  have hlenA : (slice (Graphemes.ofText qt l).all start (start + n)).length = n := by
    rw [length_slice (by rw [length_all]; omega)]
    omega
  have hlenB : (slice (Graphemes.ofText qt r).all start (start + m)).length = m := by
    rw [length_slice (by rw [length_all]; omega)]
    omega
  have hfuel : (slice (Graphemes.ofText qt l).all start (start + n)).length - 0 +
      ((slice (Graphemes.ofText qt r).all start (start + m)).length - 0) ≤ n + m := by omega
  have htrace := tracebackFrom_matched
    (lcsTable (slice (Graphemes.ofText qt l).all start (start + n))
      (slice (Graphemes.ofText qt r).all start (start + m)))
    (ha.clusters (by omega : start + n ≤ _)) (hb.clusters (by omega : start + m ≤ _))
    (Nat.zero_le _) (Nat.zero_le _) hfuel
  rw [hlenA, hlenB] at htrace
  exact hbetween _ htrace

/-- The anchors lie in order from `left` and `right` on, and stand for equal words. -/
def Anchored (l r : Bytes) : (left right : Nat) → List Anchor → Prop
  | left, right, [] => left = l.length ∧ right = r.length
  | left, right, a :: anchors => left ≤ a.1.1 ∧ a.1.1 ≤ a.1.2 ∧ a.1.2 ≤ l.length ∧ right ≤ a.2.1 ∧
      a.2.1 ≤ a.2.2 ∧ a.2.2 ≤ r.length ∧ wordText l a.1 = wordText r a.2 ∧
      Anchored l r a.1.2 a.2.2 anchors

/-- The loop over the anchors takes ranges of what lies in front to those of the line. -/
theorem compareAnchors_yields (hqt : qt.StartsText) {anchors : List Anchor} {left right : Nat}
    {out : SideRanges} (hanchors : Anchored l r left right anchors)
    (hw : Within limits lineStart cells) (hout : Matched l r 0 left 0 right out.1 out.2) :
    Yields (fun e => Within limits lineStart e.2)
      (compareAnchors qt limits l r lineStart left right anchors out cells) fun out =>
        Within limits lineStart out.2 ∧ ∀ ranges ∈ out.1,
          Matched l r 0 l.length 0 r.length ranges.1 ranges.2 := by
  induction anchors generalizing left right out cells with
  | nil =>
    obtain ⟨rfl, rfl⟩ := hanchors
    exact .pure ⟨hw, fun ranges hr => some.inj hr ▸ hout⟩
  | cons a anchors ih =>
    obtain ⟨h1, h2, h3, h4, h5, h6, hword, hrest⟩ := hanchors
    refine (charge_within (Budget.check_yields fun _ _ => trivial) hw).skip fun _ => ?_
    refine (compareSpan_yields hqt hw).bind fun found ⟨hfound, _, hranges⟩ => ?_
    obtain ⟨ranges, cells'⟩ := found
    cases ranges with
    | none => exact .pure ⟨hfound, nofun⟩
    | some ranges =>
      refine ih hrest hfound ?_
      have hlenL : (slice l left a.1.1).length = a.1.1 - left := length_slice (by omega)
      have hlenR : (slice r right a.2.1).length = a.2.1 - right := length_slice (by omega)
      have hspan := (hranges ranges rfl).moveUp (by omega) (by omega)
      rw [hlenL, hlenR, Nat.zero_add, Nat.zero_add, Nat.sub_add_cancel h1,
        Nat.sub_add_cancel h4] at hspan
      have hnext := (hout.append hspan).append (.same h2 h5 hword)
      rwa [append_nil, append_nil] at hnext

/-- Anchors in order, and the one at the end. -/
theorem anchored_of {anchors : List Anchor} {left right : Nat}
    (hl : left ≤ l.length ∧ ∀ a ∈ anchors, left ≤ a.1.1)
    (hr : right ≤ r.length ∧ ∀ a ∈ anchors, right ≤ a.2.1)
    (hup : anchors.Pairwise fun a b => a.1.2 ≤ b.1.1 ∧ a.2.2 ≤ b.2.1)
    (hin : ∀ a ∈ anchors, (a.1.1 ≤ a.1.2 ∧ a.1.2 ≤ l.length) ∧ (a.2.1 ≤ a.2.2 ∧ a.2.2 ≤ r.length) ∧
      wordText l a.1 = wordText r a.2) :
    Anchored l r left right (anchors ++ [((l.length, l.length), (r.length, r.length))]) := by
  induction anchors generalizing left right with
  | nil =>
    refine ⟨hl.1, Nat.le_refl _, Nat.le_refl _, hr.1, Nat.le_refl _, Nat.le_refl _, ?_, rfl, rfl⟩
    rw [wordText, wordText, slice_self, slice_self]
  | cons a anchors ih =>
    obtain ⟨hfirst, hrest⟩ := pairwise_cons.mp hup
    obtain ⟨⟨h1, h2⟩, ⟨h3, h4⟩, hword⟩ := hin a mem_cons_self
    refine ⟨hl.2 a mem_cons_self, h1, h2, hr.2 a mem_cons_self, h3, h4, hword, ?_⟩
    exact ih ⟨h2, fun b hb => (hfirst b hb).1⟩ ⟨h4, fun b hb => (hfirst b hb).2⟩ hrest
      fun b hb => hin b (mem_cons_of_mem _ hb)

/-- What `compareLine` finds: without the ranges the sides are the same. -/
theorem compareLine_yields (hqt : qt.StartsText) (hw : cells ≤ min 4000000 limits.steps) :
    Yields (fun e => Within limits cells e.2) (compareLine qt limits l r cells) fun out =>
      Within limits cells out.2 ∧ ∀ ranges ∈ out.1,
        Matched l r 0 l.length 0 r.length ranges.1 ranges.2 := by
  have hstart : Within limits cells cells := ⟨Nat.le_refl _, by omega, hw⟩
  refine .ite (fun _ => .pure ⟨hstart, nofun⟩) fun _ => ?_
  refine .ite (fun hsame => .pure ⟨hstart, fun ranges hr => ?_⟩) fun _ => ?_
  · obtain rfl := some.inj hr
    subst hsame
    exact .same (Nat.zero_le _) (Nat.zero_le _) rfl
  have hwords : Yields (fun _ => True) (wordAnchors qt limits l r) fun anchors =>
      Anchored l r 0 0 (anchors ++ [((l.length, l.length), (r.length, r.length))]) := by
    refine .past fun _ => .past fun _ => .past fun _ => Yields.pure ?_
    have hlefts := @words_spaced qt _ (ofText_partition hqt l)
    have hrights := @words_spaced qt _ (ofText_partition hqt r)
    obtain ⟨hup, hmem⟩ := chosenAnchors_spec
      (@anchorCandidates_pairwise l r _ _ hlefts.pairwise)
      (fun a ha => (anchorCandidates_mem ha).2.1) hrights
    refine anchored_of ⟨Nat.zero_le _, fun _ _ => Nat.zero_le _⟩
      ⟨Nat.zero_le _, fun _ _ => Nat.zero_le _⟩
      hup fun a ha => ?_
    obtain ⟨hl, hr, hword⟩ := anchorCandidates_mem (hmem a ha)
    have h1 := hlefts.mem hl
    have h2 := hrights.mem hr
    exact ⟨⟨h1.2.1.le, h1.2.2⟩, ⟨h2.2.1.le, h2.2.2⟩, hword⟩
  refine (charge_within hwords hstart).bind fun anchors hanchors => ?_
  refine compareAnchors_yields hqt hanchors hstart (.same (Nat.le_refl _) (Nat.le_refl _) ?_)
  rw [slice_self, slice_self]

end Search

/-! ## The texts -/

/-- A pair of lines with the ranges that were found for it. -/
structure FoundPair where
  line : Nat
  other : Nat
  ranges : SideRanges

/-- The lines that an edit pairs. -/
def pairsOf (edit : Edit) : List (Nat × Nat) :=
  (List.range (pairCount edit)).map fun k => (edit.begin_ + k, edit.otherBegin + k)

/-- Where a line ends, without its terminator. -/
def contentEnd (text : List Line) (line : Nat) : Nat :=
  lineBegin text line + (lineContent (lineAt text line)).length

/-- Without their ranges, the two lines are the same up to their terminators. -/
def FoundPair.Exact (left right : Bytes) (f : FoundPair) : Prop :=
  Matched left right (lineBegin (lines left) f.line) (contentEnd (lines left) f.line)
    (lineBegin (lines right) f.other) (contentEnd (lines right) f.other) f.ranges.1 f.ranges.2

/-- What the loops have found in the pairs they have passed. -/
structure FoundIn (limits : Budget) (left right : Bytes) (passed : List (Nat × Nat))
    (s : InlineState) (found : List FoundPair) : Prop where
  pairs : (found.map fun f => (f.line, f.other)).Sublist passed
  ranges : s.ranges = (found.flatMap fun f => f.ranges.1, found.flatMap fun f => f.ranges.2)
  exact : ∀ f ∈ found, f.Exact left right
  completed : s.completed = found.length
  attempted : s.completed ≤ s.attempted ∧ s.completed ≤ 4096
  cells : s.cells ≤ min 4000000 limits.steps
  count : s.ranges.1.length + s.ranges.2.length = s.count ∧ s.count ≤ 32768

section Texts

variable {qt : Clusters} {limits : Budget} {left right : Bytes} {passed : List (Nat × Nat)}
  {s : InlineState} {found : List FoundPair}

theorem lineContent_isPrefix (line : Line) : lineContent line <+: line := by
  have hdrop : ∀ (x : Line) (c : UInt8), (if x.getLast? = some c then x.dropLast else x) <+: x := by
    intro x c
    split
    · exact dropLast_prefix x
    · exact prefix_rfl
  exact (hdrop _ cr).trans (hdrop line lf)

/-- The contents of a line lie in the text. -/
theorem slice_content {text : Bytes} {line : Nat} (h : line < (lines text).length) :
    lineContent (lineAt (lines text) line) =
        slice text (lineBegin (lines text) line) (contentEnd (lines text) line) ∧
      contentEnd (lines text) line ≤ lineBegin (lines text) (line + 1) := by
  have hcut := cut_lines (Nat.le_succ line) h
  have hone : append (lines text) line (line + 1) = lineAt (lines text) line := by
    rw [append, slice_cons (Nat.lt_succ_self line) (getElem?_eq_getElem h), lineAt,
      getD_eq_getElem _ _ h]
    simp
  rw [lines_flatten, hone] at hcut
  have hadd : _ + (append (lines text) line (line + 1)).length = _ :=
    length_add_append (Nat.le_succ line)
  rw [hone] at hadd
  have hle : (lineContent (lineAt (lines text) line)).length ≤ (lineAt (lines text) line).length :=
    (lineContent_isPrefix _).length_le
  refine ⟨?_, ?_⟩
  · calc lineContent (lineAt (lines text) line)
        = (lineAt (lines text) line).take (lineContent (lineAt (lines text) line)).length :=
          prefix_iff_eq_take.mp (lineContent_isPrefix _)
      _ = ((text.drop (append (lines text) 0 line).length).take
            (lineAt (lines text) line).length).take
            (lineContent (lineAt (lines text) line)).length := by rw [hcut]
      _ = _ := by
        rw [take_take, Nat.min_eq_left hle, slice, contentEnd, Nat.add_sub_cancel_left]
        rfl
  · unfold contentEnd lineBegin
    omega

theorem FoundIn.more (h : FoundIn limits left right passed s found) (rest : List (Nat × Nat)) :
    FoundIn limits left right (passed ++ rest) s found :=
  { h with pairs := h.pairs.trans (sublist_append_left passed rest) }

/-- A pair that is found. -/
theorem FoundIn.push (h : FoundIn limits left right passed s found) {f : FoundPair} {n : Nat}
    (hexact : f.Exact left right) (hn : f.ranges.1.length + f.ranges.2.length = n)
    (hcount : n ≤ 32768 - s.count)
    (hattempted : s.completed + 1 ≤ s.attempted ∧ s.completed + 1 ≤ 4096) :
    FoundIn limits left right (passed ++ [(f.line, f.other)]) { s with
      ranges := joinRanges s.ranges f.ranges
      count := s.count + n
      completed := s.completed + 1 } (found ++ [f]) where
  pairs := by
    rw [map_append]
    exact h.pairs.append (List.Sublist.refl _)
  ranges := by
    rw [h.ranges, joinRanges, flatMap_append, flatMap_append, flatMap_singleton,
      flatMap_singleton]
  exact f' hf' := by
    rcases mem_append.mp hf' with hf' | hf'
    · exact h.exact f' hf'
    · exact mem_singleton.mp hf' ▸ hexact
  completed := by
    rw [h.completed, length_append, length_singleton]
  attempted := hattempted
  cells := h.cells
  count := by
    have := h.count
    dsimp only [joinRanges]
    rw [length_append, length_append]
    omega

theorem keepFound_yields {α : Type} {m : Run α} {Q : α → Prop} {E : Failure × InlineState → Prop}
    (h : Yields (fun e => E (e, s)) m Q) : Yields E (keepFound s m) Q := by
  refine .of_runs (fun w a w' hrun => ?_) fun w e hrun => ?_
  · unfold keepFound StateT.run at hrun
    dsimp only at hrun
    split at hrun
    · rename_i heq
      cases hrun
      exact h.of_ok heq
    · cases hrun
  · unfold keepFound StateT.run at hrun
    dsimp only at hrun
    split at hrun
    · cases hrun
    · rename_i heq
      cases hrun
      exact h.of_error heq

theorem keepCells_yields {α : Type} {m : Charged α} {Q : α → Prop}
    {E : Failure × InlineState → Prop}
    (h : Yields (fun e => E (e.1, { s with cells := e.2 })) m Q) : Yields E (keepCells s m) Q := by
  refine .of_runs (fun w a w' hrun => ?_) fun w e hrun => ?_
  · unfold keepCells StateT.run at hrun
    dsimp only at hrun
    split at hrun
    · rename_i heq
      cases hrun
      exact h.of_ok heq
    · cases hrun
  · unfold keepCells StateT.run at hrun
    dsimp only at hrun
    split at hrun
    · cases hrun
    · rename_i heq
      cases hrun
      exact h.of_error heq

/-- The state has what was found in the pairs that were passed. -/
def HasFound (limits : Budget) (left right : Bytes) (passed : List (Nat × Nat))
    (s : InlineState) : Prop :=
  ∃ found, FoundIn limits left right passed s found

theorem HasFound.more (h : HasFound limits left right passed s) (rest : List (Nat × Nat)) :
    HasFound limits left right (passed ++ rest) s :=
  h.imp fun _ hf => hf.more rest

/-- Another number of attempts and of cells. -/
theorem HasFound.attempt (h : HasFound limits left right passed s) {attempted cells : Nat}
    (ha : s.attempted ≤ attempted) (hc : cells ≤ min 4000000 limits.steps) :
    HasFound limits left right passed { s with attempted := attempted, cells := cells } := by
  obtain ⟨found, hf⟩ := h
  exact ⟨found, { hf with attempted := ⟨hf.attempted.1.trans ha, hf.attempted.2⟩, cells := hc }⟩

theorem HasFound.cells (h : HasFound limits left right passed s) :
    s.cells ≤ min 4000000 limits.steps :=
  h.elim fun _ hf => hf.cells

/-- The ranges of a pair of lines, in the texts. -/
theorem placed_exact {line other : Nat} (hl : line < (lines left).length)
    (hr : other < (lines right).length) {ranges : SideRanges}
    (h : Matched (lineContent (lineAt (lines left) line))
      (lineContent (lineAt (lines right) other)) 0
      (lineContent (lineAt (lines left) line)).length 0
      (lineContent (lineAt (lines right) other)).length ranges.1 ranges.2) :
    FoundPair.Exact left right ⟨line, other, placeRanges ranges (lineBegin (lines left) line)
      (lineBegin (lines right) other)⟩ := by
  have hlen : ∀ (text : List Line) (k : Nat),
      (lineContent (lineAt text k)).length + lineBegin text k = contentEnd text k := fun text k =>
    Nat.add_comm _ _
  have hmatched : Matched (slice left (lineBegin (lines left) line) (contentEnd (lines left) line))
      (slice right (lineBegin (lines right) other) (contentEnd (lines right) other)) 0
      (lineContent (lineAt (lines left) line)).length 0
      (lineContent (lineAt (lines right) other)).length ranges.1 ranges.2 := by
    rw [← (slice_content hl).1, ← (slice_content hr).1]
    exact h
  have hplaced := hmatched.moveUp (Nat.le_refl _) (Nat.le_refl _)
  rwa [Nat.zero_add, Nat.zero_add, hlen, hlen] at hplaced

/-- The loop over the lines of an edit. -/
theorem inlineLines_yields (hqt : qt.StartsText) {edit : Edit} {count line : Nat}
    (hl : edit.begin_ + line + count ≤ (lines left).length)
    (hr : edit.otherBegin + line + count ≤ (lines right).length)
    (h : HasFound limits left right passed s) (hs : s.attempted ≤ 4096) :
    Yields (fun e => HasFound limits left right (passed ++
        (List.range' line count).map fun k => (edit.begin_ + k, edit.otherBegin + k)) e.2)
      (inlineLines qt limits (lines left) (lines right) edit count line s) fun out =>
        HasFound limits left right (passed ++
          (List.range' line count).map fun k => (edit.begin_ + k, edit.otherBegin + k)) out := by
  induction count generalizing line s passed with
  | zero =>
    refine .pure ?_
    rwa [range'_zero, map_nil, append_nil]
  | succ count ih =>
    have hsplit : passed ++ (range' line (count + 1)).map
        (fun k => (edit.begin_ + k, edit.otherBegin + k)) =
          passed ++ [(edit.begin_ + line, edit.otherBegin + line)] ++
            (range' (line + 1) count).map fun k => (edit.begin_ + k, edit.otherBegin + k) := by
      rw [range'_succ, map_cons, append_assoc]
      rfl
    refine (keepFound_yields (Budget.check_yields fun _ _ => h.more _)).skip fun _ => ?_
    refine .ite (fun _ => .pure ((h.attempt (Nat.le_succ _) h.cells).more _)) fun hlt => ?_
    rw [hsplit]
    -- The attempt at this pair, which may use cells.
    have hnext : ∀ cells ≤ min 4000000 limits.steps, HasFound limits left right passed
        { s with attempted := s.attempted + 1, cells := cells } := fun cells hc =>
      h.attempt (Nat.le_succ _) hc
    have hsearch :=
      @compareLine_yields qt limits (lineContent (lineAt (lines left) (edit.begin_ + line)))
      (lineContent (lineAt (lines right) (edit.otherBegin + line))) s.cells hqt h.cells
    refine (keepCells_yields (hsearch.mono (fun e he => ?_) fun _ ho => ho)).bind
      fun out ⟨hw, hranges⟩ => ?_
    · exact ((hnext e.2 he.all).more _).more _
    obtain ⟨ranges, cells⟩ := out
    have hskip := (hnext cells hw.all).more [(edit.begin_ + line, edit.otherBegin + line)]
    cases ranges with
    | none => exact ih (by omega) (by omega) hskip (by dsimp only; omega)
    | some ranges =>
      refine .ite (fun _ => ih (by omega) (by omega) hskip (by dsimp only; omega)) fun hcount => ?_
      obtain ⟨found, hfound⟩ := hnext cells hw.all
      refine ih (by omega) (by omega) ⟨_, hfound.push (placed_exact (by omega) (by omega)
        (hranges ranges rfl)) ?_ ?_ ?_⟩ (by dsimp only; omega)
      · dsimp only [placeRanges]
        rw [length_map, length_map]
      · dsimp only at hcount ⊢
        omega
      · have := hfound.attempted
        obtain ⟨_, hbefore⟩ := h
        have := hbefore.attempted
        dsimp only at this ⊢
        omega

/-- The edits lie in order within the texts. -/
structure PairsFit (left right : Bytes) (edits : List Edit) : Prop where
  fits : ∀ e ∈ edits, e.begin_ ≤ e.end_ ∧ e.end_ ≤ (lines left).length ∧ e.otherBegin ≤ e.otherEnd ∧
    e.otherEnd ≤ (lines right).length
  up : edits.Pairwise fun e f => e.end_ ≤ f.begin_ ∧ e.otherEnd ≤ f.otherBegin

variable {edits : List Edit}

/-- The loop over the edits. -/
theorem inlineEdits_yields (hqt : qt.StartsText) (hfit : PairsFit left right edits)
    (h : HasFound limits left right passed s) (hs : s.attempted ≤ 4096) :
    Yields (fun e => HasFound limits left right (passed ++ edits.flatMap pairsOf) e.2)
      (inlineEdits qt limits (lines left) (lines right) edits s) fun out =>
        HasFound limits left right (passed ++ edits.flatMap pairsOf) out := by
  induction edits generalizing s passed with
  | nil =>
    refine .pure ?_
    rwa [flatMap_nil, append_nil]
  | cons edit edits ih =>
    obtain ⟨h1, h2, h3, h4⟩ := hfit.fits edit mem_cons_self
    have hrest : PairsFit left right edits :=
      ⟨fun e he => hfit.fits e (mem_cons_of_mem _ he), (pairwise_cons.mp hfit.up).2⟩
    have hcount : pairCount edit ≤ edit.end_ - edit.begin_ ∧
        pairCount edit ≤ edit.otherEnd - edit.otherBegin :=
      ⟨Nat.min_le_left _ _, Nat.min_le_right _ _⟩
    refine (keepFound_yields (Budget.check_yields fun _ _ => h.more _)).skip fun _ => ?_
    have hlines := @inlineLines_yields qt limits left right passed s hqt edit (pairCount edit) 0
      (by omega) (by omega) h hs
    rw [← range_eq_range'] at hlines
    rw [flatMap_cons, ← append_assoc]
    refine (hlines.mono (fun e he => he.more _) fun _ ho => ho).bind fun out hout => ?_
    exact .ite (fun _ => .pure (hout.more _)) fun hlt => ih hrest hout (by omega)

/-- What is found in two texts. -/
theorem searchEdits_yields (hqt : qt.StartsText) (hfit : PairsFit left right edits) :
    Yields (fun e => HasFound limits left right (edits.flatMap pairsOf) e.2)
      (searchEdits qt limits (lines left) (lines right) edits) fun out =>
        HasFound limits left right (edits.flatMap pairsOf) out := by
  have hnone : HasFound limits left right [] {} := ⟨[], {
    pairs := List.Sublist.refl _
    ranges := rfl
    exact := fun f hf => absurd hf not_mem_nil
    completed := rfl
    attempted := ⟨Nat.le_refl _, Nat.zero_le _⟩
    cells := Nat.zero_le _
    count := ⟨rfl, Nat.zero_le _⟩ }⟩
  have hedits := inlineEdits_yields hqt hfit hnone (Nat.zero_le _)
  rw [nil_append] at hedits
  refine hedits.bind fun out hout => ?_
  exact (keepFound_yields (Budget.check_yields fun _ _ => hout)).bind fun _ _ => .pure hout

theorem checkEdits_yields {E : Failure → Prop} (hE : E ⟨"InvalidInlineEdits"⟩) {n m a b : Nat} :
    Yields E (checkEdits n m a b edits) fun _ =>
      (∀ e ∈ edits, a ≤ e.begin_ ∧ b ≤ e.otherBegin ∧ e.begin_ ≤ e.end_ ∧ e.end_ ≤ n ∧
        e.otherBegin ≤ e.otherEnd ∧ e.otherEnd ≤ m) ∧
        edits.Pairwise fun e f => e.end_ ≤ f.begin_ ∧ e.otherEnd ≤ f.otherBegin := by
  induction edits generalizing a b with
  | nil => exact .pure ⟨nofun, .nil⟩
  | cons edit edits ih =>
    refine (throwIf_yields fun _ => hE).bind fun _ hc => ih.weaken fun _ hrest => ?_
    obtain ⟨hall, hup⟩ := hrest
    refine ⟨fun e he => ?_, ?_⟩
    · rcases mem_cons.mp he with rfl | he
      · omega
      · have := hall e he
        omega
    · exact .cons (fun e he => ⟨(hall e he).1, (hall e he).2.1⟩) hup

theorem catchFound_yields {m : InlineRun InlineState} {P : InlineState → Prop}
    (h : Yields (fun e => P e.2) m P) : Yields (fun e => e.code ≠ "Timeout") (catchFound m) P := by
  refine .of_runs (fun w a w' hrun => ?_) fun w e hrun => ?_
  · unfold catchFound StateT.run at hrun
    dsimp only at hrun
    split at hrun
    · rename_i heq
      cases hrun
      exact h.of_ok heq
    · rename_i heq
      split at hrun
      · cases hrun
        exact h.of_error heq
      · cases hrun
  · unfold catchFound StateT.run at hrun
    dsimp only at hrun
    split at hrun
    · cases hrun
    · split at hrun
      · cases hrun
      · rename_i hcode
        cases hrun
        exact hcode

/-- What `BuildInlineDiff` says of two texts: the ranges are those of some of the paired lines, and
the others are skipped. -/
structure InlineExact (limits : Budget) (left right : Bytes) (edits : List Edit) (out : InlineDiff)
    (found : List FoundPair) : Prop where
  /-- The pairs that are completed are lines of the edits. -/
  pairs : (found.map fun f => (f.line, f.other)).Sublist (edits.flatMap pairsOf)
  ranges : out.ranges = (found.flatMap fun f => f.ranges.1, found.flatMap fun f => f.ranges.2)
  exact : ∀ f ∈ found, f.Exact left right
  /-- The ranges of a side lie in order in its text, and none is empty. -/
  spacedLeft : Spaced 0 left.length out.ranges.1
  spacedRight : Spaced 0 right.length out.ranges.2
  /-- They lie on changed lines. -/
  leftLines : ∀ r ∈ out.ranges.1, ∃ e ∈ edits, ∃ line, (e.begin_ ≤ line ∧ line < e.end_) ∧
    lineBegin (lines left) line ≤ r.1 ∧ r.2 ≤ contentEnd (lines left) line
  rightLines : ∀ r ∈ out.ranges.2, ∃ e ∈ edits, ∃ line, (e.otherBegin ≤ line ∧ line < e.otherEnd) ∧
    lineBegin (lines right) line ≤ r.1 ∧ r.2 ≤ contentEnd (lines right) line
  paired : out.pairedLines = (edits.flatMap pairsOf).length
  skipped : out.skippedLines + found.length = out.pairedLines
  cells : out.cells ≤ min 4000000 limits.steps
  count : found.length ≤ 4096 ∧ out.ranges.1.length + out.ranges.2.length ≤ 32768

theorem length_pairsOf (edits : List Edit) :
    (edits.flatMap pairsOf).length = pairedLines edits := by
  rw [length_flatMap, pairedLines]
  congr 1
  refine map_congr_left fun e _ => ?_
  rw [pairsOf, length_map, length_range]

theorem mem_pairsOf {e : Edit} {p : Nat × Nat} (h : p ∈ pairsOf e) :
    (e.begin_ ≤ p.1 ∧ p.1 < e.end_) ∧ (e.otherBegin ≤ p.2 ∧ p.2 < e.otherEnd) := by
  obtain ⟨k, hk, rfl⟩ := mem_map.mp h
  rw [mem_range, pairCount] at hk
  omega

/-- The pairs of edits go up on both sides. -/
theorem pairsOf_pairwise (h : PairsFit left right edits) :
    (edits.flatMap pairsOf).Pairwise fun p q => p.1 < q.1 ∧ p.2 < q.2 := by
  rw [pairwise_flatMap]
  refine ⟨fun e _ => ?_, h.up.imp fun hef p hp q hq => ?_⟩
  · rw [pairsOf, pairwise_map]
    exact pairwise_lt_range.imp fun hk => ⟨by omega, by omega⟩
  · have := mem_pairsOf hp
    have := mem_pairsOf hq
    omega

/-- Ranges in the contents of rising lines. -/
theorem spaced_lines {text : Bytes} {line : FoundPair → Nat} {ranges : FoundPair → List ByteRange}
    (hin : ∀ f ∈ found, line f < (lines text).length ∧
      Spaced (lineBegin (lines text) (line f)) (contentEnd (lines text) (line f)) (ranges f))
    (hup : found.Pairwise fun f g => line f < line g) :
    Spaced 0 text.length (found.flatMap ranges) := by
  have hend : ∀ f ∈ found, contentEnd (lines text) (line f) ≤ lineBegin (lines text) (line f + 1) :=
    fun f hf => (slice_content (hin f hf).1).2
  refine spaced_flatMap (fun f hf => (hin f hf).2) (Nat.zero_le _)
    (fun f hf => ⟨Nat.zero_le _, ?_⟩) ?_
  · have hle := length_append_le_flatten (lines text) (hin f hf).1
    rw [lines_flatten] at hle
    exact (hend f hf).trans hle
  · exact (List.Pairwise.and_mem.mp hup).imp fun h => (hend _ h.1).trans (length_append_le _ h.2.2)

/-- What was found makes the result. -/
theorem FoundIn.inlineExact (hfit : PairsFit left right edits)
    (h : FoundIn limits left right (edits.flatMap pairsOf) s found) :
    InlineExact limits left right edits
      ⟨s.ranges, pairedLines edits, pairedLines edits - s.completed,
      s.cells⟩ found := by
  have hedit : ∀ f ∈ found, ∃ e ∈ edits, (e.begin_ ≤ f.line ∧ f.line < e.end_) ∧
      (e.otherBegin ≤ f.other ∧ f.other < e.otherEnd) := by
    intro f hf
    obtain ⟨e, he, hp⟩ := mem_flatMap.mp (h.pairs.subset (mem_map_of_mem hf))
    exact ⟨e, he, mem_pairsOf hp⟩
  have hpair : ∀ f ∈ found, f.line < (lines left).length ∧ f.other < (lines right).length := by
    intro f hf
    obtain ⟨e, he, h1, h2⟩ := hedit f hf
    have := hfit.fits e he
    omega
  have hup := pairwise_map.mp ((pairsOf_pairwise hfit).sublist h.pairs)
  refine ⟨h.pairs, h.ranges, h.exact, ?_, ?_, fun r hr => ?_, fun r hr => ?_,
    (length_pairsOf edits).symm, ?_, h.cells, ?_, ?_⟩
  · rw [h.ranges]
    exact spaced_lines (fun f hf => ⟨(hpair f hf).1, (h.exact f hf).left⟩)
      (hup.imp fun hfg => hfg.1)
  · rw [h.ranges]
    exact spaced_lines (fun f hf => ⟨(hpair f hf).2, (h.exact f hf).right⟩)
      (hup.imp fun hfg => hfg.2)
  · rw [h.ranges] at hr
    obtain ⟨f, hf, hr⟩ := mem_flatMap.mp hr
    obtain ⟨e, he, hline, -⟩ := hedit f hf
    have hmem := (h.exact f hf).left.mem hr
    exact ⟨e, he, f.line, hline, hmem.1, hmem.2.2⟩
  · rw [h.ranges] at hr
    obtain ⟨f, hf, hr⟩ := mem_flatMap.mp hr
    obtain ⟨e, he, -, hline⟩ := hedit f hf
    have hmem := (h.exact f hf).right.mem hr
    exact ⟨e, he, f.other, hline, hmem.1, hmem.2.2⟩
  · have hle := h.pairs.length_le
    rw [length_map, length_pairsOf] at hle
    have := h.completed
    dsimp only
    omega
  · rw [← h.completed]
    exact h.attempted.2
  · dsimp only
    rw [h.count.1]
    exact h.count.2

/-- Nothing is found when there is no time for the lines. -/
theorem inlineExact_none (edits : List Edit) : InlineExact limits left right edits
    ⟨([], []), pairedLines edits, pairedLines edits, 0⟩ [] where
  pairs := nil_sublist _
  ranges := rfl
  exact := fun _ hf => absurd hf not_mem_nil
  spacedLeft := Nat.zero_le _
  spacedRight := Nat.zero_le _
  leftLines := fun _ hr => absurd hr not_mem_nil
  rightLines := fun _ hr => absurd hr not_mem_nil
  paired := (length_pairsOf edits).symm
  skipped := rfl
  cells := Nat.zero_le _
  count := ⟨Nat.zero_le _, Nat.zero_le _⟩

/-- `BuildInlineDiff` of edits. -/
theorem inlineDiff_yields (hqt : qt.StartsText) (edits : List Edit) :
    Yields (fun e => e.code ≠ "Timeout") (inlineDiff qt limits left right edits) fun out =>
      ∃ found, InlineExact limits left right edits out found := by
  have htimeout : ∀ {α : Type} {m : Run α} {a : α}, Yields (fun e => e.code ≠ "Timeout")
      (catchTimeout m a) fun _ => True := fun {α m a} =>
    (catchTimeout_yields .any trivial).mono (fun _ he => he.2) fun _ h => h
  refine .ite (fun hnone => ?_) fun _ => ?_
  · subst hnone
    exact htimeout.skip fun _ => .pure ⟨[], inlineExact_none []⟩
  have hsplit : Yields (fun e => e.code ≠ "Timeout") (splitBoth limits left right) fun out =>
      ∀ both ∈ out, both = (lines left, lines right) := by
    refine (catchTimeout_yields (E := fun _ => True) ?_ nofun).mono (fun _ he => he.2) fun _ h => h
    refine (splitLines_yields (fun _ _ => trivial) (fun _ => trivial) fun _ => trivial).bind
      fun a ha => ?_
    refine (splitLines_yields (fun _ _ => trivial) (fun _ => trivial) fun _ => trivial).bind
      fun b hb => ?_
    refine .pure fun both h => ?_
    rw [← some.inj h, ha.1, hb.1]
  refine hsplit.bind fun split hboth => ?_
  cases split with
  | none =>
    exact (throwIf_yields fun _ => by decide).bind fun _ _ => .pure ⟨[], inlineExact_none edits⟩
  | some both =>
    obtain rfl := hboth both rfl
    refine (checkEdits_yields (by decide)).bind fun _ hall => ?_
    have hfit : PairsFit left right edits := ⟨fun e he => by have := hall.1 e he; omega, hall.2⟩
    refine (catchFound_yields (searchEdits_yields hqt hfit)).bind fun s hs => .pure ?_
    obtain ⟨found, hfound⟩ := hs
    exact ⟨found, hfound.inlineExact hfit⟩

end Texts

/-- `BuildInlineDiff` reports exact ranges of the paired lines that it completes, counts the others
as skipped, and stays within its budgets: the cells of all pairs, those of a pair from `cells` on,
and the table of a span. -/
theorem inline_exact (qt : Clusters) (hqt : qt.StartsText) (limits : Budget) :
    (∀ left right edits alignment,
      Yields (fun e => e.code ≠ "Timeout") (buildInlineDiff qt limits left right edits alignment)
        fun out =>
          ∃ found, InlineExact limits left right (refinedEdits edits alignment) out found) ∧
    (∀ a b cells, cells ≤ min 4000000 limits.steps →
      Yields (fun e => Within limits cells e.2) (compareLine qt limits a b cells) fun out =>
        Within limits cells out.2) ∧
    ∀ a b cells lineStart, Within limits lineStart cells →
      Yields (fun e => Within limits lineStart e.2) (compareSpan qt limits a b cells lineStart)
        fun out => (out.2 - cells) * 2 ≤ limits.traceBytes :=
  ⟨fun _ _ edits alignment => inlineDiff_yields hqt (refinedEdits edits alignment),
    fun _ _ _ hw => (compareLine_yields hqt hw).weaken fun _ ho => ho.1,
    fun _ _ _ _ hw => (compareSpan_yields hqt hw).weaken fun _ ho => ho.2.1⟩

/-- Every character is a cluster of its own; the letters and digits of ASCII. -/
def plainClusters : Clusters where
  isAtBoundary _ _ := true
  isLetterOrNumber c := (48 ≤ c && c ≤ 57) || (65 ≤ c && c ≤ 90) || (97 ≤ c && c ≤ 122)

theorem inline_exact_letter : ∃ found, InlineExact .unlimited [97, 88, 98, 10] [97, 89, 98, 10]
    [⟨0, 1, 0, 1, []⟩] ⟨([(1, 2)], [(1, 2)]), 1, 0, 4⟩ found := by
  have hrun : Returns (buildInlineDiff plainClusters .unlimited [97, 88, 98, 10] [97, 89, 98, 10]
      [⟨0, 1, 0, 1, []⟩] none) ⟨([(1, 2)], [(1, 2)]), 1, 0, 4⟩ := ⟨{}, ⟨0, 19⟩, by decide +kernel⟩
  exact ((inline_exact plainClusters (fun _ _ => rfl) .unlimited).1 _ _ _ none).of_returns hrun

/-- A pair that is completed without ranges, whose lines end differently. -/
theorem inline_terminators :
    Returns (buildInlineDiff plainClusters .unlimited [97, cr, lf] [97, lf]
      [⟨0, 1, 0, 1, [97, lf]⟩] none)
        ⟨([], []), 1, 0, 0⟩ ∧
      kept (lineAt (lines [97, cr, lf]) 0) 0 3 [] ≠ kept (lineAt (lines [97, lf]) 0) 0 2 [] :=
  ⟨⟨{}, ⟨0, 15⟩, by decide +kernel⟩, by decide⟩

end Hc.Compare
