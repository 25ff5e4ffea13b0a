import HyperCommander.Compare.Diff
import HyperCommander.Compare.SparseDiffLemmas
import HyperCommander.Compare.TraceLemmas

/-!
# What `Diff` returns

* `commonHash_yields`: no common hash means no common line.
* `diffLines_yields`, `diff_yields`: whichever engine runs, the edits are a canonical script of
  the least size.
-/

namespace Hc.Compare

open List EditGraph Slice Lcs

variable {E : Failure → Prop} {limits : Budget}

theorem sumBytes_yields (hstep : Yields E limits.step fun _ => True) (right : List Line)
    (count i sum : Nat) : Yields E (sumBytes limits right count i sum) fun _ => True := by
  induction count generalizing i sum with
  | zero => exact .pure trivial
  | succ count ih => exact hstep.skip fun _ => ih _ _

/-! ## The hash shortcut -/

theorem hashLines_yields (hstep : Yields E limits.step fun _ => True) (lib : Library)
    (text : List Line) (count i : Nat) :
    Yields E (hashLines limits lib text count i) fun out =>
      ∀ j, i ≤ j → j < i + count → lib.hash (lineAt text j) ∈ out := by
  induction count generalizing i with
  | zero => exact .pure fun j h1 h2 => by omega
  | succ count ih =>
    refine hstep.skip fun _ => (ih (i + 1)).bind fun rest hrest => .pure fun j h1 h2 => ?_
    rcases Nat.eq_or_lt_of_le h1 with rfl | hlt
    · exact mem_cons_self ..
    · exact mem_cons_of_mem _ (hrest j hlt (by omega))

theorem binarySearch_yields (hstep : Yields E limits.step fun _ => True) {values : List Nat}
    (hs : values.Pairwise (· ≤ ·)) (value : Nat) :
    Yields E (binarySearch limits values value) fun found => value ∈ values → found = true := by
  have hmono : ∀ j k, j ≤ k → k < values.length → values.getD j 0 ≤ values.getD k 0 := by
    intro j k hjk hk
    rcases Nat.eq_or_lt_of_le hjk with rfl | hlt
    · exact Nat.le_refl _
    · have := pairwise_iff_getElem.mp hs j k (by omega) hk hlt
      simpa [getD_eq_getElem?_getD, getElem?_eq_getElem hk,
        getElem?_eq_getElem (show j < values.length by omega)] using this
  refine (lowerBound_yields hstep _ _ _ (Nat.le_refl _) fun j k h1 h2 h3 h4 => ?_).bind
    fun i hi => ?_
  · simp only [decide_eq_true_eq] at h4 ⊢
    exact Nat.lt_of_le_of_lt (hmono j k (by omega) (by omega)) h4
  obtain ⟨-, h2, h3, h4⟩ := hi
  simp only [Nat.zero_add, decide_eq_true_eq] at h2 h3 h4
  -- The value stands at some position `k`, and `i` is at most `k`.
  have hk : value ∈ values → ∃ k, k < values.length ∧ values.getD k 0 = value ∧ i ≤ k := by
    intro hv
    obtain ⟨k, hk, rfl⟩ := mem_iff_getElem.mp hv
    have hget : values.getD k 0 = values[k] := by
      rw [getD_eq_getElem?_getD, getElem?_eq_getElem hk]; rfl
    refine ⟨k, hk, hget, Nat.le_of_not_lt fun hki => ?_⟩
    have := h3 k (Nat.zero_le _) hki
    omega
  refine .ite (fun hend => .pure fun hv => ?_) fun hend => hstep.skip fun _ =>
    .pure fun hv => ?_
  · obtain ⟨k, hk1, -, hk2⟩ := hk hv
    omega
  · obtain ⟨k, hk1, hk2, hk3⟩ := hk hv
    have := hmono i k hk3 hk1
    simp only [Bool.not_eq_true', decide_eq_false_iff_not]
    omega

theorem anyHash_yields (hstep : Yields E limits.step fun _ => True) {lib : Library}
    {hashes : List Nat} (hs : hashes.Pairwise (· ≤ ·)) (large : List Line) (count i : Nat) :
    Yields E (anyHash limits lib hashes large count i) fun found => found = false →
      ∀ j, i ≤ j → j < i + count → lib.hash (lineAt large j) ∉ hashes := by
  induction count generalizing i with
  | zero => exact .pure fun _ j h1 h2 => by omega
  | succ count ih =>
    refine hstep.skip fun _ => (binarySearch_yields hstep hs _).bind fun found hf => ?_
    refine .ite (fun _ => .pure nofun) fun hno =>
      (ih (i + 1)).weaken fun out ho hfalse j h1 h2 => ?_
    rcases Nat.eq_or_lt_of_le h1 with rfl | hlt
    · exact fun hmem => hno (hf hmem)
    · exact ho hfalse j hlt (by omega)

variable {left right : List Line} {pre suf : Nat}

/-- Equal lines have equal hashes, so sides without a common hash have no common line. -/
theorem commonHash_yields (hstep : Yields E limits.step fun _ => True) (lib : Library) {n m : Nat}
    (hn : left.length = pre + n + suf) (hm : right.length = pre + m + suf) :
    Yields E (commonHash limits lib left right pre suf n m) fun found => found = false →
      ∀ i j, pre ≤ i → i < pre + n → pre ≤ j → j < pre + m → ¬ Matches left right i j := by
  have hline : ∀ i j, Matches left right i j → lineAt left i = lineAt right j := by
    intro i j h
    exact beq_iff_eq.mp ((lineAt_eq_iff h.lt.1 h.lt.2).mpr h)
  refine (hashLines_yields hstep _ _ _ _).bind fun hashes hh => ?_
  refine (stepMany_yields hstep _).skip fun _ => ?_
  have hsort : (hashes.mergeSort fun a b => a ≤ b).Pairwise (· ≤ ·) := by
    have : (hashes.mergeSort fun a b => a ≤ b).Pairwise fun a b : Nat => decide (a ≤ b) =
        true := pairwise_mergeSort (fun a b c => by simp only [decide_eq_true_eq]; omega)
      (fun a b => by simp only [Bool.or_eq_true, decide_eq_true_eq]; omega) hashes
    simpa only [decide_eq_true_eq] using this
  refine (anyHash_yields hstep hsort _ _ _).weaken fun found hf hfalse i j h1 h2 h3 h4 hij => ?_
  have h5 := hline i j hij
  by_cases hnm : n ≤ m
  · simp only [if_pos hnm] at hh hf
    refine hf hfalse j h3 (by omega) (mem_mergeSort.mpr ?_)
    rw [← h5]
    exact hh i h1 (by omega)
  · simp only [if_neg hnm] at hh hf
    refine hf hfalse i h1 (by omega) (mem_mergeSort.mpr ?_)
    rw [h5]
    exact hh j h3 (by omega)

/-! ## One replacement -/

theorem replaceAll_yields (hi : Interrupts E limits) (hpre : Same left right 0 0 pre pre)
    (hsuf : Same left right (left.length - suf) (right.length - suf) left.length right.length)
    (hl : pre ≤ left.length - suf) (hr : pre ≤ right.length - suf)
    (hne : ¬ (pre = left.length - suf ∧ pre = right.length - suf)) :
    Yields E (replaceAll limits left right pre suf) fun edits =>
      Built limits.rangesOnly left right edits.reverse left.length right.length ∧
      scriptSize edits = Range.size ⟨pre, left.length - suf, pre, right.length - suf⟩ := by
  have hbytes : Yields E (if limits.rangesOnly then pure []
      else appendLines limits right (right.length - suf - pre) pre [])
      fun bytes => bytes = replacementOf limits.rangesOnly right pre (right.length - suf) := by
    unfold replacementOf
    refine .ite (fun h => .pure (by rw [if_pos h])) fun h => ?_
    refine (appendLines_yields hi.step _ _ _ (by omega)).weaken fun bytes hb => ?_
    rw [hb, if_neg h, nil_append, show pre + (right.length - suf - pre) = right.length - suf
      by omega]
  refine hbytes.bind fun bytes hb => hi.check.skip fun _ => .pure ⟨?_, ?_⟩
  · subst hb
    refine ((Built.start.keep_same hpre).push (fun f hf => by cases hf) hl hr (by omega)
      (by omega) (by omega)).keep_same hsuf
  · simp [scriptSize, Edit.size, Range.size]

/-! ## The engines together -/

/-- The failures of the engines themselves, none of which says anything about the edits. -/
structure EngineFailures (E : Failure → Prop) (limits : Budget) : Prop extends
    Interrupts E limits where
  range : E ⟨"InvalidDiffRange"⟩
  partition : E ⟨"DiffPartition"⟩
  memory : E ⟨"DiffMemoryLimit"⟩
  input : E ⟨"InvalidAlignmentInput"⟩

theorem same_of_countWhile (a b k : Nat)
    (h : ∀ t < k, (a + t < left.length ∧ b + t < right.length) ∧
      lineAt left (a + t) == lineAt right (b + t)) : Same left right a b (a + k) (b + k) :=
  ⟨k, rfl, rfl, fun t ht => (lineAt_eq_iff (h t ht).1.1 (h t ht).1.2).mp (h t ht).2⟩

theorem diffLines_yields (hi : EngineFailures E limits) (lib : Library) (hne : left ≠ right) :
    Yields E (diffLines limits lib left right) fun edits =>
      Built limits.rangesOnly left right edits.reverse left.length right.length ∧
      scriptSize edits = EditGraph.distance left right := by
  have hstep := hi.step
  refine (Yields.modify trivial).skip fun _ => (countWhile_yields hstep _ _).bind fun pre hp => ?_
  obtain ⟨-, hpl, hp, -⟩ := hp
  simp only [Bool.and_eq_true, decide_eq_true_eq, Nat.zero_add] at hpl hp
  have hpre : Same left right 0 0 pre pre := by
    have := same_of_countWhile 0 0 pre fun t ht => by
      have := hp t (Nat.zero_le _) ht
      simp only [Nat.zero_add]
      exact ⟨⟨this.1, this.2.1⟩, this.2.2⟩
    simpa using this
  have hpre' : pre ≤ left.length ∧ pre ≤ right.length := by
    rcases Nat.eq_zero_or_pos pre with rfl | hpos
    · omega
    · have := hp (pre - 1) (Nat.zero_le _) (by omega)
      omega
  refine (countWhile_yields hstep _ _).bind fun suf hs => ?_
  obtain ⟨-, -, hs, -⟩ := hs
  simp only [Bool.and_eq_true, decide_eq_true_eq] at hs
  have hsuf' : suf ≤ left.length - pre ∧ suf ≤ right.length - pre := by
    rcases Nat.eq_zero_or_pos suf with rfl | hpos
    · omega
    · have := hs (suf - 1) (Nat.zero_le _) (by omega)
      omega
  have hsuf : Same left right (left.length - suf) (right.length - suf) left.length
      right.length := by
    have := same_of_countWhile (left.length - suf) (right.length - suf) suf fun t ht => by
      have h := (hs (suf - 1 - t) (Nat.zero_le _) (by omega)).2.2
      rw [show left.length - (suf - 1 - t) - 1 = left.length - suf + t by omega,
        show right.length - (suf - 1 - t) - 1 = right.length - suf + t by omega] at h
      exact ⟨by omega, h⟩
    rwa [show left.length - suf + suf = left.length by omega,
      show right.length - suf + suf = right.length by omega] at this
  simp only
  generalize hn : left.length - pre - suf = n
  generalize hm : right.length - pre - suf = m
  have hsum : Yields E (if limits.rangesOnly then pure 0
      else sumBytes limits right (right.length - suf - pre) pre 0) fun _ => True :=
    .ite (fun _ => .pure trivial) fun _ => sumBytes_yields hstep _ _ _ _
  refine hsum.skip fun _ => (Budget.reserve_yields hi.outside).skip fun _ => ?_
  -- What is left between the common ends.
  let rest : Range := ⟨pre, left.length - suf, pre, right.length - suf⟩
  have hwithin : rest.Within left right := ⟨by simp only [rest]; omega, by simp only [rest]; omega,
    by simp only [rest]; omega, by simp only [rest]; omega⟩
  have hdist : rest.distance left right = EditGraph.distance left right := by
    have h1 := Range.distance_trim_back
      (r := ⟨pre, left.length, pre, right.length⟩) hsuf (by simp only; omega) (by simp only; omega)
    have h2 := Range.distance_trim_front
      (r := ⟨0, left.length, 0, right.length⟩) hpre hpre'.1 hpre'.2
    rw [h1, h2, Range.distance, Range.lefts, Range.rights, slice_full, slice_full]
  have hsome : ¬ (pre = left.length - suf ∧ pre = right.length - suf) := by
    rintro ⟨h1, h2⟩
    rw [← h1, ← h2] at hsuf
    have := (hpre.trans hsuf).slice_eq
    rw [slice_full, slice_full] at this
    exact hne this
  have hreplace : (∀ i j, pre ≤ i → i < left.length - suf → pre ≤ j → j < right.length - suf →
      ¬ Matches left right i j) → Yields E (replaceAll limits left right pre suf) fun edits =>
        Built limits.rangesOnly left right edits.reverse left.length right.length ∧
        scriptSize edits = EditGraph.distance left right := by
    intro hdis
    refine (replaceAll_yields hi.toInterrupts hpre hsuf (by omega) (by omega) hsome).weaken
      fun edits he => ⟨he.1, ?_⟩
    rw [he.2, ← hdist]
    exact (hwithin.distance_of_disjoint hdis).symm
  refine .ite (fun h0 => hreplace fun i j h1 h2 h3 h4 => by omega) fun h0 => ?_
  have hdisjoint : Yields E (if n + m > 2048 ∧ min n m ≤ limits.traceBytes / 8 then
      (do let common ← commonHash limits lib left right pre suf n m; pure !common)
      else pure false) fun disjoint => disjoint = true → ∀ i j, pre ≤ i → i < left.length - suf →
        pre ≤ j → j < right.length - suf → ¬ Matches left right i j := by
    refine .ite (fun _ => ?_) fun _ => .pure fun h => by cases h
    refine (commonHash_yields hstep lib (by omega) (by omega)).bind fun found hf =>
      .pure fun h i j h1 h2 h3 h4 => ?_
    exact hf (by simpa using h) i j h1 (by omega) h3 (by omega)
  refine hdisjoint.bind fun disjoint hd => .ite (fun h => hreplace (hd h)) fun _ => ?_
  have hend : pre + n = left.length - suf ∧ pre + m = right.length - suf := by omega
  refine (traceFrom_yields hi.toInterrupts (l := slice left pre (pre + n))
    (r := slice right pre (pre + m)) (by omega) (by omega) rfl rfl _ _ _ _ _ (by omega)
    (Nat.zero_le _) rfl fun e he => by omega).bind fun ending hfound => ?_
  cases ending with
  | exceeded =>
    refine (sparseDiff_yields hi.toInterrupts hi.input lib hpre hsuf).bind fun sparse hsparse => ?_
    cases sparse with
    | some edits =>
      obtain ⟨h1, h2⟩ := hsparse edits rfl
      exact .pure ⟨h1, h2.trans hdist⟩
    | none =>
      refine (linearDiff_yields hi.toInterrupts hi.range hi.partition hi.memory hpre hsuf).weaken
        fun edits he => ⟨he.1, he.2.trans hdist⟩
  | found distance trace =>
    obtain ⟨h1, h2, i, h3, h4⟩ := hfound distance trace rfl
    have hln : (slice left pre (pre + n)).length = n := by rw [length_slice (by omega)]; omega
    have hrm : (slice right pre (pre + m)).length = m := by rw [length_slice (by omega)]; omega
    rw [hln] at h3 h4
    rw [hrm] at h3
    have hdiff := diff_le_cost (l := slice left pre (pre + n)) (r := slice right pre (pre + m))
      (x := n) (y := m)
    rw [show cost (slice left pre (pre + n)) (slice right pre (pre + m)) n m = distance by
      rw [h1, ← cost_length, hln, hrm]] at hdiff
    have hstop : Path (slice left pre (pre + n)) (slice right pre (pre + m)) [] n m := by
      have := Path.stop (l := slice left pre (pre + n)) (r := slice right pre (pre + m))
      rwa [hln, hrm] at this
    refine (backtrack_yields hi.toInterrupts distance h2 h4 (by omega) (by omega) hstop).bind
      fun ops ho => hi.check.skip fun _ => .pure ?_
    have hstart : Built limits.rangesOnly left right [] (pre + 0) (pre + 0) :=
      Built.start.keep_same hpre
    obtain ⟨h5, h6⟩ := joinOps_built (by omega) (by omega) rfl rfl ho.1 false hstart
      ⟨(fun h => by cases h), by rintro ⟨e, he, -⟩; cases he⟩
    rw [hend.1, hend.2] at h5
    rw [reverse_reverse]
    refine ⟨h5.keep_same hsuf, ?_⟩
    rw [Nat.add_zero] at h6
    have hsize : EditGraph.distance (slice left pre (pre + n)) (slice right pre (pre + m)) =
        rest.distance left right := by rw [hend.1, hend.2]; rfl
    rw [scriptSize, map_reverse, sum_reverse, ← scriptSize, h6, ho.2, h1, hsize, hdist]
    simp [scriptSize, changes]

/-- `Diff` on texts beyond the shortcut for equal ones counted the lines of both. -/
theorem diff_yields_of (hE : EngineFailures E limits) (hL : E ⟨"LineLimit"⟩)
    (hB : E ⟨"LongLineLimit"⟩) (lib : Library) (left right : Bytes) :
    Yields E (diff limits lib left right) fun edits =>
      (Built limits.rangesOnly (lines left) (lines right) edits.reverse (lines left).length
          (lines right).length ∧
        scriptSize edits = EditGraph.distance (lines left) (lines right)) ∧
      (left ≠ right → (lines left).length + (lines right).length ≤ defaultMaxLines) := by
  have hout := hE.outside
  refine hE.check.skip fun _ => .ite (fun h => .pure ?_) fun h => ?_
  · subst h
    refine ⟨⟨?_, ?_⟩, fun h => absurd rfl h⟩
    · refine Built.start.keep_same ⟨(lines left).length, by simp, by simp, fun i hi => ?_⟩
      exact ⟨(lines left)[i], by simp [hi], by simp [hi]⟩
    · simp [scriptSize, EditGraph.distance, lcs_self, two_mul]
  refine (countLines_yields hout (fun _ => hL) fun _ => hB).bind fun n hn => ?_
  refine (countLines_yields hout (fun _ => hL) fun _ => hB).bind fun m hm => ?_
  refine (Budget.reserve_yields hout).skip fun _ => ?_
  refine (splitLines_yields hout (fun _ => hL) fun _ => hB).bind fun ls hls => ?_
  refine (splitLines_yields hout (fun _ => hL) fun _ => hB).bind fun rs hrs => ?_
  rw [hls.1, hrs.1]
  refine (diffLines_yields hE lib fun he => h (lines_injective he)).weaken fun edits he =>
    ⟨he, fun _ => by omega⟩

theorem diff_yields (limits : Budget) (lib : Library) (left right : Bytes) :
    Yields (fun _ => True) (diff limits lib left right) fun edits =>
      (Built limits.rangesOnly (lines left) (lines right) edits.reverse (lines left).length
          (lines right).length ∧
        scriptSize edits = EditGraph.distance (lines left) (lines right)) ∧
      (left ≠ right → (lines left).length + (lines right).length ≤ defaultMaxLines) :=
  diff_yields_of ⟨⟨fun _ _ => trivial, trivial⟩, trivial, trivial, trivial, trivial⟩ trivial trivial
    lib left right

end Hc.Compare
