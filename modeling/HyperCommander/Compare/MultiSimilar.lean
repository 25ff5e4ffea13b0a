import HyperCommander.Compare.MultiAlignment

/-!
# Similar lines of several texts (`MultiAlignmentMap::WithSimilarLines`)

A run whose texts differ is refined around the lines of the first text: the similar lines that the
others have for it share its row, and what else they have goes in between.

* `Slots.Filled.foldl`: the slots of a text have room for all of its lines.
* `refineMulti_yields`: the refined map is aligned.
* `multi_alignment_consistent`: from `Build` to the refined map.
-/

namespace Hc.Compare

open List Slice Tiling

/-- `gaps[side]` and `matched[side]`: how many lines a text has in front of every line of the first
one (and behind the last one), and next to it. -/
structure Slots where
  gaps : List Nat
  matched : List Nat

/-- `matched[side][begin + i] = 1`. -/
def fillOnes (matched : List Nat) (begin_ count : Nat) : List Nat :=
  (List.range count).foldl (fun m i => m.set (begin_ + i) 1) matched

/-- The body of the loop over the parts of a pair. -/
def Slots.add (s : Slots) (part : AlignmentRun) : Slots :=
  let a := part.end_.1 - part.begin_.1
  let b := part.end_.2 - part.begin_.2
  let common := min a b
  { gaps := s.gaps.set part.end_.1 (s.gaps.getD part.end_.1 0 + (b - common))
    matched := fillOnes s.matched part.begin_.1 common }

/-- The lines of a side in a run. -/
def MultiRun.count (run : MultiRun) (side : Nat) : Nat := run.end_.at side - run.begin_.at side

/-- The bytes of a side in a run. -/
def MultiRun.span (sides : List (List Line)) (run : MultiRun) (side : Nat) : Bytes :=
  append (sideLines sides side) (run.begin_.at side) (run.end_.at side)

/-- `bounded`. -/
def MultiRun.bounded (sides : List (List Line)) (steps : Nat) (run : MultiRun) : Bool :=
  run.changedPairs ≠ 0 ∧ run.count 0 ≠ 0 ∧ steps ≠ 0 ∧ ∀ side < sides.length,
    run.count side ≤ 128 ∧ ∀ x ∈ sideSlice sides run.begin_ run.end_ side, x.length ≤ 2048

/-- The slots of a side, and the pair that they come from. -/
def pairSlots (limits : Budget) (sides : List (List Line)) (run : MultiRun) (steps side : Nat) :
    Run (Slots × AlignmentMap) := do
  let n := run.count 0
  let m := run.count side
  let budget := { limits with steps := steps }
  let map ← AlignmentMap.build budget n m [⟨0, n, 0, m, []⟩]
  let pair ← map.withSimilarLines budget (run.span sides 0) (run.span sides side)
  pure (pair.runs.foldl Slots.add ⟨List.replicate (n + 1) 0, List.replicate n 0⟩, pair)

/-- The loop over `count` sides from number `side` on: their slots, the steps left, and whether any
lines are similar. -/
def allSlots (limits : Budget) (sides : List (List Line)) (run : MultiRun) :
    (count side steps : Nat) → Run (List Slots × Nat × Bool)
  | 0, _, steps => pure ([], steps, false)
  | count + 1, side, steps => do
    let found ← pairSlots limits sides run steps side
    let rest ← allSlots limits sides run count (side + 1) (steps - found.2.similarityWork)
    pure (found.1 :: rest.1, rest.2.1, found.2.similar || rest.2.2)

/-- The `append` lambda of `WithSimilarLines`. -/
def MultiMap.place (sides : List (List Line)) (map : MultiMap) (begin_ end_ : Cells) : MultiMap :=
  map.push begin_ end_ (differingPairs sides begin_ end_)

/-- The loop over the slots from number `i` on, `count` lines of the first text being left. -/
def fillRows (limits : Budget) (sides : List (List Line)) (slots : List Slots) :
    (count i : Nat) → Cells → MultiMap → Run (Cells × MultiMap)
  | 0, i, cursor, map => do
    limits.check
    let gapEnd : Cells := List.zipWith (· + ·) cursor (slots.map fun s => s.gaps.getD i 0)
    pure (gapEnd, map.place sides cursor gapEnd)
  | count + 1, i, cursor, map => do
    limits.check
    let gapEnd : Cells := List.zipWith (· + ·) cursor (slots.map fun s => s.gaps.getD i 0)
    let map := map.place sides cursor gapEnd
    let rowEnd : Cells := List.zipWith (· + ·) gapEnd (slots.map fun s => s.matched.getD i 0)
    fillRows limits sides slots count (i + 1) rowEnd (map.place sides gapEnd rowEnd)

/-- The map under way and the steps left. -/
structure MultiRefinement where
  map : MultiMap
  steps : Nat

/-- The body of the loop over the runs. -/
def refineMultiRun (limits : Budget) (sides : List (List Line)) (s : MultiRefinement)
    (run : MultiRun) : Run MultiRefinement := do
  limits.check
  if run.bounded sides s.steps then
    let n := run.count 0
    let found ← allSlots limits sides run (sides.length - 1) 1 s.steps
    if found.2.2 then
      let slots : List Slots := ⟨List.replicate (n + 1) 0, List.replicate n 1⟩ :: found.1
      let filled ← fillRows limits sides slots n 0 run.begin_ s.map
      throwIf (filled.1 ≠ run.end_) "InvalidAlignmentEdits"
      pure ⟨filled.2, found.2.1⟩
    else pure ⟨s.map.place sides run.begin_ run.end_, found.2.1⟩
  else
    let rows := s.map.rows + (run.rowEnd - run.rowBegin)
    pure ⟨{ s.map with
              runs := s.map.runs ++ [{ run with rowBegin := s.map.rows, rowEnd := rows }]
              rows := rows }, s.steps⟩

/-- The lines of the texts, as many as the map has. -/
def splitSides (limits : Budget) : List Bytes → Cells → Run (List (List Line))
  | text :: texts, count :: counts => do
    let ls ← splitLines limits text
    throwIf (ls.length ≠ count) "InvalidAlignmentInput"
    let rest ← splitSides limits texts counts
    pure (ls :: rest)
  | _, _ => pure []

/-- The `try` block. -/
def MultiMap.refine (limits : Budget) (map : MultiMap) (texts : List Bytes) : Run MultiMap := do
  let sides ← splitSides limits texts map.lines
  let s ← map.runs.foldlM (refineMultiRun limits sides)
    ⟨{ lines := map.lines }, min limits.steps 4000000⟩
  limits.check
  pure s.map

/-- What the `catch` block makes of a run that fails. -/
def catchTimeout {α : Type} (m : Run α) (fallback : α) : Run α := fun w =>
  match m.run w with
  | .ok r => .ok r
  | .error e => if e.code = "Timeout" then .ok (fallback, w) else .error e

/-- `WithSimilarLines`. -/
def MultiMap.withSimilarLines (limits : Budget) (map : MultiMap) (texts : List Bytes) :
    Run MultiMap := do
  throwIf (texts.length ≠ map.lines.length) "InvalidAlignmentSides"
  catchTimeout (map.refine limits texts) map

/-! ## Slots -/

/-- The sum of a list in which one entry has been raised. -/
theorem sum_set_add {l : List Nat} {i x : Nat} (h : i < l.length) :
    (l.set i (l.getD i 0 + x)).sum = l.sum + x := by
  induction l generalizing i with
  | nil => exact absurd h (Nat.not_lt_zero _)
  | cons y l ih =>
    cases i with
    | zero =>
      rw [set_cons_zero, sum_cons, sum_cons, getD_cons_zero]
      omega
    | succ i =>
      rw [set_cons_succ, sum_cons, sum_cons, getD_cons_succ,
        ih (by simpa using h)]
      omega

theorem fillOnes_spec {matched : List Nat} {a : Nat} (count : Nat)
    (hlen : a + count ≤ matched.length) (hzero : ∀ i, a ≤ i → matched.getD i 0 = 0) :
    (fillOnes matched a count).length = matched.length ∧
      (fillOnes matched a count).sum = matched.sum + count ∧
      ∀ i, a + count ≤ i → (fillOnes matched a count).getD i 0 = 0 := by
  induction count with
  | zero => exact ⟨rfl, rfl, hzero⟩
  | succ count ih =>
    obtain ⟨h1, h2, h3⟩ := ih (by omega)
    have hstep : fillOnes matched a (count + 1) = (fillOnes matched a count).set (a + count)
        ((fillOnes matched a count).getD (a + count) 0 + 1) := by
      rw [h3 _ (Nat.le_refl _), fillOnes, range_succ, foldl_append]
      rfl
    have hlt : a + count < (fillOnes matched a count).length := by omega
    refine ⟨by rw [hstep, length_set, h1], by rw [hstep, sum_set_add hlt, h2]; omega,
      fun i hi => ?_⟩
    rw [hstep, getD_eq_getElem?_getD, getElem?_set_ne (by omega),
      ← getD_eq_getElem?_getD]
    exact h3 i (by omega)

/-- The slots after the parts in front of the lines `a` and `b`: they hold `b` lines. -/
structure Slots.Filled (n a b : Nat) (s : Slots) : Prop where
  gaps : s.gaps.length = n + 1
  matched : s.matched.length = n
  total : s.gaps.sum + s.matched.sum = b
  empty : ∀ i, a ≤ i → s.matched.getD i 0 = 0

theorem Slots.Filled.add {n : Nat} {s : Slots} {part : AlignmentRun}
    (h : s.Filled n part.begin_.1 part.begin_.2) (ha : part.begin_.1 ≤ part.end_.1)
    (hb : part.begin_.2 ≤ part.end_.2) (hn : part.end_.1 ≤ n) :
    (s.add part).Filled n part.end_.1 part.end_.2 := by
  have hsum := h.total
  have hgaps := h.gaps
  have hmatched := h.matched
  obtain ⟨h1, h2, h3⟩ := fillOnes_spec
    (min (part.end_.1 - part.begin_.1) (part.end_.2 - part.begin_.2)) (by omega) h.empty
  have h4 := @sum_set_add s.gaps part.end_.1 (part.end_.2 - part.begin_.2 -
    min (part.end_.1 - part.begin_.1) (part.end_.2 - part.begin_.2)) (by omega)
  refine ⟨?_, h1.trans hmatched, ?_, fun i hi => h3 i (by omega)⟩
  · rw [← hgaps]
    exact length_set
  · show (set _ _ _).sum + (fillOnes _ _ _).sum = _
    rw [h2, h4]
    omega

/-- The parts of a pair leave room for all lines of its second side. -/
theorem Slots.Filled.foldl {n a b c d : Nat} {parts : List AlignmentRun} {s : Slots}
    (h : s.Filled n a b) (h0 : SideTiles parts 0 a c) (h1 : SideTiles parts 1 b d) (hn : c ≤ n) :
    (parts.foldl Slots.add s).Filled n c d := by
  induction parts generalizing s a b with
  | nil =>
    cases h0
    cases h1
    exact h
  | cons part parts ih =>
    obtain ⟨rfl, h2, h0⟩ := h0
    obtain ⟨rfl, h3, h1⟩ := h1
    exact ih (h.add h2 h3 (h0.le.trans hn)) h0 h1

/-! ## The pair of a run -/

section Pair

variable {E : Failure → Prop} {limits : Budget} {texts : List Bytes} {sides : List (List Line)}
  {run : MultiRun} {steps : Nat}

/-- One edit over all lines of two texts. -/
theorem isScript_whole {left right : List Line} (hl : 0 < left.length) :
    IsScript left right [⟨0, left.length, 0, right.length, []⟩] where
  separated := .singleton _
  ordered e he := by
    rw [mem_singleton.mp he]
    exact ⟨Nat.zero_le _, Nat.zero_le _⟩
  nonempty e he := by
    rw [mem_singleton.mp he]
    exact .inl hl
  inside e he := by
    rw [mem_singleton.mp he]
    exact ⟨Nat.le_refl _, Nat.le_refl _⟩
  covers := ⟨Same.refl _ _, Same.refl _ _⟩

/-- What the loops ask of a run: its sides are ranges of lines. -/
structure RunFits (sides : List (List Line)) (run : MultiRun) : Prop where
  cells : run.begin_.length = sides.length ∧ run.end_.length = sides.length
  ranges : ∀ k < sides.length, run.begin_.at k ≤ run.end_.at k ∧
    run.end_.at k ≤ (sideLines sides k).length

theorem RunFits.length_sideSlice (h : RunFits sides run) {k : Nat} (hk : k < sides.length) :
    (sideSlice sides run.begin_ run.end_ k).length = run.count k :=
  length_slice (h.ranges k hk).2

theorem lines_span (hsides : sides = texts.map lines) (k : Nat) :
    lines (run.span sides k) = sideSlice sides run.begin_ run.end_ k := by
  rw [MultiRun.span, sideSlice, hsides, sideLines_map, lines_append]

theorem length_flatten_le {ls : List Line} {b : Nat} (h : ∀ x ∈ ls, x.length ≤ b) :
    ls.flatten.length ≤ ls.length * b := by
  induction ls with
  | nil => exact Nat.zero_le _
  | cons x ls ih =>
    have h1 := h x mem_cons_self
    have h2 := ih fun y hy => h y (mem_cons_of_mem _ hy)
    rw [flatten_cons, length_append, length_cons, Nat.succ_mul]
    omega

/-- A bounded run has few lines, and few bytes. -/
theorem span_bounded (hsides : sides = texts.map lines) (h : RunFits sides run)
    (hb : run.bounded sides steps) {k : Nat} (hk : k < sides.length) :
    (lines (run.span sides k)).length = run.count k ∧
      (lines (run.span sides k)).length ≤ alignmentLineLimit ∧
      (run.span sides k).length ≤ sizeMax := by
  obtain ⟨-, -, -, hall⟩ := of_decide_eq_true hb
  obtain ⟨hcount, hlines⟩ := hall k hk
  have hlen := h.length_sideSlice hk
  have hbytes := length_flatten_le hlines
  rw [hlen] at hbytes
  rw [lines_span hsides]
  refine ⟨hlen, ?_, hbytes.trans ?_⟩
  · unfold alignmentLineLimit
    omega
  · unfold sizeMax
    omega

theorem pairSlots_yields (hE : ∀ e, limits.Outside e → E e) (hsides : sides = texts.map lines)
    (h : RunFits sides run) (hb : run.bounded sides steps) {steps' k : Nat}
    (hk : k < sides.length) :
    Yields E (pairSlots limits sides run steps' k) fun found =>
      found.1.Filled (run.count 0) (run.count 0) (run.count k) := by
  have hzero : 0 < sides.length := by omega
  obtain ⟨hl1, hl2, hl3⟩ := span_bounded hsides h hb hzero
  obtain ⟨hr1, hr2, hr3⟩ := span_bounded hsides h hb hk
  have hpos : run.count 0 ≠ 0 := (of_decide_eq_true hb).2.1
  have hbuild := @build_yields { limits with steps := steps' } (lines (run.span sides 0))
    (lines (run.span sides k)) _ (isScript_whole (by omega)) hl2 hr2
  rw [hl1, hr1] at hbuild
  refine (hbuild.mono (fun e he => hE e he) fun _ hmap => hmap).bind fun map hmap => ?_
  have hsimilar := @withSimilarLines_yields { limits with steps := steps' } map _ _ _ hmap
    (changedLines_true _) ⟨hl2, hl3⟩ ⟨hr2, hr3⟩
  refine (hsimilar.mono (fun e he => hE e he.1) fun _ hpair => hpair).bind fun pair hpair =>
    .pure ?_
  have h0 := hpair.1.sides 0
  have h1 := hpair.1.sides 1
  rw [hpair.1.lines_at] at h0 h1
  refine Slots.Filled.foldl (a := 0) (b := 0) ⟨length_replicate, length_replicate, ?_,
    fun i _ => ?_⟩ (hl1 ▸ h0) (hr1 ▸ h1) (Nat.le_refl _)
  · rw [sum_replicate_nat, sum_replicate_nat, Nat.mul_zero, Nat.mul_zero]
  · rw [getD_eq_getElem?_getD, getElem?_replicate]
    split <;> rfl

/-- The slots of all sides but the first. -/
theorem allSlots_yields (hE : ∀ e, limits.Outside e → E e) (hsides : sides = texts.map lines)
    (h : RunFits sides run) (hb : run.bounded sides steps) (count side steps' : Nat)
    (hcount : side + count ≤ sides.length) :
    Yields E (allSlots limits sides run count side steps') fun found =>
      found.1.length = count ∧ ∀ (j : Nat) (s : Slots), found.1[j]? = some s →
        s.Filled (run.count 0) (run.count 0) (run.count (side + j)) := by
  induction count generalizing side steps' with
  | zero => exact .pure ⟨rfl, fun j s hj => by cases hj⟩
  | succ count ih =>
    rw [allSlots]
    refine (pairSlots_yields hE hsides h hb (k := side) (by omega)).bind fun found hfound => ?_
    refine (ih (side + 1) _ (by omega)).bind fun rest hrest => .pure ?_
    refine ⟨by rw [length_cons, hrest.1], fun j s hj => ?_⟩
    cases j with
    | zero =>
      rw [getElem?_cons_zero] at hj
      cases hj
      exact hfound
    | succ j =>
      rw [getElem?_cons_succ] at hj
      rw [show side + (j + 1) = side + 1 + j by omega]
      exact hrest.2 j s hj

end Pair

/-! ## The refined runs -/

section Refine

variable {E : Failure → Prop} {limits : Budget} {texts : List Bytes} {sides : List (List Line)}
  {map : MultiMap} {cursor : Cells}

theorem MultiTiled.place (hn : texts.length ≤ 4) (hsides : sides = texts.map lines)
    (h : MultiTiled sides map cursor) {end_ : Cells} (hb : cursor.length = sides.length)
    (he : end_.length = sides.length) (hle : ∀ k < sides.length, cursor.at k ≤ end_.at k) :
    MultiTiled sides (map.place sides cursor end_) end_ := by
  refine h.push hb he hle ?_
  subst hsides
  rw [length_map] at hb
  exact differing_flagged hn hb

/-- What a side still has in the slots from number `i` on. -/
def Slots.left (s : Slots) (i : Nat) : Nat := (s.gaps.drop i).sum + (s.matched.drop i).sum

theorem Slots.left_step {s : Slots} {i : Nat} (hg : i < s.gaps.length) (hm : i < s.matched.length) :
    s.left i = s.gaps.getD i 0 + s.matched.getD i 0 + s.left (i + 1) := by
  rw [Slots.left, Slots.left, drop_eq_getElem_cons hg, drop_eq_getElem_cons hm,
    sum_cons, sum_cons, getD_eq_getElem _ _ hg, getD_eq_getElem _ _ hm]
  omega

theorem Slots.left_last {s : Slots} {i : Nat} (hg : s.gaps.length = i + 1)
    (hm : s.matched.length = i) : s.left i = s.gaps.getD i 0 := by
  rw [Slots.left, drop_eq_getElem_cons (by omega : i < s.gaps.length),
    drop_eq_nil_of_le (Nat.le_of_eq hg), drop_eq_nil_of_le (Nat.le_of_eq hm),
    getD_eq_getElem _ _ (by omega)]
  simp

theorem at_advance {slots : List Slots} {f : Slots → Nat} {k : Nat}
    (hc : cursor.length = sides.length) (hs : slots.length = sides.length) (hk : k < sides.length) :
    ∃ s, slots[k]? = some s ∧
      Cells.at (List.zipWith (· + ·) cursor (slots.map f)) k = cursor.at k + f s := by
  refine ⟨slots[k], getElem?_eq_getElem (hs ▸ hk), ?_⟩
  rw [Cells.at_zipWith (hc ▸ hk) (by rw [length_map]; exact hs ▸ hk)]
  congr 1
  rw [Cells.at, getD_eq_getElem _ _ (by rw [length_map]; exact hs ▸ hk),
    getElem_map]

/-- The loop takes every side past all of its slots. -/
theorem fillRows_yields (hE : ∀ e, limits.Outside e → E e) (hn : texts.length ≤ 4)
    (hsides : sides = texts.map lines) {slots : List Slots} (hslots : slots.length = sides.length)
    {n count i : Nat} (hi : i + count = n)
    (hlen : ∀ s ∈ slots, s.gaps.length = n + 1 ∧ s.matched.length = n)
    (hc : cursor.length = sides.length) (h : MultiTiled sides map cursor) :
    Yields E (fillRows limits sides slots count i cursor map) fun filled =>
      filled.1.length = sides.length ∧ MultiTiled sides filled.2 filled.1 ∧
      filled.2.lines = map.lines ∧ ∀ (k : Nat) (s : Slots), slots[k]? = some s →
        filled.1.at k = cursor.at k + s.left i := by
  have hzip : ∀ {v : Cells} {f : Slots → Nat}, v.length = sides.length →
      (zipWith (· + ·) v (slots.map f)).length = sides.length := by
    intro v f hv
    rw [length_zipWith, length_map, hv, hslots, Nat.min_self]
  have hgrow : ∀ {v : Cells} {f : Slots → Nat} {k : Nat}, v.length = sides.length →
      k < sides.length → v.at k ≤ Cells.at (zipWith (· + ·) v (slots.map f)) k := by
    intro v f k hv hk
    obtain ⟨s, -, hat⟩ := at_advance (f := f) hv hslots hk
    rw [hat]
    exact Nat.le_add_right _ _
  have hat : ∀ {v : Cells} {f : Slots → Nat} {k : Nat} {s : Slots}, v.length = sides.length →
      slots[k]? = some s →
        Cells.at (zipWith (· + ·) v (slots.map f)) k = v.at k + f s := by
    intro v f k s hv hk
    obtain ⟨hlt, -⟩ := List.getElem?_eq_some_iff.mp hk
    obtain ⟨s', hs', hat⟩ := at_advance (f := f) hv hslots (hslots ▸ hlt)
    rw [hk] at hs'
    cases hs'
    exact hat
  induction count generalizing i cursor map with
  | zero =>
    rw [fillRows]
    refine (Budget.check_yields hE).skip fun _ => .pure ?_
    refine ⟨hzip hc, h.place hn hsides hc (hzip hc) fun k hk => hgrow hc hk, push_lines,
      fun k s hk => ?_⟩
    obtain ⟨hg, hm⟩ := hlen s (mem_of_getElem? hk)
    rw [hat hc hk, @Slots.left_last s i (by omega) (by omega)]
  | succ count ih =>
    rw [fillRows]
    refine (Budget.check_yields hE).skip fun _ => ?_
    have hgap := h.place hn hsides hc (hzip hc) fun k hk =>
      hgrow (f := fun s => s.gaps.getD i 0) hc hk
    have hrow := hgap.place hn hsides (hzip hc) (hzip (hzip hc)) fun k hk =>
      hgrow (f := fun s => s.matched.getD i 0) (hzip hc) hk
    refine (ih (by omega) (hzip (hzip hc)) hrow).weaken fun filled hfilled => ?_
    obtain ⟨h1, h2, h3, h4⟩ := hfilled
    refine ⟨h1, h2, h3.trans (push_lines.trans push_lines), fun k s hk => ?_⟩
    obtain ⟨hg, hm⟩ := hlen s (mem_of_getElem? hk)
    have hstep := @Slots.left_step s i (by omega) (by omega)
    rw [h4 k s hk, hat (hzip hc) hk, hat hc hk, hstep]
    omega

theorem MultiTiled.congr (h : MultiTiled sides map cursor) {v : Cells}
    (hv : ∀ k < sides.length, v.at k = cursor.at k) : MultiTiled sides map v where
  tiles k hk := by
    rw [hv k hk]
    exact h.tiles k hk
  rows := h.rows
  height := h.height
  cells := h.cells
  flags := h.flags

/-- A run of a map that is aligned. -/
structure RunAligned (sides : List (List Line)) (run : MultiRun) : Prop extends
    RunFits sides run where
  rows : run.rowBegin ≤ run.rowEnd
  height : ∀ k < sides.length, run.end_.at k - run.begin_.at k ≤ run.rowEnd - run.rowBegin
  flags : Flagged sides run.begin_ run.end_ run.changedPairs

/-- One run, refined, placed anew or copied. -/
theorem refineMultiRun_yields (hE : ∀ e, limits.Outside e → E e)
    (hn : 0 < texts.length ∧ texts.length ≤ 4) (hsides : sides = texts.map lines)
    {s : MultiRefinement} {run : MultiRun} (hrun : RunAligned sides run)
    (h : MultiTiled sides s.map run.begin_) :
    Yields E (refineMultiRun limits sides s run) fun s' =>
      MultiTiled sides s'.map run.end_ ∧ s'.map.lines = s.map.lines := by
  have hpos : 0 < sides.length := by
    rw [hsides, length_map]
    exact hn.1
  refine (Budget.check_yields hE).skip fun _ => .ite (fun hb => ?_) fun _ => .pure ?_
  · refine (allSlots_yields hE hsides hrun.toRunFits hb (sides.length - 1) 1 s.steps
      (by omega)).bind fun found hfound => ?_
    refine .ite (fun _ => ?_) fun _ => .pure ⟨?_, push_lines⟩
    swap
    · exact h.place hn.2 hsides hrun.cells.1 hrun.cells.2 fun k hk => (hrun.ranges k hk).1
    -- The slots of the first text hold its own lines.
    have hfirst : Slots.left ⟨replicate (run.count 0 + 1) 0, replicate (run.count 0) 1⟩ 0 =
        run.count 0 := by
      rw [Slots.left, drop_zero, drop_zero, sum_replicate_nat, sum_replicate_nat]
      omega
    have hlen : ∀ s ∈ (⟨replicate (run.count 0 + 1) 0, replicate (run.count 0) 1⟩ ::
        found.1 : List Slots), s.gaps.length = run.count 0 + 1 ∧
        s.matched.length = run.count 0 := by
      intro s hs
      rcases mem_cons.mp hs with rfl | hs
      · exact ⟨length_replicate, length_replicate⟩
      · obtain ⟨j, hj⟩ := mem_iff_getElem?.mp hs
        exact ⟨(hfound.2 j s hj).gaps, (hfound.2 j s hj).matched⟩
    refine (fillRows_yields hE hn.2 hsides (by rw [length_cons, hfound.1]; omega)
      (Nat.zero_add _) hlen hrun.cells.1 h).bind fun filled hfilled => ?_
    obtain ⟨h1, h2, h3, h4⟩ := hfilled
    have hend : filled.1 = run.end_ := by
      refine Cells.ext_at (h1.trans hrun.cells.2.symm) fun k hk => ?_
      rw [h1] at hk
      have hrange := (hrun.ranges k hk).1
      have hleft : ∃ s, (⟨replicate (run.count 0 + 1) 0, replicate (run.count 0) 1⟩ ::
          found.1 : List Slots)[k]? = some s ∧ s.left 0 = run.count k := by
        cases k with
        | zero => exact ⟨_, rfl, hfirst⟩
        | succ k =>
          have hk' : k < found.1.length := by
            rw [hfound.1]
            omega
          have hslot := hfound.2 k found.1[k] (getElem?_eq_getElem hk')
          refine ⟨found.1[k], ?_, ?_⟩
          · rw [getElem?_cons_succ]
            exact getElem?_eq_getElem hk'
          · rw [Slots.left, drop_zero, drop_zero, hslot.total, Nat.add_comm]
      obtain ⟨s, hs, hleft⟩ := hleft
      rw [h4 k s hs, hleft, MultiRun.count]
      omega
    refine (throwIf_yields fun hne => absurd hend hne).bind fun _ _ => .pure ?_
    exact ⟨hend ▸ h2, h3⟩
  · refine ⟨⟨fun k hk => (h.tiles k hk).append ⟨rfl, (hrun.ranges k hk).1, rfl⟩,
      h.rows.append ⟨rfl, Nat.le_add_right _ _, rfl⟩, fun r hr => ?_, fun r hr => ?_,
      fun r hr => ?_⟩, rfl⟩
    · rcases mem_append.mp hr with hr | hr
      · exact h.height r hr
      · rw [mem_singleton.mp hr]
        intro k hk
        rw [Nat.add_sub_cancel_left]
        exact hrun.height k hk
    · rcases mem_append.mp hr with hr | hr
      · exact h.cells r hr
      · rw [mem_singleton.mp hr]
        exact hrun.cells
    · rcases mem_append.mp hr with hr | hr
      · exact h.flags r hr
      · rw [mem_singleton.mp hr]
        exact hrun.flags

theorem refineMultiRuns_yields (hE : ∀ e, limits.Outside e → E e)
    (hn : 0 < texts.length ∧ texts.length ≤ 4) (hsides : sides = texts.map lines)
    {runs : List MultiRun} {s : MultiRefinement}
    (htiles : ∀ k < sides.length, Tiles (fun r : MultiRun => r.begin_.at k) (fun r => r.end_.at k)
      (cursor.at k) runs (sideLines sides k).length)
    (hruns : ∀ r ∈ runs, (r.begin_.length = sides.length ∧ r.end_.length = sides.length) ∧
      r.rowBegin ≤ r.rowEnd ∧
      (∀ k < sides.length, r.end_.at k - r.begin_.at k ≤ r.rowEnd - r.rowBegin) ∧
      Flagged sides r.begin_ r.end_ r.changedPairs)
    (h : MultiTiled sides s.map cursor) :
    Yields E (runs.foldlM (refineMultiRun limits sides) s) fun s' =>
      (∃ v : Cells, (∀ k < sides.length, v.at k = (sideLines sides k).length) ∧
        MultiTiled sides s'.map v) ∧ s'.map.lines = s.map.lines := by
  induction runs generalizing s cursor with
  | nil => exact .pure ⟨⟨cursor, fun k hk => htiles k hk, h⟩, rfl⟩
  | cons run runs ih =>
    obtain ⟨hcells, hrows, hheight, hflags⟩ := hruns run mem_cons_self
    rw [foldlM_cons]
    have hrun : RunAligned sides run := ⟨⟨hcells, fun k hk =>
      ⟨(htiles k hk).2.1, (htiles k hk).2.2.le⟩⟩, hrows, hheight, hflags⟩
    refine (refineMultiRun_yields hE hn hsides hrun (h.congr fun k hk => (htiles k hk).1)).bind
      fun s' hs' => ?_
    refine (ih (fun k hk => (htiles k hk).2.2) (fun r hr => hruns r (mem_cons_of_mem _ hr))
      hs'.1).weaken fun s'' hs'' => ⟨hs''.1, hs''.2.trans hs'.2⟩

theorem splitSides_yields (hE : ∀ e, limits.Outside e → E e) (hL : E ⟨"LineLimit"⟩)
    (hB : E ⟨"LongLineLimit"⟩) (texts : List Bytes) :
    Yields E (splitSides limits texts ((texts.map lines).map List.length)) fun sides =>
      sides = texts.map lines := by
  induction texts with
  | nil => exact .pure rfl
  | cons text texts ih =>
    rw [map_cons, map_cons, splitSides]
    refine (splitLines_yields hE (fun _ => hL) fun _ => hB).bind fun ls hls => ?_
    refine (throwIf_yields fun hc => absurd (congrArg length hls.1) hc).bind fun _ _ => ?_
    exact ih.bind fun rest hrest => .pure (by rw [hls.1, hrest])

/-- A block that is given up when the time is up. -/
theorem catchTimeout_yields {α : Type} {m : Run α} {fallback : α} {Q : α → Prop}
    (h : Yields E m Q) (hf : Q fallback) :
    Yields (fun e => E e ∧ e.code ≠ "Timeout") (catchTimeout m fallback) Q := by
  refine .of_runs (fun w a w' hrun => ?_) fun w e hrun => ?_
  · unfold catchTimeout StateT.run at hrun
    dsimp only at hrun
    split at hrun
    · rename_i r heq
      cases hrun
      exact h.of_ok heq
    · split at hrun
      · cases hrun
        exact hf
      · cases hrun
  · unfold catchTimeout StateT.run at hrun
    dsimp only at hrun
    split at hrun
    · cases hrun
    · rename_i e' heq
      split at hrun
      · cases hrun
      · rename_i hcode
        cases hrun
        exact ⟨h.of_error heq, hcode⟩

/-- The refined map is aligned, and that the time is up never makes the pass fail. -/
theorem refineMulti_yields (hE : ∀ e, limits.Outside e → E e) (hL : E ⟨"LineLimit"⟩)
    (hB : E ⟨"LongLineLimit"⟩) (hn : 0 < texts.length ∧ texts.length ≤ 4)
    (h : MultiAligned (texts.map lines) map) :
    Yields (fun e => E e ∧ e.code ≠ "Timeout") (map.withSimilarLines limits texts)
      fun map' => MultiAligned (texts.map lines) map' := by
  have hrefine : Yields E (map.refine limits texts)
      fun map' => MultiAligned (texts.map lines) map' := by
    unfold MultiMap.refine
    rw [h.lines]
    refine (splitSides_yields hE hL hB texts).bind fun sides hsides => ?_
    rw [← hsides] at h ⊢
    have hat : ∀ k < sides.length, map.lines.at k = (sideLines sides k).length := fun k hk => by
      rw [h.lines, at_lines _ hk]
    have hzero : ∀ k < sides.length, Cells.at (replicate sides.length 0) k = 0 := fun k hk =>
      Cells.at_replicate hk
    have hnone : ∀ {P : MultiRun → Prop}, ∀ r ∈ ([] : List MultiRun), P r := fun _ hr =>
      absurd hr not_mem_nil
    have hstart : MultiTiled sides { lines := sides.map length } (replicate sides.length 0) :=
      ⟨fun k hk => (hzero k hk).symm, rfl, hnone, hnone, hnone⟩
    refine (refineMultiRuns_yields (s := ⟨{ lines := sides.map length }, _⟩) hE hn hsides
      (fun k hk => ?_) (fun r hr => ⟨h.tiled.cells r hr, (h.tiled.rows.mem hr).2.1,
        h.tiled.height r hr, h.tiled.flags r hr⟩) hstart).bind fun s hs => ?_
    · rw [hzero k hk, ← hat k hk]
      exact h.tiled.tiles k hk
    obtain ⟨⟨v, hv, htiled⟩, hlines⟩ := hs
    refine (Budget.check_yields hE).skip fun _ => .pure ⟨hlines, htiled.congr fun k hk => ?_⟩
    rw [hlines, hv k hk]
    exact at_lines _ hk
  refine (throwIf_yields fun hne => ?_).bind fun _ _ => ?_
  · rw [h.lines, length_map, length_map] at hne
    exact absurd rfl hne
  exact catchTimeout_yields hrefine h

end Refine

/-! ## From `Build` to the refined map -/

/-- What a map of texts says. -/
structure MultiConsistent (texts : List Bytes) (map : MultiMap) : Prop where
  /-- The runs tile every text. -/
  tiles : ∀ side < texts.length, Tiles (fun r : MultiRun => r.begin_.at side)
    (fun r => r.end_.at side) 0 map.runs (lines (texts.getD side [])).length
  /-- A run without flags holds equal lines on all sides. -/
  unchanged : ∀ r ∈ map.runs, r.changedPairs = 0 → ∀ a b, a < texts.length → b < texts.length →
    sideSlice (texts.map lines) r.begin_ r.end_ a = sideSlice (texts.map lines) r.begin_ r.end_ b
  /-- The flag of two sides is set where their lines differ. -/
  flags : ∀ r ∈ map.runs, Flagged (texts.map lines) r.begin_ r.end_ r.changedPairs
  /-- Two sides are aligned with each other. -/
  pairs : ∀ left right, left ≠ right → left < texts.length → right < texts.length →
    ∃ two, map.pair left right = .ok two ∧
      Aligned (lines (texts.getD left []), lines (texts.getD right [])) two ∧
      TilesTexts (lines (texts.getD left []), lines (texts.getD right [])) two

theorem MultiAligned.consistent {texts : List Bytes} {map : MultiMap}
    (h : MultiAligned (texts.map Hc.Compare.lines) map) : MultiConsistent texts map := by
  have hlen : (texts.map Hc.Compare.lines).length = texts.length := length_map _
  refine ⟨fun side hs => ?_, fun r hr hzero a b ha hb => ?_, h.tiled.flags, fun l r hne hl hr => ?_⟩
  · have := h.tiled.tiles side (hlen ▸ hs)
    rwa [h.lines, at_lines _ (hlen ▸ hs), sideLines_map] at this
  · by_cases hab : a = b
    · rw [hab]
    · have hflag := h.tiled.flags r hr a b (hlen ▸ ha) (hlen ▸ hb) hab
      rw [hzero, Nat.zero_testBit] at hflag
      exact Decidable.not_not.mp fun hdiff => absurd (hflag.mpr hdiff) (by decide)
  · obtain ⟨two, hpair, haligned⟩ := h.pair hne (hlen ▸ hl) (hlen ▸ hr)
    rw [sideLines_map, sideLines_map] at haligned
    exact ⟨two, hpair, haligned, haligned.tilesTexts⟩

/-- If `InvalidAlignmentEdits` is thrown, the outside threw it. -/
def EditsFit (limits : Budget) (e : Failure) : Prop :=
  e.code = "InvalidAlignmentEdits" → limits.Outside e

theorem EditsFit.engine (limits : Budget) : EngineFailures (EditsFit limits) limits :=
  ⟨⟨fun _ he _ => he, fun h => absurd h (by decide)⟩, fun h => absurd h (by decide),
    fun h => absurd h (by decide), fun h => absurd h (by decide), fun h => absurd h (by decide)⟩

/-- `Build` never throws `InvalidAlignmentEdits` for two to four texts. The map tiles them, its
flags say where two of them differ, and any two of them are aligned; and so it is after
`WithSimilarLines` under any budget, whose time may be up. -/
theorem multi_alignment_consistent (limits : Budget) (lib : Library)
    (sortCompares : List Change → Nat) (texts : List Bytes)
    (hn : 2 ≤ texts.length ∧ texts.length ≤ 4) :
    Yields (EditsFit limits) (MultiMap.build limits lib sortCompares texts) fun map =>
      MultiConsistent texts map ∧ ∀ budget : Budget,
        Yields (fun e => EditsFit budget e ∧ e.code ≠ "Timeout")
          (map.withSimilarLines budget texts) fun map' => MultiConsistent texts map' := by
  refine (multiBuild_yields (EditsFit.engine limits) (fun h => absurd h (by decide))
    (fun h => absurd h (by decide)) hn sortCompares).weaken fun map hmap => ⟨hmap.consistent, ?_⟩
  intro budget
  exact (refineMulti_yields (EditsFit.engine budget).outside (fun h => absurd h (by decide))
    (fun h => absurd h (by decide)) (by omega) hmap).weaken fun map' hmap' => hmap'.consistent

/-- Three texts with a line in common. -/
def threeTexts : List Bytes := [[97, 10, 98, 10], [98, 10, 99, 10], [97, 10]]

theorem multi_alignment_consistent_three :
    Yields (EditsFit .unlimited)
      (MultiMap.build .unlimited plainLibrary (fun _ => 0) threeTexts) fun map =>
        MultiConsistent threeTexts map ∧ ∀ budget : Budget,
          Yields (fun e => EditsFit budget e ∧ e.code ≠ "Timeout")
            (map.withSimilarLines budget threeTexts) fun map' => MultiConsistent threeTexts map' :=
  @multi_alignment_consistent .unlimited plainLibrary (fun _ => 0) threeTexts
    ⟨by decide, by decide⟩

end Hc.Compare
