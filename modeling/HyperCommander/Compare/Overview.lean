import HyperCommander.Compare.MultiSimilar
import HyperCommander.Lib.DifferenceArray
import Mathlib.Algebra.Group.Pi.Lemmas

/-!
# The overview raster (`HyperCompare/core/overviewMap.cpp`, `BuildOverviewRaster`)

A column of pixels for each side of an alignment, with a bit for each kind of change. The source
gathers the changes in an array of differences and sums it up once.

* `buildSide_eq`: the column is the one that `paintRuns` paints run by run.
* `Made.shows`: in every map that the program makes, a changed run has lines on a side.
* `overview_paints`: both together, and that a changed run leaves a pixel on each side.
-/

namespace Hc.Compare

open List Tiling DifferenceArray

/-- `std::array<int, 4>`: modified, added, removed and gap. -/
abbrev Counts := Fin 4 → Int

/-- `OverviewRaster`. A band is the bits of the kinds at a pixel. -/
structure OverviewRaster where
  bands : Sides (List Nat)
  rows : Sides Nat
deriving DecidableEq

/-- `events[at][kind] += delta`, which is `none` out of range. -/
def bumpEvent (events : List Counts) (place : Nat) (kind : Fin 4) (delta : Int) :
    Option (List Counts) :=
  if place < events.length then some (bump events place (Pi.single kind delta)) else none

/-- The first pixel of a mark. -/
def markFirst (pixels rows begin_ : Nat) : Nat := min (pixels - 1) (begin_ * pixels / rows)

/-- The pixel behind a mark. -/
def markLast (pixels rows begin_ end_ : Nat) : Nat :=
  min pixels (max (markFirst pixels rows begin_ + 1) ((end_ * pixels + rows - 1) / rows))

/-- The `mark` lambda, which is `none` where it would divide by zero. -/
def mark (pixels rows begin_ end_ : Nat) (kind : Fin 4) (events : List Counts) :
    Option (List Counts) := do
  if rows = 0 then none
  else
    let events ← bumpEvent events (markFirst pixels rows begin_) kind 1
    bumpEvent events (markLast pixels rows begin_ end_) kind (-1)

/-- A span of rows with its kind. -/
structure Span where
  begin_ : Nat
  end_ : Nat
  kind : Fin 4
deriving DecidableEq

/-- What the loop over the runs marks. -/
def runSpans (aligned : Bool) (side : Nat) (run : AlignmentRun) : List Span :=
  if run.changed then
    let count := run.end_.at side - run.begin_.at side
    let other := run.end_.at (1 - side) - run.begin_.at (1 - side)
    let begin_ := if aligned then run.rowBegin else run.begin_.at side
    (if count ≠ 0 then
      [⟨begin_, begin_ + count, if other ≠ 0 then 0 else if side = 0 then 2 else 1⟩] else []) ++
    (if count < other then
      [⟨begin_ + count, if aligned then run.rowEnd else begin_ + count, 3⟩] else [])
  else []

/-- The bits of the kinds with a count. -/
def bandOf (counts : Counts) : Nat :=
  (List.finRange 4).foldl (fun band kind =>
    if counts kind ≠ 0 then band ||| 2 ^ kind.val else band) 0

/-- The loop over the pixels. -/
def sumBands (events : List Counts) : (count pixel : Nat) → Counts → Option (List Nat)
  | 0, _, _ => some []
  | count + 1, pixel, counts => do
    let event ← events[pixel]?
    let rest ← sumBands events count (pixel + 1) (counts + event)
    some (bandOf (counts + event) :: rest)

/-- `rows`: the last one is the end of the file. -/
def overviewRows (map : AlignmentMap) (aligned : Bool) (side : Nat) : Nat :=
  (if aligned then map.rows else map.lines.at side) + 1

/-- The body of the loop over the sides. -/
def buildSide (map : AlignmentMap) (pixels : Nat) (aligned : Bool) (side : Nat) :
    Option (List Nat) := do
  if pixels = 0 then some []
  else
    let rows := overviewRows map aligned side
    let events ← (map.runs.flatMap (runSpans aligned side)).foldlM
      (fun events span => mark pixels rows span.begin_ span.end_ span.kind events)
      (List.replicate (pixels + 1) 0)
    sumBands events pixels 0 0

/-- `BuildOverviewRaster`. -/
def buildOverviewRaster (map : AlignmentMap) (pixels : Nat) (aligned : Bool) :
    Option OverviewRaster := do
  let pixels := min pixels 4096
  let left ← buildSide map pixels aligned 0
  let right ← buildSide map pixels aligned 1
  some ⟨(left, right), (overviewRows map aligned 0, overviewRows map aligned 1)⟩

/-! ## Painting run by run -/

/-- The pixels of a span, each as one stroke. -/
def Span.pixels (pixels rows : Nat) (span : Span) : List Nat :=
  List.range' (markFirst pixels rows span.begin_)
    (markLast pixels rows span.begin_ span.end_ - markFirst pixels rows span.begin_)

/-- Paints the pixels of a span one after the other. -/
def paintSpan (pixels rows : Nat) (bands : List Nat) (span : Span) : List Nat :=
  (span.pixels pixels rows).foldl (fun bands p => bands.modify p (· ||| 2 ^ span.kind.val)) bands

/-- Paints the changed runs one after the other. -/
def paintRuns (map : AlignmentMap) (pixels : Nat) (aligned : Bool) (side : Nat) : List Nat :=
  (map.runs.flatMap (runSpans aligned side)).foldl
    (paintSpan pixels (overviewRows map aligned side)) (List.replicate pixels 0)

/-! ## The array of differences paints -/

section Paint

variable {pixels rows p i : Nat} {events : List Counts} {spans : List Span} {span : Span}
  {bands : List Nat}

theorem markFirst_lt (hp : 0 < pixels) (begin_ : Nat) : markFirst pixels rows begin_ < pixels := by
  unfold markFirst
  omega

/-- A mark has a pixel, and ends within the column. -/
theorem markFirst_lt_last (hp : 0 < pixels) (begin_ end_ : Nat) :
    markFirst pixels rows begin_ < markLast pixels rows begin_ end_ ∧
      markLast pixels rows begin_ end_ ≤ pixels := by
  have hlt : markFirst pixels rows begin_ < pixels := markFirst_lt hp begin_
  unfold markLast
  omega

/-- The stamp of a span. -/
def Span.stamp (pixels rows : Nat) (span : Span) : Stamp Counts :=
  ⟨markFirst pixels rows span.begin_, markLast pixels rows span.begin_ span.end_,
    Pi.single span.kind 1⟩

theorem mark_eq (hp : 0 < pixels) (hr : rows ≠ 0) (he : events.length = pixels + 1) :
    mark pixels rows span.begin_ span.end_ span.kind events =
      some (stamp events (span.stamp pixels rows).first (span.stamp pixels rows).last
        (span.stamp pixels rows).value) := by
  obtain ⟨h1, h2⟩ := @markFirst_lt_last pixels rows hp span.begin_ span.end_
  unfold mark bumpEvent
  rw [if_neg hr, if_pos (by omega), Option.bind_eq_bind, Option.bind_some,
    if_pos (by rw [length_bump]; omega), Pi.single_neg]
  rfl

theorem marks_eq (hp : 0 < pixels) (hr : rows ≠ 0) (he : events.length = pixels + 1) :
    spans.foldlM (fun events span =>
      mark pixels rows span.begin_ span.end_ span.kind events) events =
      some ((spans.map (Span.stamp pixels rows)).foldl
        (fun ds s => stamp ds s.first s.last s.value) events) := by
  induction spans generalizing events with
  | nil => rfl
  | cons span spans ih =>
    rw [foldlM_cons, mark_eq hp hr he, Option.bind_eq_bind, Option.bind_some,
      ih (by rw [length_stamp]; exact he), map_cons, foldl_cons]

theorem length_stamps (ss : List (Stamp Counts)) :
    (ss.foldl (fun ds s => stamp ds s.first s.last s.value) events).length = events.length := by
  induction ss generalizing events with
  | nil => rfl
  | cons s ss ih => rw [foldl_cons, ih, length_stamp]

/-- The loop over the pixels, from the running sum in front of `pixel` on. -/
theorem sumBands_eq {count pixel : Nat} (h : pixel + count ≤ events.length) :
    sumBands events count pixel (events.take pixel).sum =
      some ((List.range' pixel count).map fun p => bandOf (level events p)) := by
  induction count generalizing pixel with
  | zero => rfl
  | succ count ih =>
    have hlt : pixel < events.length := by omega
    have hsum : (events.take pixel).sum + events[pixel] = (events.take (pixel + 1)).sum := by
      rw [take_add_one, getElem?_eq_getElem hlt, sum_append, Option.toList_some,
        sum_singleton]
    rw [sumBands, getElem?_eq_getElem hlt, Option.bind_eq_bind, Option.bind_some, hsum,
      ih (by omega), Option.bind_eq_bind, Option.bind_some, range'_succ, map_cons]
    rfl

/-- What the spans add to the count of a kind is the number of those of the kind that cover the
pixel. -/
theorem total_stamps (kind : Fin 4) :
    total (spans.map (Span.stamp pixels rows)) p kind =
      (spans.countP fun span => p ∈ span.pixels pixels rows ∧ span.kind = kind : Nat) := by
  induction spans with
  | nil => rfl
  | cons span spans ih =>
    have hmem : p ∈ span.pixels pixels rows ↔ (span.stamp pixels rows).first ≤ p ∧
        p < (span.stamp pixels rows).last := by
      rw [Span.pixels, mem_range'_1]
      dsimp only [Span.stamp]
      omega
    have hcons : total ((span :: spans).map (Span.stamp pixels rows)) p kind =
        (if p ∈ span.pixels pixels rows then (Pi.single span.kind 1 : Counts) else 0) kind +
          total (spans.map (Span.stamp pixels rows)) p kind := by
      rw [map_cons, total, map_cons, sum_cons, Pi.add_apply]
      congr 1
      exact congrFun (if_congr hmem.symm rfl rfl) kind
    rw [hcons, ih, countP_cons, Nat.cast_add, add_comm]
    congr 1
    by_cases hp : p ∈ span.pixels pixels rows
    · by_cases hk : span.kind = kind
      · subst hk
        simp [hp]
      · simp [hp, hk, Ne.symm hk]
    · simp [hp]

theorem testBit_bandOf (counts : Counts) : (bandOf counts).testBit i = true ↔
    ∃ kind : Fin 4, counts kind ≠ 0 ∧ kind.val = i := by
  have hfold : ∀ (kinds : List (Fin 4)) (band : Nat),
      (kinds.foldl (fun band kind => if counts kind ≠ 0 then band ||| 2 ^ kind.val else band)
        band).testBit i = true ↔
      band.testBit i = true ∨ ∃ kind ∈ kinds, counts kind ≠ 0 ∧ kind.val = i := by
    intro kinds
    induction kinds with
    | nil => simp
    | cons kind kinds ih =>
      intro band
      rw [foldl_cons, ih, exists_mem_cons_iff]
      split
      · rename_i h
        rw [Nat.testBit_or, Bool.or_eq_true, Nat.testBit_two_pow, decide_eq_true_iff, or_assoc]
        simp only [h, ne_eq, not_false_eq_true, true_and]
      · rename_i h
        simp only [h, false_and, false_or]
  rw [bandOf, hfold, Nat.zero_testBit]
  simp

/-- A span covers a pixel with bit `i`. -/
def Marked (pixels rows : Nat) (spans : List Span) (p i : Nat) : Prop :=
  ∃ span ∈ spans, p ∈ span.pixels pixels rows ∧ span.kind.val = i

theorem testBit_level (hp : 0 < pixels) :
    (bandOf (level ((spans.map (Span.stamp pixels rows)).foldl
      (fun ds s => stamp ds s.first s.last s.value) (List.replicate (pixels + 1) 0)) p)).testBit i =
        true ↔ Marked pixels rows spans p i := by
  have hin : ∀ s ∈ spans.map (Span.stamp pixels rows), s.first ≤ s.last ∧
      s.last < (replicate (pixels + 1) (0 : Counts)).length := by
    intro s hs
    obtain ⟨span, -, rfl⟩ := mem_map.mp hs
    have := @markFirst_lt_last pixels rows hp span.begin_ span.end_
    rw [length_replicate]
    dsimp only [Span.stamp]
    omega
  rw [testBit_bandOf, level_stamps hin, level_replicate, zero_add]
  simp only [total_stamps, ne_eq, Nat.cast_eq_zero, countP_eq_zero, decide_eq_true_eq,
    not_forall, not_not]
  constructor
  · rintro ⟨kind, ⟨span, hs, hp, rfl⟩, rfl⟩
    exact ⟨span, hs, hp, rfl⟩
  · rintro ⟨span, hs, hp, rfl⟩
    exact ⟨span.kind, ⟨span, hs, hp, rfl⟩, rfl⟩

/-! ### Stroke by stroke -/

theorem length_paintSpan : (paintSpan pixels rows bands span).length = bands.length := by
  unfold paintSpan
  induction span.pixels pixels rows generalizing bands with
  | nil => rfl
  | cons q qs ih => rw [foldl_cons, ih, length_modify]

theorem testBit_strokes {qs : List Nat} {kind : Nat} (hp : p < bands.length) :
    ((qs.foldl (fun bands q => bands.modify q (· ||| 2 ^ kind)) bands).getD p 0).testBit i = true ↔
      (bands.getD p 0).testBit i = true ∨ p ∈ qs ∧ kind = i := by
  induction qs generalizing bands with
  | nil => simp
  | cons q qs ih =>
    rw [foldl_cons, ih (by rw [length_modify]; exact hp), mem_cons]
    have hget : (bands.modify q (· ||| 2 ^ kind)).getD p 0 =
        if q = p then bands.getD p 0 ||| 2 ^ kind else bands.getD p 0 := by
      rw [getD_eq_getElem _ _ (by rw [length_modify]; exact hp), getElem_modify,
        getD_eq_getElem _ _ hp]
    rw [hget]
    by_cases hq : q = p
    · subst hq
      rw [if_pos rfl, Nat.testBit_or, Bool.or_eq_true, Nat.testBit_two_pow, decide_eq_true_iff]
      tauto
    · rw [if_neg hq]
      simp only [Ne.symm hq, false_or]

theorem testBit_spans (hp : p < bands.length) :
    ((spans.foldl (paintSpan pixels rows) bands).getD p 0).testBit i = true ↔
      (bands.getD p 0).testBit i = true ∨ Marked pixels rows spans p i := by
  induction spans generalizing bands with
  | nil => simp [Marked]
  | cons span spans ih =>
    rw [foldl_cons, ih (by rw [length_paintSpan]; exact hp), paintSpan, testBit_strokes hp,
      or_assoc, Marked, Marked, exists_mem_cons_iff]

theorem length_spans : (spans.foldl (paintSpan pixels rows) bands).length = bands.length := by
  induction spans generalizing bands with
  | nil => rfl
  | cons span spans ih => rw [foldl_cons, ih, length_paintSpan]

end Paint

theorem length_paintRuns (map : AlignmentMap) (pixels : Nat) (aligned : Bool) (side : Nat) :
    (paintRuns map pixels aligned side).length = pixels := by
  rw [paintRuns, length_spans, length_replicate]

/-- The bits of a painted pixel. -/
theorem testBit_paintRuns {map : AlignmentMap} {pixels side p : Nat} {aligned : Bool} (i : Nat)
    (hp : p < pixels) : ((paintRuns map pixels aligned side).getD p 0).testBit i = true ↔
      Marked pixels (overviewRows map aligned side)
        (map.runs.flatMap (runSpans aligned side)) p i := by
  rw [paintRuns, testBit_spans (by rw [length_replicate]; exact hp),
    getD_eq_getElem _ _ (by rw [length_replicate]; exact hp), getElem_replicate,
    Nat.zero_testBit]
  simp

/-- The array of differences gives what painting run by run gives, and no access is out of range. -/
theorem buildSide_eq (map : AlignmentMap) (pixels : Nat) (aligned : Bool) (side : Nat) :
    buildSide map pixels aligned side = some (paintRuns map pixels aligned side) := by
  unfold buildSide
  split
  · rename_i h
    subst h
    rw [← length_eq_zero_iff.mp (length_paintRuns map 0 aligned side)]
  rename_i h
  have hp : 0 < pixels := Nat.pos_of_ne_zero h
  have hr : overviewRows map aligned side ≠ 0 := Nat.succ_ne_zero _
  have hlen := length_replicate (n := pixels + 1) (a := (0 : Counts))
  dsimp only
  rw [marks_eq hp hr hlen, Option.bind_eq_bind, Option.bind_some]
  have hsum := @sumBands_eq (((map.runs.flatMap (runSpans aligned side)).map
      (Span.stamp pixels (overviewRows map aligned side))).foldl
        (fun ds s => stamp ds s.first s.last s.value) (replicate (pixels + 1) 0)) pixels 0
    (by rw [length_stamps, hlen]; omega)
  rw [take_zero, sum_nil] at hsum
  rw [hsum]
  congr 1
  refine ext_getElem ?_ fun p h1 h2 => Nat.eq_of_testBit_eq fun i => ?_
  · rw [length_map, length_range', length_paintRuns]
  rw [length_paintRuns] at h2
  rw [getElem_map, getElem_range', ← getD_eq_getElem _ 0, Bool.eq_iff_iff,
    testBit_level hp, testBit_paintRuns i h2]
  rw [Nat.zero_add, Nat.one_mul]

/-! ## The maps that the program makes -/

/-- The maps of several texts that the program makes. -/
inductive MultiMade : MultiMap → Prop
  | build {limits : Budget} {lib : Library} {sortCompares : List Change → Nat} {texts : List Bytes}
      {w w' : Work} {map : MultiMap}
      (h : (MultiMap.build limits lib sortCompares texts).run w = .ok (map, w')) : MultiMade map
  | similar {limits : Budget} {texts : List Bytes} {w w' : Work} {map map' : MultiMap}
      (hmap : MultiMade map) (h : (map.withSimilarLines limits texts).run w = .ok (map', w')) :
      MultiMade map'

/-- The maps of two texts that the program makes. -/
inductive Made : AlignmentMap → Prop
  | build {limits : Budget} {leftLines rightLines : Nat} {edits : List Edit} {w w' : Work}
      {map : AlignmentMap}
      (h : (AlignmentMap.build limits leftLines rightLines edits).run w = .ok (map, w')) : Made map
  | similar {limits : Budget} {left right : Bytes} {w w' : Work} {map map' : AlignmentMap}
      (hmap : Made map) (h : (map.withSimilarLines limits left right).run w = .ok (map', w')) :
      Made map'
  | pair {multi : MultiMap} {left right : Nat} {map : AlignmentMap} (hmulti : MultiMade multi)
      (h : multi.pair left right = .ok map) : Made map

/-- A changed run has a line on a side. -/
def Shows (runs : List AlignmentRun) : Prop := ∀ r ∈ runs, r.changed = true → 0 < r.height

section Shows

variable {limits : Budget}

theorem buildRuns_shows (leftLines rightLines left right : Nat) (edits : List Edit) :
    Yields (fun _ => True) (buildRuns limits leftLines rightLines left right edits) Shows := by
  induction edits generalizing left right with
  | nil =>
    rw [buildRuns]
    refine .past fun _ => Yields.pure fun r hr hc => ?_
    split at hr
    · rw [mem_singleton.mp hr] at hc
      cases hc
    · exact absurd hr not_mem_nil
  | cons e es ih =>
    rw [buildRuns]
    refine .past fun _ => throwIf_past fun hfits => ?_
    refine (ih e.end_ e.otherEnd).bind fun rest hrest => Yields.pure fun r hr hc => ?_
    rcases mem_append.mp hr with hr | hr
    · split at hr
      · rw [mem_singleton.mp hr] at hc
        cases hc
      · exact absurd hr not_mem_nil
    · rcases mem_cons.mp hr with rfl | hr
      · show 0 < max (e.end_ - e.begin_) (e.otherEnd - e.otherBegin)
        omega
      · exact hrest r hr hc

theorem build_shows (leftLines rightLines : Nat) (edits : List Edit) :
    Yields (fun _ => True) (AlignmentMap.build limits leftLines rightLines edits) fun map =>
      Shows map.runs := by
  refine .past fun _ => .past fun _ => ?_
  refine (buildRuns_shows leftLines rightLines 0 0 edits).bind fun runs hruns => ?_
  refine (assignRows_yields (fun _ _ => trivial) 0 runs).bind fun placed hplaced => ?_
  refine .past fun _ => Yields.pure fun p hp hc => ?_
  obtain ⟨i, hi, rfl⟩ := mem_iff_getElem.mp hp
  have hi' : i < runs.length := hplaced.2.length_eq ▸ hi
  obtain ⟨hbegin, hend, hchanged, -⟩ := hplaced.2.get hi' hi
  have := hruns _ (getElem_mem hi') (hchanged.symm.trans hc)
  unfold AlignmentRun.height at this ⊢
  rw [get_eq_getElem, get_eq_getElem] at hbegin hend
  rwa [hbegin, hend]

variable {s : Refinement} {map : MultiMap} {sides : List (List Line)}
  {begin_ end_ cursor lines : Cells} {rowBegin rowEnd : Nat}

theorem shows_append (h : Shows s.runs) (a endA b endB : Nat) (changed : Bool) :
    Shows (s.append a endA b endB changed).runs := by
  unfold Refinement.append
  dsimp only
  split
  · exact h
  · rename_i hheight
    intro r hr hc
    rcases mem_append.mp hr with hr | hr
    · exact h r hr hc
    · rw [mem_singleton.mp hr]
      exact Nat.pos_of_ne_zero hheight

theorem shows_split {run : AlignmentRun} {anchors : List (Nat × Nat)}
    (h : Shows s.runs) (a b : Nat) : Shows (s.split run a b anchors).runs := by
  induction anchors generalizing s a b with
  | nil => exact shows_append h _ _ _ _ _
  | cons p anchors ih => exact ih (shows_append (shows_append h _ _ _ _ _) _ _ _ _ _) _ _

theorem refineRuns_shows {left right : List Line} {maximum : Nat} {runs : List AlignmentRun}
    (h : Shows s.runs) :
    Yields (fun _ => True) (refineRuns limits left right maximum s runs) fun s => Shows s.runs := by
  induction runs generalizing s with
  | nil => exact .pure h
  | cons run runs ih =>
    rw [refineRuns]
    refine .bind (Q := fun s : Refinement => Shows s.runs) ?_ fun s hs => ih hs
    refine .past fun _ => .past fun found => ?_
    exact Yields.ite (fun _ =>
      .pure (shows_append (s := { s with work := found.2 }) h _ _ _ _ _)) fun _ =>
      .pure (shows_split (s := { s with work := found.2, similar := true }) h _ _)

theorem similar_shows {map : AlignmentMap} (left right : Bytes) (h : Shows map.runs) :
    Yields (fun _ => True) (map.withSimilarLines limits left right) fun map => Shows map.runs := by
  have hrefine : Yields (fun _ => True) (map.refine limits left right) fun map =>
    Shows map.runs := by
    refine .past fun _ => .past fun _ => .past fun _ => ?_
    have hnone : Shows [] := fun _ hr => absurd hr not_mem_nil
    exact (refineRuns_shows hnone).bind fun s hs => .past fun _ => Yields.pure hs
  refine .of_runs (fun w map' w' hrun => ?_) fun _ _ _ => trivial
  unfold AlignmentMap.withSimilarLines StateT.run at hrun
  dsimp only at hrun
  split at hrun
  · rename_i heq
    cases hrun
    exact hrefine.of_ok heq
  · split at hrun
    · cases hrun
      exact h
    · cases hrun

/-! ### Several texts -/

/-- If the flag of two sides is set, one of them has a line in the run. -/
structure Tells (run : MultiRun) : Prop where
  cells : run.begin_.length ≤ 4
  flags : ∀ a < 4, ∀ b < 4, run.changedPairs.testBit (a * 4 + b) = true →
    run.begin_.at a < run.end_.at a ∨ run.begin_.at b < run.end_.at b

theorem tells_differing (h : begin_.length ≤ 4) :
    Tells ⟨begin_, end_, rowBegin, rowEnd, differingPairs sides begin_ end_⟩ := by
  refine ⟨h, fun a ha b hb hbit => ?_⟩
  unfold differingPairs at hbit
  dsimp only at hbit ⊢
  rw [testBit_masks, Nat.zero_testBit] at hbit
  rcases hbit with hbit | ⟨p, hp, hd, hi⟩
  · cases hbit
  by_contra hnone
  -- Sides without lines hold the same bytes.
  have hempty : ∀ side, end_.at side ≤ begin_.at side →
      append (sideLines sides side) (begin_.at side) (end_.at side) = [] := by
    intro side hside
    rw [append, Slice.slice, Nat.sub_eq_zero_of_le hside, take_zero, flatten_nil]
  have hp := mem_sidePairs.mp hp
  rcases hi with hi | hi
  · obtain ⟨rfl, rfl⟩ : a = p.1 ∧ b = p.2 := by omega
    exact hd ((hempty p.1 (by omega)).trans (hempty p.2 (by omega)).symm)
  · obtain ⟨rfl, rfl⟩ : a = p.2 ∧ b = p.1 := by omega
    exact hd ((hempty p.1 (by omega)).trans (hempty p.2 (by omega)).symm)

theorem tells_none (h : begin_.length ≤ 4) :
    Tells ⟨begin_, end_, rowBegin, rowEnd, 0⟩ :=
  ⟨h, fun _ _ _ _ hbit => absurd hbit (by rw [Nat.zero_testBit]; exact Bool.false_ne_true)⟩

theorem tells_push {pairs : Nat} (h : ∀ r ∈ map.runs, Tells r)
    (ht : ∀ rowBegin rowEnd, Tells ⟨begin_, end_, rowBegin, rowEnd, pairs⟩) :
    ∀ r ∈ (map.push begin_ end_ pairs).runs, Tells r := by
  unfold MultiMap.push
  dsimp only
  split
  · exact h
  · intro r hr
    rcases mem_append.mp hr with hr | hr
    · exact h r hr
    · rw [mem_singleton.mp hr]
      exact ht _ _

theorem length_zipWith_le {counts : Cells} (h : cursor.length ≤ 4) :
    (List.zipWith (· + ·) cursor counts).length ≤ 4 := by
  rw [length_zipWith]
  omega

/-- What the sweep keeps. -/
def SweepTells (lines : Cells) (s : Sweep) : Prop :=
  s.cursor.length ≤ 4 ∧ s.map.lines = lines ∧ ∀ r ∈ s.map.runs, Tells r

theorem sweepAppend_tells {s : Sweep} (h : SweepTells lines s) (counts : Cells) (changed : Bool) :
    Yields (fun _ => True) (s.append limits sides counts changed) (SweepTells lines) := by
  refine .past fun _ => .past fun _ => Yields.pure ?_
  refine ⟨length_zipWith_le h.1, push_lines.trans h.2.1, tells_push h.2.2 fun _ _ => ?_⟩
  split
  · exact tells_differing h.1
  · exact tells_none h.1

theorem sweepFrom_tells {fuel : Nat} {cs : List Change} {s : Sweep} (h : SweepTells lines s) :
    Yields (fun _ => True) (sweepFrom limits sides fuel cs s) (SweepTells lines) := by
  induction fuel generalizing cs s with
  | zero => exact .pure h
  | succ fuel ih =>
    cases cs with
    | nil => exact .pure h
    | cons c cs =>
      rw [sweepFrom]
      refine .past fun _ => .past fun _ => ?_
      refine (sweepAppend_tells h _ _).bind fun s hs => .past fun counts => ?_
      exact (sweepAppend_tells hs _ _).bind fun s hs => ih hs

theorem readSides_length {lib : Library} {base : Bytes} (side : Nat) (texts : List Bytes) :
    Yields (fun _ => True) (readSides limits lib base side texts) fun read =>
      read.1.length = texts.length := by
  induction texts generalizing side with
  | nil => exact .pure rfl
  | cons text texts ih =>
    rw [readSides]
    refine .past fun ls => .past fun edits => ?_
    exact (ih (side + 1)).bind fun rest hrest => Yields.pure (congrArg Nat.succ hrest)

/-- At most four texts, and what the flags tell. -/
def MultiTells (map : MultiMap) : Prop := map.lines.length ≤ 4 ∧ ∀ r ∈ map.runs, Tells r

theorem multiBuild_tells {lib : Library} {sortCompares : List Change → Nat} (texts : List Bytes) :
    Yields (fun _ => True) (MultiMap.build limits lib sortCompares texts) MultiTells := by
  refine .past fun _ => throwIf_past fun hn => ?_
  refine .past fun _ => .past fun _ => ?_
  refine (readSides_length 0 texts).bind fun read hread => .past fun _ => ?_
  have hstart : SweepTells (read.1.map length)
      ⟨replicate texts.length 0, { lines := read.1.map length }⟩ :=
    ⟨by rw [length_replicate]; omega, rfl, fun _ hr => absurd hr not_mem_nil⟩
  refine (sweepFrom_tells hstart).bind fun s hs => ?_
  refine (sweepAppend_tells hs _ _).bind fun s hs => .past fun _ => .past fun _ => ?_
  refine Yields.pure ⟨?_, hs.2.2⟩
  rw [hs.2.1, length_map, hread]
  omega

theorem fillRows_tells {slots : List Slots} {count : Nat} (i : Nat) (hc : cursor.length ≤ 4)
    (h : ∀ r ∈ map.runs, Tells r) :
    Yields (fun _ => True) (fillRows limits sides slots count i cursor map) fun p =>
      p.2.lines = map.lines ∧ ∀ r ∈ p.2.runs, Tells r := by
  induction count generalizing i cursor map with
  | zero =>
    rw [fillRows]
    exact .past fun _ =>
      .pure ⟨push_lines, tells_push h fun _ _ => tells_differing hc⟩
  | succ count ih =>
    rw [fillRows]
    refine .past fun _ => ?_
    refine (ih (i + 1) (length_zipWith_le (length_zipWith_le hc)) (tells_push
      (tells_push h fun _ _ => tells_differing hc) fun _ _ =>
        tells_differing (length_zipWith_le hc))).weaken fun p hp => ?_
    exact ⟨hp.1.trans (push_lines.trans push_lines), hp.2⟩

theorem refineMultiRun_tells {s : MultiRefinement} {run : MultiRun} (hrun : Tells run)
    (h : s.map.lines = lines ∧ ∀ r ∈ s.map.runs, Tells r) :
    Yields (fun _ => True) (refineMultiRun limits sides s run) fun s =>
      s.map.lines = lines ∧ ∀ r ∈ s.map.runs, Tells r := by
  refine .past fun _ => Yields.ite (fun _ => .past fun found => ?_) fun _ => ?_
  · refine Yields.ite (fun _ => ?_) fun _ => ?_
    · refine (fillRows_tells 0 hrun.cells h.2).bind fun filled hfilled => ?_
      exact .past fun _ => Yields.pure ⟨hfilled.1.trans h.1, hfilled.2⟩
    · exact .pure ⟨push_lines.trans h.1, tells_push h.2 fun _ _ => tells_differing hrun.cells⟩
  · refine .pure ⟨h.1, fun r hr => ?_⟩
    rcases mem_append.mp hr with hr | hr
    · exact h.2 r hr
    · rw [mem_singleton.mp hr]
      exact ⟨hrun.cells, hrun.flags⟩

theorem multiSimilar_tells (texts : List Bytes) (h : MultiTells map) :
    Yields (fun _ => True) (map.withSimilarLines limits texts) MultiTells := by
  have hrefine : Yields (fun _ => True) (map.refine limits texts) MultiTells := by
    refine .past fun sides => ?_
    refine (Yields.foldlM (I := fun s : MultiRefinement => s.map.lines = map.lines ∧
      ∀ r ∈ s.map.runs, Tells r) ⟨rfl, fun _ hr => absurd hr not_mem_nil⟩
      fun s run hrun hs => refineMultiRun_tells (h.2 run hrun) hs).bind fun s hs => ?_
    exact .past fun _ => Yields.pure ⟨hs.1 ▸ h.1, hs.2⟩
  exact .past fun _ => (catchTimeout_yields hrefine h).mono (fun _ _ => trivial) fun _ h => h

theorem MultiMade.tells (h : MultiMade map) : MultiTells map := by
  induction h with
  | build h => exact (multiBuild_tells _).of_ok h
  | similar _ h ih => exact (multiSimilar_tells _ ih).of_ok h

/-- In a map that the program makes a changed run has a line on a side. -/
theorem Made.shows {map : AlignmentMap} (h : Made map) : Shows map.runs := by
  induction h with
  | build h => exact (build_shows _ _ _).of_ok h
  | similar _ h ih => exact (similar_shows _ _ ih).of_ok h
  | pair hmulti h =>
    rename_i multi left right map
    obtain ⟨hlen, htells⟩ := hmulti.tells
    unfold MultiMap.pair at h
    split at h
    · cases h
    rename_i hsides
    cases h
    intro r hr hc
    obtain ⟨run, hrun, rfl⟩ := mem_map.mp hr
    have := (htells run hrun).flags left (by omega) right (by omega) hc
    unfold AlignmentRun.height
    dsimp only
    omega

end Shows

/-! ## The raster -/

/-- A changed run marks a pixel on each side. -/
theorem runSpans_ne_nil {run : AlignmentRun} {side : Nat} (hs : side ≤ 1) (aligned : Bool)
    (hc : run.changed = true) (hh : 0 < run.height) : runSpans aligned side run ≠ [] := by
  unfold AlignmentRun.height at hh
  unfold runSpans
  rw [if_pos hc]
  intro h
  obtain ⟨h1, h2⟩ := append_eq_nil_iff.mp h
  have hcount : run.end_.at side - run.begin_.at side = 0 := by
    by_contra hne
    rw [if_pos hne] at h1
    cases h1
  have hother : ¬ run.end_.at side - run.begin_.at side < run.end_.at (1 - side) -
      run.begin_.at (1 - side) := by
    intro hlt
    rw [if_pos hlt] at h2
    cases h2
  rcases side_cases hs with rfl | rfl
  · change run.end_.1 - run.begin_.1 = 0 at hcount
    change ¬ run.end_.1 - run.begin_.1 < run.end_.2 - run.begin_.2 at hother
    omega
  · change run.end_.2 - run.begin_.2 = 0 at hcount
    change ¬ run.end_.2 - run.begin_.2 < run.end_.1 - run.begin_.1 at hother
    omega

/-- The raster of a map that the program makes is painted run by run, without an access out of range
or a division by zero, and unless it has no pixels at all every changed run leaves one on each
side. -/
theorem overview_paints (map : AlignmentMap) (hmade : Made map) (pixels : Nat) (aligned : Bool) :
    ∃ raster, buildOverviewRaster map pixels aligned = some raster ∧ ∀ side ≤ 1,
      raster.rows.at side = overviewRows map aligned side ∧
      raster.bands.at side = paintRuns map (min pixels 4096) aligned side ∧
      (0 < pixels → ∀ run ∈ map.runs, run.changed = true →
        ∃ span ∈ runSpans aligned side run,
          ∃ p ∈ span.pixels (min pixels 4096) (overviewRows map aligned side),
            p < (raster.bands.at side).length ∧
            ((raster.bands.at side).getD p 0).testBit span.kind.val = true) := by
  unfold buildOverviewRaster
  simp only [buildSide_eq, Option.bind_eq_bind, Option.bind_some]
  refine ⟨_, rfl, fun side hs => ?_⟩
  have hbands : Sides.at (paintRuns map (min pixels 4096) aligned 0,
      paintRuns map (min pixels 4096) aligned 1) side =
        paintRuns map (min pixels 4096) aligned side := by
    rcases side_cases hs with rfl | rfl <;> rfl
  refine ⟨by rcases side_cases hs with rfl | rfl <;> rfl, hbands, fun hp run hrun hc => ?_⟩
  have hpos : 0 < min pixels 4096 := by omega
  obtain ⟨span, rest, hspans⟩ := exists_cons_of_ne_nil
    (runSpans_ne_nil hs aligned hc (hmade.shows run hrun hc))
  have hmem : span ∈ runSpans aligned side run := by
    rw [hspans]
    exact mem_cons_self
  obtain ⟨hlt, hle⟩ := @markFirst_lt_last (min pixels 4096) (overviewRows map aligned side) hpos
    span.begin_ span.end_
  have hfirst : markFirst (min pixels 4096) (overviewRows map aligned side) span.begin_ ∈
      span.pixels (min pixels 4096) (overviewRows map aligned side) := by
    rw [Span.pixels, mem_range'_1]
    omega
  refine ⟨span, hmem, _, hfirst, ?_, ?_⟩
  · rw [hbands, length_paintRuns]
    omega
  · rw [hbands, testBit_paintRuns _ (by omega)]
    exact ⟨span, mem_flatMap.mpr ⟨run, hrun, hmem⟩, hfirst, rfl⟩

/-- Three lines on the right only. -/
def insertionMap : AlignmentMap where
  lines := (0, 3)
  runs := [⟨(0, 0), (0, 3), true, 0, 3⟩]
  rows := 3

theorem insertionMap_made : Made insertionMap :=
  @Made.build Budget.unlimited 0 3 [⟨0, 0, 0, 3, []⟩] {} ⟨0, 4⟩ insertionMap rfl

theorem overview_paints_insertion :
    ∃ raster, buildOverviewRaster insertionMap 4 true = some raster ∧ ∀ side ≤ 1,
      raster.rows.at side = overviewRows insertionMap true side ∧
      raster.bands.at side = paintRuns insertionMap (min 4 4096) true side ∧
      (0 < 4 → ∀ run ∈ insertionMap.runs, run.changed = true →
        ∃ span ∈ runSpans true side run,
          ∃ p ∈ span.pixels (min 4 4096) (overviewRows insertionMap true side),
            p < (raster.bands.at side).length ∧
            ((raster.bands.at side).getD p 0).testBit span.kind.val = true) :=
  overview_paints insertionMap insertionMap_made 4 true

/-- A raster without pixels has none for a changed run. -/
theorem overview_no_pixels : Made insertionMap ∧ (∃ run ∈ insertionMap.runs, run.changed = true) ∧
    ∃ raster, buildOverviewRaster insertionMap 0 true = some raster ∧
      ∀ side ≤ 1, ∀ p kind, ((raster.bands.at side).getD p 0).testBit kind = false := by
  refine ⟨insertionMap_made, ⟨_, mem_singleton.mpr rfl, rfl⟩, ⟨([], []), (4, 4)⟩, rfl,
    fun side hs p kind => ?_⟩
  rcases side_cases hs with rfl | rfl <;> exact Nat.zero_testBit _

example : buildOverviewRaster insertionMap 4 true =
    some ⟨([8, 8, 8, 0], [2, 2, 2, 0]), (4, 4)⟩ := by
  decide

end Hc.Compare
