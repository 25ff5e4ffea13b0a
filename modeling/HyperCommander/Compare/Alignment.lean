import HyperCommander.Compare.Script
import HyperCommander.Lib.Tiling

/-!
# Alignment maps (`HyperCompare/core/alignmentMap.cpp`, `AlignmentMap`)

The lines of two texts side by side: runs of lines that are equal or changed, and the display rows
that they share.

* `Aligned`: the runs tile both sides and the rows, and unchanged runs hold equal lines.
* `build_yields`, `build_changed`: what `Build` makes of a script is aligned, and a line that is
  changed is one of an edit.
* `Aligned.consistent`: what the look-ups of an aligned map are good for.
-/

namespace Hc.Compare

open List Slice Tiling

/-- A value for each side. -/
abbrev Sides (α : Type) := α × α

/-- The value for a side, of which there are `0` and `1`. -/
def Sides.at {α : Type} (p : Sides α) : (side : Nat) → α
  | 0 => p.1
  | _ => p.2

/-- `AlignmentRun`. -/
structure AlignmentRun where
  begin_ : Sides Nat
  end_ : Sides Nat
  changed : Bool := false
  rowBegin : Nat := 0
  rowEnd : Nat := 0
deriving DecidableEq

/-- `AlignmentMap`. -/
structure AlignmentMap where
  lines : Sides Nat
  runs : List AlignmentRun := []
  rows : Nat := 0
  similar : Bool := false
  similarityWork : Nat := 0
deriving DecidableEq

/-! ## `Build` -/

/-- The loop over the edits, from the lines `left` and `right` on. -/
def buildRuns (limits : Budget) (leftLines rightLines : Nat) : (left right : Nat) → List Edit →
    Run (List AlignmentRun)
  | left, right, [] => do
    throwIf (leftLines - left ≠ rightLines - right) "InvalidAlignmentEdits"
    pure (if leftLines > left then
      [{ begin_ := (left, right), end_ := (leftLines, rightLines) }] else [])
  | left, right, edit :: edits => do
    limits.check
    throwIf (edit.begin_ < left ∨ edit.otherBegin < right ∨ edit.end_ < edit.begin_ ∨
      edit.otherEnd < edit.otherBegin ∨ edit.end_ > leftLines ∨ edit.otherEnd > rightLines ∨
      edit.begin_ - left ≠ edit.otherBegin - right ∨
      (edit.begin_ = edit.end_ ∧ edit.otherBegin = edit.otherEnd)) "InvalidAlignmentEdits"
    let rest ← buildRuns limits leftLines rightLines edit.end_ edit.otherEnd edits
    let same : List AlignmentRun := if edit.begin_ > left then
      [{ begin_ := (left, right), end_ := (edit.begin_, edit.otherBegin) }] else []
    pure (same ++ { begin_ := (edit.begin_, edit.otherBegin), end_ := (edit.end_, edit.otherEnd),
                    changed := true } :: rest)

/-- The lines of the longer side. -/
def AlignmentRun.height (r : AlignmentRun) : Nat :=
  max (r.end_.1 - r.begin_.1) (r.end_.2 - r.begin_.2)

/-- The loop that gives the runs their rows. -/
def assignRows (limits : Budget) : (rows : Nat) → List AlignmentRun →
    Run (List AlignmentRun × Nat)
  | rows, [] => pure ([], rows)
  | rows, run :: runs => do
    limits.check
    let rest ← assignRows limits (rows + run.height) runs
    pure ({ run with rowBegin := rows, rowEnd := rows + run.height } :: rest.1, rest.2)

def alignmentLineLimit : Nat := 2000000

/-- `AlignmentMap::Build`. -/
def AlignmentMap.build (limits : Budget) (leftLines rightLines : Nat) (edits : List Edit) :
    Run AlignmentMap := do
  limits.check
  throwIf (leftLines > alignmentLineLimit ∨ rightLines > alignmentLineLimit ∨
    edits.length > leftLines + rightLines) "AlignmentSizeLimit"
  let runs ← buildRuns limits leftLines rightLines 0 0 edits
  let placed ← assignRows limits 0 runs
  limits.check
  pure { lines := (leftLines, rightLines), runs := placed.1, rows := placed.2 }

/-! ## Look-ups -/

namespace AlignmentMap

/-- `std::upper_bound` over the ends of a side. -/
def runAt (map : AlignmentMap) (side line : Nat) : Option AlignmentRun :=
  locate (fun run : AlignmentRun => run.end_.at side) map.runs line

/-- `DisplayRow`. -/
def displayRow (map : AlignmentMap) (side line : Nat) : Except Failure Nat :=
  if side > 1 then .error ⟨"InvalidAlignmentSide"⟩
  else if line > map.lines.at side then .error ⟨"InvalidAlignmentLine"⟩
  else if line = map.lines.at side then .ok map.rows
  else match map.runAt side line with
    | some run => .ok (run.rowBegin + line - run.begin_.at side)
    | none => .error ⟨"std::end"⟩

/-- `LineAtRow`. -/
def lineAtRow (map : AlignmentMap) (side row : Nat) : Except Failure (Option Nat) :=
  if side > 1 then .error ⟨"InvalidAlignmentSide"⟩
  else if row ≥ map.rows then .ok none
  else match locate AlignmentRun.rowEnd map.runs row with
    | some run =>
      let offset := row - run.rowBegin
      if offset ≥ run.end_.at side - run.begin_.at side then .ok none
      else .ok (some (run.begin_.at side + offset))
    | none => .error ⟨"std::end"⟩

/-- `MapLine`. -/
def mapLine (map : AlignmentMap) (fromSide line : Nat) : Except Failure Nat :=
  if fromSide > 1 then .error ⟨"InvalidAlignmentSide"⟩
  else
    let toSide := 1 - fromSide
    if line ≥ map.lines.at fromSide then .ok (map.lines.at toSide)
    else match map.runAt fromSide line with
      | none => .error ⟨"InvalidAlignmentEdits"⟩
      | some run =>
        let count := run.end_.at toSide - run.begin_.at toSide
        let offset := line - run.begin_.at fromSide
        if count = 0 then .ok (run.begin_.at toSide)
        else .ok (run.begin_.at toSide +
          offset * count / (run.end_.at fromSide - run.begin_.at fromSide))

end AlignmentMap

/-! ## What a map is good for -/

/-- The runs of a side lie end to end. -/
def SideTiles (runs : List AlignmentRun) (side a b : Nat) : Prop :=
  Tiles (fun r : AlignmentRun => r.begin_.at side) (fun r => r.end_.at side) a runs b

/-- The runs tile both sides and the rows, every run has rows enough for its lines, and unchanged
runs hold equal lines. -/
structure Aligned (texts : Sides (List Line)) (map : AlignmentMap) : Prop where
  lines : map.lines = (texts.1.length, texts.2.length)
  sides : ∀ side, SideTiles map.runs side 0 (map.lines.at side)
  rows : Tiles AlignmentRun.rowBegin AlignmentRun.rowEnd 0 map.runs map.rows
  height : ∀ r ∈ map.runs, r.height ≤ r.rowEnd - r.rowBegin
  same : ∀ r ∈ map.runs, r.changed = false →
    slice texts.1 r.begin_.1 r.end_.1 = slice texts.2 r.begin_.2 r.end_.2

/-- Lines and rows belong together. `lines` and `rows` themselves stand for the ends. -/
structure Consistent (texts : Sides (List Line)) (map : AlignmentMap) : Prop where
  /-- The row of a line leads back to it. -/
  display : ∀ side ≤ 1, ∀ line < (texts.at side).length, ∃ row, row < map.rows ∧
    map.displayRow side line = .ok row ∧ map.lineAtRow side row = .ok (some line)
  increasing : ∀ side ≤ 1, ∀ line line' row row', line < line' →
    map.displayRow side line = .ok row → map.displayRow side line' = .ok row' → row < row'
  /-- Every line is mapped, in order. -/
  mapped : ∀ side ≤ 1, ∀ line, ∃ target, map.mapLine side line = .ok target ∧
    target ≤ (texts.at (1 - side)).length
  monotone : ∀ side ≤ 1, ∀ line line' target target', line ≤ line' →
    map.mapLine side line = .ok target → map.mapLine side line' = .ok target' → target ≤ target'
  /-- An unchanged line is mapped to an equal one. -/
  partner : ∀ side ≤ 1, ∀ r ∈ map.runs, r.changed = false → ∀ line, r.begin_.at side ≤ line →
    line < r.end_.at side →
      map.mapLine side line = .ok (r.begin_.at (1 - side) + (line - r.begin_.at side)) ∧
      (texts.at side)[line]? =
        (texts.at (1 - side))[r.begin_.at (1 - side) + (line - r.begin_.at side)]?

/-- The edit takes a line of a side. -/
def Edit.Takes (e : Edit) (side line : Nat) : Prop :=
  Sides.at (e.begin_, e.otherBegin) side ≤ line ∧ line < Sides.at (e.end_, e.otherEnd) side

/-- `P` of the lines of both sides from `x` to `y`. -/
def AllLines (P : Nat → Nat → Prop) (x y : Sides Nat) : Prop :=
  ∀ side line, x.at side ≤ line → line < y.at side → P side line

/-- `P` of the lines that are changed. -/
def ChangedLines (P : Nat → Nat → Prop) (runs : List AlignmentRun) : Prop :=
  ∀ r ∈ runs, r.changed = true → AllLines P r.begin_ r.end_

/-- The lines that no edit takes lie in runs that are not changed. -/
def Untouched (texts : Sides (List Line)) (edits : List Edit) (map : AlignmentMap) : Prop :=
  ∀ side ≤ 1, ∀ line < (texts.at side).length, (∀ e ∈ edits, ¬ e.Takes side line) →
    ∃ r ∈ map.runs, r.changed = false ∧ r.begin_.at side ≤ line ∧ line < r.end_.at side

theorem changedLines_true (runs : List AlignmentRun) : ChangedLines (fun _ _ => True) runs :=
  fun _ _ _ _ _ _ _ => trivial

theorem AllLines.mono {P : Nat → Nat → Prop} {x y x' y' : Sides Nat} (h : AllLines P x y)
    (hx : x.1 ≤ x'.1 ∧ x.2 ≤ x'.2) (hy : y'.1 ≤ y.1 ∧ y'.2 ≤ y.2) : AllLines P x' y' := by
  intro side line hb he
  cases side
  · exact h 0 line (hx.1.trans hb) (he.trans_le hy.1)
  · exact h _ line (hx.2.trans hb) (he.trans_le hy.2)

section Consistent

variable {texts : Sides (List Line)} {map : AlignmentMap} {side line line' : Nat}
  {r s : AlignmentRun}

theorem side_cases (h : side ≤ 1) : side = 0 ∨ side = 1 := by omega

theorem Aligned.lines_at (h : Aligned texts map) (side : Nat) :
    map.lines.at side = (texts.at side).length := by
  rw [h.lines]
  cases side <;> rfl

theorem AlignmentRun.le_height (r : AlignmentRun) (side : Nat) :
    r.end_.at side - r.begin_.at side ≤ r.height := by
  cases side
  · exact Nat.le_max_left _ _
  · exact Nat.le_max_right _ _

theorem Aligned.runAt (h : Aligned texts map) (hl : line < (texts.at side).length) :
    ∃ r ∈ map.runs, map.runAt side line = some r ∧ r.begin_.at side ≤ line ∧
      line < r.end_.at side :=
  (h.sides side).locate (Nat.zero_le _) (by rw [h.lines_at]; exact hl)

theorem displayRow_run (hs : side ≤ 1) (hl : line < map.lines.at side)
    (hr : map.runAt side line = some r) :
    map.displayRow side line = .ok (r.rowBegin + line - r.begin_.at side) := by
  unfold AlignmentMap.displayRow
  rw [if_neg (by omega), if_neg (by omega), if_neg (by omega), hr]

theorem displayRow_end (hs : side ≤ 1) (hl : line = map.lines.at side) :
    map.displayRow side line = .ok map.rows := by
  unfold AlignmentMap.displayRow
  rw [if_neg (by omega), if_neg (by omega), if_pos hl]

theorem le_of_displayRow {row : Nat} (h : map.displayRow side line = .ok row) :
    line ≤ map.lines.at side := by
  unfold AlignmentMap.displayRow at h
  split at h
  · cases h
  · split at h
    · cases h
    · omega

/-- Where only lines of edits are changed, the other lines are not. -/
theorem Aligned.untouched {edits : List Edit} (h : Aligned texts map)
    (hc : ChangedLines (fun side line => ∃ e ∈ edits, e.Takes side line) map.runs) :
    Untouched texts edits map := by
  intro side _ line hl hout
  obtain ⟨r, hr, -, hb, he⟩ := h.runAt hl
  refine ⟨r, hr, Bool.eq_false_iff.mpr fun hchanged => ?_, hb, he⟩
  obtain ⟨e, hmem, htakes⟩ := hc r hr hchanged side line hb he
  exact hout e hmem htakes

/-- The row of a line lies among the rows of its run. -/
theorem Aligned.row_mem (h : Aligned texts map) (hr : r ∈ map.runs) (hb : r.begin_.at side ≤ line)
    (he : line < r.end_.at side) :
    r.rowBegin ≤ r.rowBegin + line - r.begin_.at side ∧
      r.rowBegin + line - r.begin_.at side < r.rowEnd ∧ r.rowEnd ≤ map.rows := by
  have h1 := r.le_height side
  have h2 := h.height r hr
  have h3 := h.rows.mem hr
  omega

theorem Aligned.display (h : Aligned texts map) (hs : side ≤ 1)
    (hl : line < (texts.at side).length) : ∃ row, row < map.rows ∧
      map.displayRow side line = .ok row ∧ map.lineAtRow side row = .ok (some line) := by
  obtain ⟨r, hr, hrun, hb, he⟩ := h.runAt hl
  obtain ⟨h1, h2, h3⟩ := h.row_mem hr hb he
  refine ⟨_, by omega, displayRow_run hs (by rw [h.lines_at]; exact hl) hrun, ?_⟩
  unfold AlignmentMap.lineAtRow
  rw [if_neg (by omega), if_neg (by omega), h.rows.locate_of_mem hr h1 h2]
  dsimp only
  rw [if_neg (by omega)]
  congr 2
  omega

theorem Aligned.increasing (h : Aligned texts map) (hs : side ≤ 1) {row row' : Nat}
    (hlt : line < line') (hrow : map.displayRow side line = .ok row)
    (hrow' : map.displayRow side line' = .ok row') : row < row' := by
  have hle := le_of_displayRow hrow'
  obtain ⟨r, hr, hrun, hb, he⟩ := @Aligned.runAt texts map side line h (by
    rw [← h.lines_at]
    omega)
  obtain ⟨h1, h2, h3⟩ := h.row_mem hr hb he
  rw [displayRow_run hs (by omega) hrun] at hrow
  cases hrow
  rcases Nat.eq_or_lt_of_le hle with heq | hlt'
  · rw [displayRow_end hs heq] at hrow'
    cases hrow'
    omega
  · obtain ⟨s, hs', hrun', hb', he'⟩ := @Aligned.runAt texts map side line' h (by
      rw [← h.lines_at]
      exact hlt')
    rw [displayRow_run hs hlt' hrun'] at hrow'
    cases hrow'
    rcases locate_le hrun hrun' (Nat.le_of_lt hlt) with rfl | hord
    · omega
    · have := hord _ _ _ _ h.rows
      omega

/-- The image of a line of a run: at the same part of the run's lines on the other side. -/
def AlignmentRun.target (r : AlignmentRun) (side line : Nat) : Nat :=
  r.begin_.at (1 - side) + (line - r.begin_.at side) *
    (r.end_.at (1 - side) - r.begin_.at (1 - side)) / (r.end_.at side - r.begin_.at side)

theorem mapLine_run (hs : side ≤ 1) (hl : line < map.lines.at side)
    (hr : map.runAt side line = some r) : map.mapLine side line = .ok (r.target side line) := by
  unfold AlignmentMap.mapLine AlignmentRun.target
  rw [if_neg (by omega)]
  rw [if_neg (by omega), hr]
  dsimp only
  split
  · rename_i hzero
    rw [hzero, Nat.mul_zero, Nat.zero_div, Nat.add_zero]
  · rfl

theorem mapLine_end (hs : side ≤ 1) (hl : map.lines.at side ≤ line) :
    map.mapLine side line = .ok (map.lines.at (1 - side)) := by
  unfold AlignmentMap.mapLine
  rw [if_neg (by omega)]
  rw [if_pos hl]

theorem Aligned.target_le (h : Aligned texts map) (hr : r ∈ map.runs) (hb : r.begin_.at side ≤ line)
    (he : line < r.end_.at side) :
    r.begin_.at (1 - side) ≤ r.target side line ∧ r.target side line ≤ r.end_.at (1 - side) ∧
      r.end_.at (1 - side) ≤ map.lines.at (1 - side) := by
  obtain ⟨-, h1, h2⟩ := (h.sides (1 - side)).mem hr
  have hpart : (line - r.begin_.at side) * (r.end_.at (1 - side) - r.begin_.at (1 - side)) /
      (r.end_.at side - r.begin_.at side) ≤ r.end_.at (1 - side) - r.begin_.at (1 - side) := by
    refine Nat.div_le_of_le_mul (Nat.mul_le_mul_right _ ?_)
    omega
  refine ⟨Nat.le_add_right _ _, ?_, h2⟩
  exact (Nat.add_le_add_left hpart _).trans (by omega)

theorem Aligned.mapped (h : Aligned texts map) (hs : side ≤ 1) (line : Nat) :
    ∃ target, map.mapLine side line = .ok target ∧ target ≤ (texts.at (1 - side)).length := by
  rcases Nat.lt_or_ge line (map.lines.at side) with hl | hl
  · obtain ⟨r, hr, hrun, hb, he⟩ := @Aligned.runAt texts map side line h (by
      rw [← h.lines_at]
      exact hl)
    obtain ⟨-, h2, h3⟩ := h.target_le hr hb he
    rw [h.lines_at] at h3
    exact ⟨_, mapLine_run hs hl hrun, h2.trans h3⟩
  · exact ⟨_, mapLine_end hs hl, Nat.le_of_eq (h.lines_at _)⟩

theorem Aligned.monotone (h : Aligned texts map) (hs : side ≤ 1) {target target' : Nat}
    (hle : line ≤ line') (ht : map.mapLine side line = .ok target)
    (ht' : map.mapLine side line' = .ok target') : target ≤ target' := by
  rcases Nat.lt_or_ge line (map.lines.at side) with hl | hl
  swap
  · rw [mapLine_end hs hl] at ht
    rw [mapLine_end hs (hl.trans hle)] at ht'
    cases ht
    cases ht'
    exact Nat.le_refl _
  obtain ⟨r, hr, hrun, hb, he⟩ := @Aligned.runAt texts map side line h (by
    rw [← h.lines_at]
    exact hl)
  obtain ⟨-, h2, h3⟩ := h.target_le hr hb he
  rw [mapLine_run hs hl hrun] at ht
  cases ht
  rcases Nat.lt_or_ge line' (map.lines.at side) with hl' | hl'
  · obtain ⟨s, hs', hrun', hb', he'⟩ := @Aligned.runAt texts map side line' h (by
      rw [← h.lines_at]
      exact hl')
    rw [mapLine_run hs hl' hrun'] at ht'
    cases ht'
    rcases locate_le hrun hrun' hle with rfl | hord
    · refine Nat.add_le_add_left (Nat.div_le_div_right (Nat.mul_le_mul_right _ ?_)) _
      omega
    · exact h2.trans ((hord _ _ _ _ (h.sides (1 - side))).trans (h.target_le hs' hb' he').1)
  · rw [mapLine_end hs hl'] at ht'
    cases ht'
    omega

/-- An unchanged run has equal lines, looked at from either side. -/
theorem Aligned.same_at (h : Aligned texts map) (hs : side ≤ 1) (hr : r ∈ map.runs)
    (hc : r.changed = false) :
    slice (texts.at side) (r.begin_.at side) (r.end_.at side) =
      slice (texts.at (1 - side)) (r.begin_.at (1 - side)) (r.end_.at (1 - side)) := by
  have heq := h.same r hr hc
  rcases side_cases hs with rfl | rfl
  · exact heq
  · exact heq.symm

theorem Aligned.partner (h : Aligned texts map) (hs : side ≤ 1) (hr : r ∈ map.runs)
    (hc : r.changed = false) (hb : r.begin_.at side ≤ line) (he : line < r.end_.at side) :
    map.mapLine side line = .ok (r.begin_.at (1 - side) + (line - r.begin_.at side)) ∧
      (texts.at side)[line]? =
        (texts.at (1 - side))[r.begin_.at (1 - side) + (line - r.begin_.at side)]? := by
  have hsame := h.same_at hs hr hc
  obtain ⟨-, h1, h2⟩ := (h.sides side).mem hr
  obtain ⟨-, h3, h4⟩ := (h.sides (1 - side)).mem hr
  rw [h.lines_at] at h2 h4
  have hlen := congrArg length hsame
  rw [length_slice h2, length_slice h4] at hlen
  have hrun : map.runAt side line = some r := (h.sides side).locate_of_mem hr hb he
  constructor
  · rw [mapLine_run hs (by rw [h.lines_at]; omega) hrun, AlignmentRun.target, ← hlen,
      Nat.mul_div_cancel _ (by omega)]
  · have hget := congrArg (·[line - r.begin_.at side]?) hsame
    rw [getElem?_slice (by omega), getElem?_slice (by omega),
      show r.begin_.at side + (line - r.begin_.at side) = line by omega] at hget
    exact hget

/-- The look-ups of an aligned map belong together. -/
theorem Aligned.consistent (h : Aligned texts map) : Consistent texts map where
  display _ hs _ hl := h.display hs hl
  increasing _ hs _ _ _ _ hlt hrow hrow' := h.increasing hs hlt hrow hrow'
  mapped _ hs line := h.mapped hs line
  monotone _ hs _ _ _ _ hle ht ht' := h.monotone hs hle ht ht'
  partner _ hs _ hr hc _ hb he := h.partner hs hr hc hb he

end Consistent

/-! ## What `Build` makes -/

section Build

variable {E : Failure → Prop} {limits : Budget} {left right : List Line} {a b : Nat}
  {edits : List Edit}

/-- The edits are in range, and none is empty on both sides. -/
def EditFits (left right : List Line) (e : Edit) : Prop :=
  e.begin_ ≤ e.end_ ∧ e.otherBegin ≤ e.otherEnd ∧ (e.begin_ < e.end_ ∨ e.otherBegin < e.otherEnd) ∧
    e.end_ ≤ left.length ∧ e.otherEnd ≤ right.length

theorem IsScript.editFits (h : IsScript left right edits) : ∀ e ∈ edits, EditFits left right e :=
  fun e he => ⟨(h.ordered e he).1, (h.ordered e he).2, h.nonempty e he, h.inside e he⟩

/-- Each edit takes a line of one side. -/
theorem length_le_of_covers (hc : Covers left right a b edits)
    (hs : ∀ e ∈ edits, EditFits left right e) :
    edits.length ≤ (left.length - a) + (right.length - b) := by
  induction edits generalizing a b with
  | nil => exact Nat.zero_le _
  | cons e es ih =>
    obtain ⟨hsame, hc⟩ := hc
    have hle := hsame.le
    obtain ⟨h1, h2, h3, h4, h5⟩ := hs e mem_cons_self
    have := ih hc fun f hf => hs f (mem_cons_of_mem _ hf)
    rw [length_cons]
    omega

theorem buildRuns_yields (hE : ∀ e, limits.Outside e → E e) (hc : Covers left right a b edits)
    (hs : ∀ e ∈ edits, EditFits left right e) :
    Yields E (buildRuns limits left.length right.length a b edits) fun runs =>
      SideTiles runs 0 a left.length ∧ SideTiles runs 1 b right.length ∧
      ∀ r ∈ runs, r.changed = false →
        slice left r.begin_.1 r.end_.1 = slice right r.begin_.2 r.end_.2 := by
  -- The lines in front of an edit, or behind the last one.
  have hfront : ∀ {a b a' b' : Nat}, Same left right a b a' b' → ∀ {rest : List AlignmentRun},
      SideTiles rest 0 a' left.length → SideTiles rest 1 b' right.length →
      (∀ r ∈ rest, r.changed = false →
        slice left r.begin_.1 r.end_.1 = slice right r.begin_.2 r.end_.2) →
      ∀ runs, runs = (if a' > a then [{ begin_ := (a, b), end_ := (a', b') }] else []) ++ rest →
      SideTiles runs 0 a left.length ∧ SideTiles runs 1 b right.length ∧
      ∀ r ∈ runs, r.changed = false →
        slice left r.begin_.1 r.end_.1 = slice right r.begin_.2 r.end_.2 := by
    intro a b a' b' hsame rest h0 h1 hrest runs hruns
    have hle := hsame.le
    subst hruns
    split
    · refine ⟨⟨rfl, hle.1, h0⟩, ⟨rfl, hle.2.1, h1⟩, fun r hr hch => ?_⟩
      rcases mem_cons.mp hr with rfl | hr
      · exact hsame.slice_eq
      · exact hrest r hr hch
    · rw [nil_append, show a = a' by omega, show b = b' by omega]
      exact ⟨h0, h1, hrest⟩
  induction edits generalizing a b with
  | nil =>
    have hle := Same.le hc
    rw [buildRuns]
    refine (throwIf_yields fun h => absurd (by omega) h).bind fun _ _ => .pure ?_
    have hnil : SideTiles [] 0 left.length left.length := rfl
    exact hfront hc hnil rfl (fun _ hr => absurd hr not_mem_nil) _ (append_nil _).symm
  | cons e es ih =>
    obtain ⟨hsame, hc⟩ := hc
    have hle := hsame.le
    obtain ⟨h1, h2, h3, h4, h5⟩ := hs e mem_cons_self
    rw [buildRuns]
    refine (Budget.check_yields hE).skip fun _ => ?_
    refine (throwIf_yields fun h => absurd h (by omega)).bind fun _ _ => ?_
    refine (ih hc fun f hf => hs f (mem_cons_of_mem _ hf)).bind fun rest hrest =>
      .pure ?_
    have h0 : SideTiles (⟨(e.begin_, e.otherBegin), (e.end_, e.otherEnd), true, 0, 0⟩ :: rest) 0
        e.begin_ left.length := ⟨rfl, h1, hrest.1⟩
    refine hfront hsame h0 ⟨rfl, h2, hrest.2.1⟩ (fun r hr hch => ?_) _ rfl
    rcases mem_cons.mp hr with rfl | hr
    · cases hch
    · exact hrest.2.2 r hr hch

/-- A run in its place. -/
def Placed (r p : AlignmentRun) : Prop :=
  p.begin_ = r.begin_ ∧ p.end_ = r.end_ ∧ p.changed = r.changed ∧ p.rowEnd - p.rowBegin = r.height

theorem assignRows_yields (hE : ∀ e, limits.Outside e → E e) (rows : Nat)
    (runs : List AlignmentRun) :
    Yields E (assignRows limits rows runs) fun p =>
      Tiles AlignmentRun.rowBegin AlignmentRun.rowEnd rows p.1 p.2 ∧
      List.Forall₂ Placed runs p.1 := by
  induction runs generalizing rows with
  | nil => exact .pure ⟨rfl, .nil⟩
  | cons r runs ih =>
    rw [assignRows]
    refine (Budget.check_yields hE).skip fun _ => ?_
    refine (ih (rows + r.height)).bind fun rest hrest => .pure ?_
    exact ⟨⟨rfl, Nat.le_add_right _ _, hrest.1⟩,
      .cons ⟨rfl, rfl, rfl, Nat.add_sub_cancel_left _ _⟩ hrest.2⟩

theorem placed_mem {runs placed : List AlignmentRun} {p : AlignmentRun}
    (h : List.Forall₂ Placed runs placed) (hp : p ∈ placed) : ∃ r ∈ runs, Placed r p := by
  obtain ⟨i, hi, rfl⟩ := mem_iff_getElem.mp hp
  have hi' : i < runs.length := h.length_eq ▸ hi
  exact ⟨_, getElem_mem hi', h.get hi' hi⟩

theorem SideTiles.placed {runs placed : List AlignmentRun} {side : Nat}
    (h : SideTiles runs side a b) (hp : List.Forall₂ Placed runs placed) :
    SideTiles placed side a b :=
  Tiles.congr h (hp.imp fun _ _ hr => ⟨by rw [hr.1], by rw [hr.2.1]⟩)

/-- What `Build` makes of a script between texts within the limit is aligned, and only the outside
makes it fail. -/
theorem build_yields (h : IsScript left right edits) (hl : left.length ≤ alignmentLineLimit)
    (hr : right.length ≤ alignmentLineLimit) :
    Yields limits.Outside (AlignmentMap.build limits left.length right.length edits) fun map =>
      Aligned (left, right) map := by
  refine (Budget.check_yields fun _ he => he).skip fun _ => ?_
  refine (throwIf_yields fun hc => ?_).bind fun _ _ => ?_
  · have := length_le_of_covers h.covers h.editFits
    exact absurd hc (by omega)
  refine (buildRuns_yields (fun _ he => he) h.covers h.editFits).bind fun runs hruns => ?_
  refine (assignRows_yields (fun _ he => he) 0 runs).bind fun placed hplaced => ?_
  refine (Budget.check_yields fun _ he => he).skip fun _ => .pure ?_
  refine ⟨rfl, fun side => ?_, hplaced.1, fun p hp => ?_, fun p hp hch => ?_⟩
  · rcases side with - | side
    · exact hruns.1.placed hplaced.2
    · exact hruns.2.1.placed hplaced.2
  · obtain ⟨r, -, hpr⟩ := placed_mem hplaced.2 hp
    rw [hpr.2.2.2, AlignmentRun.height, AlignmentRun.height, hpr.1, hpr.2.1]
  · obtain ⟨r, hrm, hpr⟩ := placed_mem hplaced.2 hp
    rw [hpr.1, hpr.2.1]
    exact hruns.2.2 r hrm (hpr.2.2.1.symm.trans hch)

/-- The changed runs are the edits. -/
theorem buildRuns_changed (leftLines rightLines : Nat) :
    Yields (fun _ => True) (buildRuns limits leftLines rightLines a b edits) fun runs =>
      ∀ r ∈ runs, r.changed = true →
        ∃ e ∈ edits, r.begin_ = (e.begin_, e.otherBegin) ∧ r.end_ = (e.end_, e.otherEnd) := by
  -- The lines in front of an edit, or behind the last one, are not changed.
  have hsame : ∀ {c : Prop} [Decidable c] {x y : Sides Nat} {r : AlignmentRun},
      r ∈ (if c then [{ begin_ := x, end_ := y }] else []) → r.changed = false := by
    intro c _ x y r hr
    split at hr
    · rw [mem_singleton.mp hr]
    · cases hr
  induction edits generalizing a b with
  | nil =>
    rw [buildRuns]
    refine .past fun _ => .pure fun r hr hchanged => ?_
    rw [hsame hr] at hchanged
    cases hchanged
  | cons e es ih =>
    rw [buildRuns]
    refine .past fun _ => .past fun _ => ih.bind fun rest hrest => .pure fun r hr hchanged => ?_
    rcases mem_append.mp hr with hr | hr
    · rw [hsame hr] at hchanged
      cases hchanged
    · rcases mem_cons.mp hr with rfl | hr
      · exact ⟨e, mem_cons_self, rfl, rfl⟩
      · obtain ⟨f, hf, hrun⟩ := hrest r hr hchanged
        exact ⟨f, mem_cons_of_mem _ hf, hrun⟩

/-- Every line that is changed is one of an edit. -/
theorem build_changed (leftLines rightLines : Nat) :
    Yields (fun _ => True) (AlignmentMap.build limits leftLines rightLines edits) fun map =>
      ChangedLines (fun side line => ∃ e ∈ edits, e.Takes side line) map.runs := by
  refine .past fun _ => .past fun _ => ?_
  refine (buildRuns_changed _ _).bind fun runs hruns => ?_
  refine (assignRows_yields (fun _ _ => trivial) 0 runs).bind fun placed hplaced => ?_
  refine .past fun _ => .pure fun p hp hchanged side line hb he => ?_
  obtain ⟨r, hr, hbegin, hend, hch, -⟩ := placed_mem hplaced.2 hp
  obtain ⟨e, hmem, hrb, hre⟩ := hruns r hr (hch.symm.trans hchanged)
  rw [hbegin, hrb] at hb
  rw [hend, hre] at he
  exact ⟨e, hmem, hb, he⟩

end Build

end Hc.Compare
