import HyperCommander.Compare.LargeTextMerge
import HyperCommander.Lib.Segments

/-!
# Resolving the conflicts of a large merge

The result of a merge is gaps with the conflicts between them. Resolving a conflict replaces its
piece and moves the ranges behind it (`LaidSession.resolve`).

* `large_merge_agrees`: the session has the text and the conflicts of the merge in memory, and in
  every session reached from it by resolving conflicts the ranges lie behind one another and have
  what was chosen.
-/

namespace Hc.Compare

open List Slice Pieces Segments

/-- The result range of a conflict. -/
def Conflict.range (c : Conflict) : Nat × Nat := (c.resultBegin, c.resultEnd)

def LargeTextConflict.range (c : LargeTextConflict) : Nat × Nat := (c.begin_, c.end_)

/-- The text that a choice gives to a conflict; an unresolved one shows the base. -/
def Conflict.chosen (c : Conflict) : Resolution → Bytes
  | .left => c.left
  | .right => c.right
  | .leftThenRight => c.left ++ c.right
  | .rightThenLeft => c.right ++ c.left
  | .omit => []
  | _ => c.base

/-! ## The layout of a merge -/

/-- The text of the result is gaps with the conflicts between them. -/
def LaidOut (result : MergeResult) : Prop :=
  ∃ segs tail, result.text = render tail segs ∧ result.conflicts.map Conflict.range = spans 0 segs ∧
    segs.map Prod.snd = result.conflicts.map Conflict.base

variable {result : MergeResult} {session : LargeTextSession}

theorem LaidOut.more (h : LaidOut result) (text : Bytes) (regions : List MergeRegion) :
    LaidOut { result with text := result.text ++ text, regions := regions } := by
  obtain ⟨segs, tail, ht, hr, hp⟩ := h
  refine ⟨segs, tail ++ text, ?_, hr, hp⟩
  rw [ht, render_tail, render_tail (tail ++ text), append_assoc]

theorem LaidOut.conflict (h : LaidOut result) (c : Conflict)
    (gap : Bytes) (regions : List MergeRegion) (hb : c.resultBegin = (result.text ++ gap).length)
    (he : c.resultEnd = (result.text ++ gap ++ c.base).length) :
    LaidOut ⟨result.text ++ gap ++ c.base, result.conflicts ++ [c], regions⟩ := by
  obtain ⟨segs, tail, ht, hr, hp⟩ := h
  have hwhole : ∀ t, render (tail ++ gap ++ t) segs = result.text ++ gap ++ t := by
    intro t
    rw [ht, render_tail, render_tail tail, append_assoc, append_assoc, append_assoc]
  refine ⟨segs ++ [(tail ++ gap, c.base)], [], ?_, ?_, ?_⟩
  · rw [render_concat, append_nil, hwhole]
  · have hgap := hwhole []
    rw [append_nil, append_nil] at hgap
    rw [map_append, hr, spans_concat, hwhole, hgap, Nat.zero_add, Nat.zero_add, ← hb, ← he]
    rfl
  · rw [map_append, map_append, hp]
    rfl

theorem LaidOut.addRegion (h : LaidOut result) (base : List Line)
    (l r : List Edit) (c b e : Nat) (group : List Tagged) :
    LaidOut (addRegion base l r c b e group result) := by
  unfold Hc.Compare.addRegion
  dsimp only
  split
  · rw [append_assoc]
    exact h.more _ _
  split
  · rw [append_assoc]
    exact h.more _ _
  · exact h.conflict ⟨b, e, _, _, _, _, append base b e, _, _⟩ (append base c b) _ rfl rfl

theorem laidOut_mergeGroups {base : List Line} {l r : List Edit} {gs : List EditGroup} {c : Nat}
    (h : LaidOut result) : LaidOut (mergeGroups base l r gs c result) := by
  induction gs generalizing c result with
  | nil => exact h.more _ _
  | cons g gs ih => exact ih (h.addRegion base l r c g.begin_ g.end_ g.edits)

theorem laidOut_mergeEdits (base : List Line) (l r : List Edit) : LaidOut (mergeEdits base l r) :=
  laidOut_mergeGroups ⟨[], [], rfl, rfl, rfl⟩

/-! ## Resolving -/

variable {limits : Budget} {lib : Library} {disk : Disk}

/-- A conflict of the large texts has the sides of the conflict `c`. -/
structure SidesOf (disk : Disk) (c : Conflict) (large : LargeTextConflict) : Prop where
  base : Holds disk large.base c.base
  left : Holds disk large.left c.left
  right : Holds disk large.right c.right

/-- The conflict `c` with its choice and the piece in its place. -/
structure Resolved (disk : Disk) (c : Conflict) (large : LargeTextConflict) (choice : Resolution)
    (piece : Bytes) : Prop where
  sides : SidesOf disk c large
  chosen : large.choice = choice
  piece : piece = c.chosen choice

/-- The layout of a session: gaps with what was chosen between them. -/
structure LaidSession (disk : Disk) (conflicts : List Conflict) (choices : Nat → Resolution)
    (session : LargeTextSession) (segs : List (Bytes × Bytes)) (tail : Bytes) : Prop where
  result : session.result < session.documents.length
  text : Holds disk (session.document session.result) (render tail segs)
  ranges : session.conflicts.map LargeTextConflict.range = spans 0 segs
  length : session.conflicts.length = conflicts.length
  resolved : ∀ i c large s, conflicts[i]? = some c → session.conflicts[i]? = some large →
    segs[i]? = some s → Resolved disk c large (choices i) s.2

theorem chosenDocument_yields {c : Conflict} {large : LargeTextConflict} (h : SidesOf disk c large)
    (choice : Resolution) :
    Yields (fun _ => True) (chosenDocument large choice) fun out =>
      Holds disk out (c.chosen choice) := by
  cases choice with
  | left => exact .pure h.left
  | right => exact .pure h.right
  | base => exact .pure h.base
  | leftThenRight =>
    exact (appendLargeText_yields (.empty disk) h.left).bind fun _ hx =>
      appendLargeText_yields hx h.right
  | rightThenLeft =>
    exact (appendLargeText_yields (.empty disk) h.right).bind fun _ hx =>
      appendLargeText_yields hx h.left
  | unresolved | manual => exact .fail trivial
  | _ => exact .pure (.empty disk)

theorem pairLargeTextSession_yields {pair : Nat × Nat} :
    Yields (fun _ => True) (pairLargeTextSession limits lib disk session pair) fun out =>
      out = { session with pair := pair } :=
  .past fun _ => .past fun _ => .past fun _ => Yields.pure rfl

/-- The conflicts with one of them resolved and those behind it moved. -/
theorem getElem?_moved {cs : List LargeTextConflict} {x : LargeTextConflict} {i : Nat}
    (f : LargeTextConflict → LargeTextConflict) (hi : i < cs.length) (j : Nat) :
    (cs.take i ++ x :: (cs.drop (i + 1)).map f)[j]? =
      if j < i then cs[j]? else if j = i then some x else cs[j]?.map f := by
  rw [getElem?_append, length_take, Nat.min_eq_left hi.le]
  by_cases hlt : j < i
  · rw [if_pos hlt, if_pos hlt, getElem?_take, if_pos hlt]
  rw [if_neg hlt, if_neg hlt]
  by_cases heq : j = i
  · rw [if_pos heq, heq, Nat.sub_self, getElem?_cons_zero]
  · rw [if_neg heq, show j - i = (j - i - 1) + 1 by omega, getElem?_cons_succ,
      getElem?_map, getElem?_drop, show i + 1 + (j - i - 1) = j by omega]

/-- Resolving a conflict puts what was chosen in its place, and nothing else changes. -/
theorem LaidSession.resolve {conflicts : List Conflict} {choices : Nat → Resolution}
    {segs : List (Bytes × Bytes)} {tail : Bytes}
    (h : LaidSession disk conflicts choices session segs tail) (index : Nat) (choice : Resolution) :
    Yields (fun _ => True) (resolveLargeTextConflict limits lib disk session index choice)
      fun out => ∃ segs',
        LaidSession disk conflicts (fun i => if index = i then choice else choices i) out segs'
          tail := by
  unfold resolveLargeTextConflict
  split
  · exact .fail trivial
  rename_i conflict hconflict
  have hi := List.getElem?_eq_some_iff.mp hconflict |>.1
  have hspan : (spans 0 segs)[index]? = some (conflict.begin_, conflict.end_) := by
    rw [← h.ranges, getElem?_map, hconflict]
    rfl
  have hsegs : index < segs.length := by
    rw [← length_spans 0]
    exact (List.getElem?_eq_some_iff.mp hspan).1
  obtain ⟨c, hc⟩ : ∃ c, conflicts[index]? = some c :=
    ⟨_, getElem?_eq_getElem (by rw [← h.length]; exact hi)⟩
  have hold := h.resolved index _ _ _ hc hconflict (getElem?_eq_getElem hsegs)
  refine throwIf_past fun _ => ?_
  refine (chosenDocument_yields hold.sides choice).bind fun replacement hr => ?_
  refine (replaceLargeText_yields h.text hr).bind fun result hresult => ?_
  have htext := hresult.1
  rw [hr.bytes, slice_full, ← nil_append (render tail segs), splice_render hspan rfl,
    nil_append] at htext
  refine pairLargeTextSession_yields.weaken fun out ho => ⟨put segs index (c.chosen choice), ?_⟩
  subst ho
  refine ⟨?_, ?_, ?_, ?_, ?_⟩
  · dsimp only
    rw [length_set]
    exact h.result
  · unfold LargeTextSession.document
    rw [getD_eq_getElem?_getD, getElem?_set_self h.result]
    exact htext
  · -- The ranges behind the resolved one move by the difference in length.
    have hsplit : (spans 0 segs).take index ++ (conflict.begin_, conflict.end_) ::
        (spans 0 segs).drop (index + 1) = spans 0 segs := by
      obtain ⟨hlt, hget⟩ := List.getElem?_eq_some_iff.mp hspan
      rw [← hget, ← drop_eq_getElem_cons, take_append_drop]
    have hordered := ordered_spans 0 segs
    rw [← hsplit] at hordered
    have hbehind := hordered.drop_cons.mem
    have hbe := (hordered.mem _ (mem_append_right _ mem_cons_self)).2
    rw [spans_put hspan, ← h.ranges]
    rw [← h.ranges, ← map_drop] at hbehind
    rw [map_append, map_cons, ← map_take, ← map_drop, map_map, map_map,
      hr.bytes]
    refine congrArg _ (congrArg _ (map_congr_left fun x hx => ?_))
    have hx := hbehind _ (mem_map_of_mem hx)
    unfold LargeTextConflict.range at hx ⊢
    unfold shiftConflict
    dsimp only [Function.comp_apply] at hx hbe ⊢
    exact Prod.ext (by dsimp only; omega) (by dsimp only; omega)
  · dsimp only
    rw [length_append, length_take, length_cons, length_map, length_drop,
      ← h.length]
    omega
  · intro i c' large s hc' hl hs
    rw [getElem?_moved _ hi] at hl
    rw [put, getElem?_modify] at hs
    by_cases heq : i = index
    · subst heq
      rw [if_neg (Nat.lt_irrefl _), if_pos rfl] at hl
      rw [getElem?_eq_getElem hsegs, Option.map_eq_map, Option.map_some, if_pos rfl] at hs
      obtain rfl := Option.some.inj hl
      obtain rfl := Option.some.inj hs
      obtain rfl := Option.some.inj (hc.symm.trans hc')
      rw [if_pos rfl]
      exact ⟨⟨hold.sides.base, hold.sides.left, hold.sides.right⟩, rfl, rfl⟩
    · simp only [if_neg (Ne.symm heq), Option.map_eq_map, Option.map_id'] at hs
      rw [if_neg (Ne.symm heq)]
      by_cases hlt : i < index
      · rw [if_pos hlt] at hl
        exact h.resolved i c' large s hc' hl hs
      · rw [if_neg hlt, if_neg heq] at hl
        obtain ⟨old, ho, rfl⟩ := Option.map_eq_some_iff.mp hl
        have hold := h.resolved i c' old s hc' ho hs
        exact ⟨⟨hold.sides.base, hold.sides.left, hold.sides.right⟩, hold.chosen, hold.piece⟩

theorem LaidSession.run {conflicts : List Conflict} {start : LargeTextSession}
    {segs : List (Bytes × Bytes)} {tail : Bytes} {calls : List (Nat × Resolution)}
    (h : LaidSession disk conflicts (fun _ => .unresolved) start segs tail)
    (hr : Resolves lib disk start calls session) :
    ∃ segs', LaidSession disk conflicts (lastChoice calls) session segs' tail := by
  induction hr with
  | start => exact ⟨segs, h⟩
  | resolve _ hcall ih =>
    obtain ⟨segs', h'⟩ := ih
    exact (h'.resolve _ _).of_returns hcall

/-- The result of the session is `text`. The conflicts lie in it one behind another, and each has
its sides, the last choice made for it and what that gives. -/
structure SettledSession (disk : Disk) (conflicts : List Conflict) (calls : List (Nat × Resolution))
    (session : LargeTextSession) (text : Bytes) : Prop where
  result : Holds disk (session.document session.result) text
  ordered : Segments.Ordered 0 (session.conflicts.map LargeTextConflict.range)
  inside : ∀ large ∈ session.conflicts, large.end_ ≤ text.length
  length : session.conflicts.length = conflicts.length
  resolved : ∀ i c large, conflicts[i]? = some c → session.conflicts[i]? = some large →
    Resolved disk c large (lastChoice calls i) (slice text large.begin_ large.end_)

theorem LaidSession.settled {conflicts : List Conflict} {session : LargeTextSession}
    {segs : List (Bytes × Bytes)} {tail : Bytes} {calls : List (Nat × Resolution)}
    (h : LaidSession disk conflicts (lastChoice calls) session segs tail) :
    SettledSession disk conflicts calls session (render tail segs) := by
  have hpiece : ∀ (i : Nat) (large : LargeTextConflict), session.conflicts[i]? = some large →
      ∃ s, segs[i]? = some s ∧ slice (render tail segs) large.begin_ large.end_ = s.2 ∧
        large.end_ ≤ (render tail segs).length := by
    intro i large hl
    have hspan : (spans 0 segs)[i]? = some (large.begin_, large.end_) := by
      rw [← h.ranges, getElem?_map, hl]
      rfl
    have hi : i < segs.length := by
      rw [← length_spans 0]
      exact (List.getElem?_eq_some_iff.mp hspan).1
    exact ⟨_, getElem?_eq_getElem hi,
      slice_render hspan (getElem?_eq_getElem hi) (rfl : ([] : List _).length = 0)⟩
  refine ⟨h.text, h.ranges ▸ ordered_spans 0 segs, fun large hm => ?_, h.length,
    fun i c large hc hl => ?_⟩
  · obtain ⟨i, hi⟩ := getElem?_of_mem hm
    obtain ⟨_, -, -, hin⟩ := hpiece i large hi
    exact hin
  · obtain ⟨s, hs, hslice, -⟩ := hpiece i large hl
    rw [hslice]
    exact h.resolved i c large s hc hl hs

/-- A large merge has the text and the conflicts of the merge in memory, and keeps its conflicts
apart and their contents right however they are resolved. -/
theorem large_merge_agrees {limits limits' : Budget} {base left right : Bytes}
    {bd ld rd : LargeTextDocument} (hb : Holds disk bd base) (hl : Holds disk ld left)
    (hr : Holds disk rd right) (ht : limits.traceBytes = limits'.traceBytes) {merged : MergeResult}
    (hm : Returns (merge limits lib base left right) merged) {session : LargeTextSession}
    (hs : Returns (openLargeTextMerge limits' lib disk ld rd bd) session) :
    Holds disk (session.document session.result) merged.text ∧
    List.Forall₂ (ConflictOf disk) merged.conflicts session.conflicts ∧
    ∀ calls next, Resolves lib disk session calls next →
      ∃ text, SettledSession disk merged.conflicts calls next text := by
  obtain ⟨hro, l, r, hdl, hdr, rfl⟩ := (merge_returns limits lib base left right).of_returns hm
  have hopen : Yields (fun _ => True) (openLargeTextMerge limits' lib disk ld rd bd) fun out =>
      ∃ m, MergeOf disk (mergeEdits (lines base) l r) m ∧ out =
        { documents := [ld, rd, bd, m.result], result := 3, conflicts := m.conflicts,
          pair := (0, 3) } := by
    refine .past fun _ => ?_
    refine (mergeLargeText_yields hb hl hr (sideScript_of_returns hro hdl)
      (sideScript_of_returns hro hdr)
      (fun es he => diff_bare ht hdl he) fun es he => diff_bare ht hdr he).bind fun s h => ?_
    obtain ⟨m, hm, rfl⟩ := h
    exact pairLargeTextSession_yields.weaken fun out ho => ⟨m, hm, ho⟩
  obtain ⟨m, hmerge, rfl⟩ := hopen.of_returns hs
  refine ⟨hmerge.text, hmerge.conflicts, fun calls next hrun => ?_⟩
  obtain ⟨segs, tail, htext, hranges, hpieces⟩ := laidOut_mergeEdits (lines base) l r
  have hpoint : ∀ (i : Nat) (c : Conflict) (large : LargeTextConflict),
    (mergeEdits (lines base) l r).conflicts[i]? = some c →
      m.conflicts[i]? = some large → ConflictOf disk c large := by
    intro i c large hc hl
    obtain ⟨hi, rfl⟩ := List.getElem?_eq_some_iff.mp hc
    obtain ⟨hj, rfl⟩ := List.getElem?_eq_some_iff.mp hl
    exact hmerge.conflicts.get hi hj
  have hstart : LaidSession disk (mergeEdits (lines base) l r).conflicts (fun _ => .unresolved)
      { documents := [ld, rd, bd, m.result], result := 3, conflicts := m.conflicts, pair := (0, 3) }
      segs tail := by
    refine ⟨Nat.lt_succ_self 3, htext ▸ hmerge.text, ?_, hmerge.conflicts.length_eq.symm, ?_⟩
    · rw [← hranges]
      exact map_eq_of_forall₂ hmerge.conflicts fun _ _ h => Prod.ext h.begin_ h.end_
    · intro i c large s hc hl hs
      have hlarge := hpoint i c large hc hl
      refine ⟨⟨hlarge.base, hlarge.left, hlarge.right⟩, hlarge.choice, ?_⟩
      have := congrArg (·[i]?) hpieces
      simp only [getElem?_map, hc, hs] at this
      exact Option.some.inj this
  obtain ⟨segs', hlaid⟩ := hstart.run hrun
  exact ⟨_, hlaid.settled⟩

/-- The texts of a base and of two sides that change the first and the last line of it. -/
def sampleFiles : Disk
  | 0 => [97, 10, 98, 10, 99]
  | 1 => [120, 10, 98, 10, 117]
  | _ => [121, 10, 98, 10, 118]

def sampleText (file : Nat) : LargeTextDocument := ⟨[⟨file, 0, 5⟩], 5⟩

/-- The session of their merge, where the choice for the first conflict makes it `shift` bytes
longer. -/
def sampleMerge (pieces : List LargeTextPiece) (shift : Nat) (choice : Resolution) :
    LargeTextSession where
  documents := [sampleText 1, sampleText 2, sampleText 0, ⟨pieces, 5 + shift⟩]
  result := 3
  conflicts := [⟨⟨[⟨0, 0, 2⟩], 2⟩, ⟨[⟨1, 0, 2⟩], 2⟩, ⟨[⟨2, 0, 2⟩], 2⟩, 0, 2 + shift, choice⟩,
    ⟨⟨[⟨0, 4, 1⟩], 1⟩, ⟨[⟨1, 4, 1⟩], 1⟩, ⟨[⟨2, 4, 1⟩], 1⟩, 4 + shift, 5 + shift, .unresolved⟩]
  pair := (0, 3)

/-- The first of two conflicts is resolved to both sides, which moves the second. -/
theorem large_merge_agrees_both :
    Holds sampleFiles ((sampleMerge [⟨0, 0, 5⟩] 0 .unresolved).document 3) [97, 10, 98, 10, 99] ∧
    ∃ text, SettledSession sampleFiles
      [⟨0, 1, 0, 2, 0, 0, [97, 10], [120, 10], [121, 10]⟩, ⟨2, 3, 4, 5, 2, 2, [99], [117], [118]⟩]
      [(0, .leftThenRight)]
      (sampleMerge [⟨1, 0, 2⟩, ⟨2, 0, 2⟩, ⟨0, 2, 3⟩] 2 .leftThenRight) text := by
  have hholds : ∀ n, Holds sampleFiles (sampleText n) (sampleFiles n) := by
    intro n
    rcases n with _ | _ | n
    all_goals exact ⟨by simp [sampleText, Piece.Fits, sampleFiles], rfl, rfl⟩
  have hm : Returns (merge .unlimited ⟨fun _ => 0, fun _ _ => 0⟩ (sampleFiles 0) (sampleFiles 1)
      (sampleFiles 2)) ⟨[97, 10, 98, 10, 99],
        [⟨0, 1, 0, 2, 0, 0, [97, 10], [120, 10], [121, 10]⟩,
          ⟨2, 3, 4, 5, 2, 2, [99], [117], [118]⟩],
        [⟨0, 1, 0, 0, 2, 2, 0, 2, .conflict⟩, ⟨2, 3, 2, 2, 1, 1, 4, 5, .conflict⟩]⟩ :=
    ⟨{}, ⟨17, 74⟩, by decide +kernel⟩
  have hs : Returns (openLargeTextMerge .unlimited ⟨fun _ => 0, fun _ _ => 0⟩ sampleFiles
      (sampleText 1) (sampleText 2) (sampleText 0))
      (sampleMerge [⟨0, 0, 5⟩] 0 .unresolved) :=
    ⟨{}, ⟨14, 279⟩, by decide +kernel⟩
  have hr : Returns (resolveLargeTextConflict .unlimited ⟨fun _ => 0, fun _ _ => 0⟩ sampleFiles
      (sampleMerge [⟨0, 0, 5⟩] 0 .unresolved) 0 .leftThenRight)
      (sampleMerge [⟨1, 0, 2⟩, ⟨2, 0, 2⟩, ⟨0, 2, 3⟩] 2 .leftThenRight) :=
    ⟨{}, ⟨10, 96⟩, by decide +kernel⟩
  obtain ⟨htext, -, hrun⟩ := large_merge_agrees (hholds 0) (hholds 1) (hholds 2) rfl hm hs
  exact ⟨htext, hrun _ _ (.resolve .start hr)⟩

end Hc.Compare
