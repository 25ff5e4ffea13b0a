import HyperCommander.Compare.LargeTextLemmas
import HyperCommander.Compare.MergeGroups

/-!
# The merge of large texts

`mergeLargeText` sees ranges of edits only, `Merge` edits that carry bytes. They form the same
groups (`takeGroup_bare`), a group adds the same text and the same conflict to both results
(`mergeLargeGroup_yields`), and so do all of them (`mergeLargeText_yields`).
-/

namespace Hc.Compare

open List Slice Pieces

/-! ## Edits without bytes -/

/-- A tagged edit without the bytes it carries. -/
def Tagged.bare (t : Tagged) : Tagged := ⟨t.edit.bare, t.isLeft⟩

theorem ofSide_bare (isLeft : Bool) (ts : List Tagged) :
    ofSide isLeft (ts.map Tagged.bare) = (ofSide isLeft ts).map Edit.bare := by
  unfold ofSide
  rw [filter_map, map_map, map_map]
  rfl

theorem sortedEdits_bare (l r : List Edit) :
    sortedEdits (l.map Edit.bare) (r.map Edit.bare) = (sortedEdits l r).map Tagged.bare := by
  unfold sortedEdits
  rw [map_insertionSort (fun a b => notAfter a b) (fun a b => notAfter a b) Tagged.bare _
    fun _ _ _ _ => Iff.rfl, map_append, map_map, map_map, map_map, map_map]
  rfl

theorem takeGroup_bare (b e : Nat) (ts : List Tagged) : takeGroup b e (ts.map Tagged.bare) =
    ((takeGroup b e ts).1.map Tagged.bare, (takeGroup b e ts).2.1,
      (takeGroup b e ts).2.2.map Tagged.bare) := by
  induction ts generalizing e with
  | nil => rfl
  | cons t ts ih =>
    rw [map_cons, takeGroup, takeGroup]
    by_cases h : overlaps ⟨b, e, 0, 0, []⟩ t.edit = true
    · rw [if_pos h, if_pos (show overlaps ⟨b, e, 0, 0, []⟩ t.bare.edit = true from h)]
      rw [show t.bare.edit.end_ = t.edit.end_ from rfl, ih]
      rfl
    · rw [if_neg h, if_neg (show ¬ overlaps ⟨b, e, 0, 0, []⟩ t.bare.edit = true from h)]
      rfl

/-! ## Groups -/

variable {limits : Budget} {disk : Disk}

/-- A conflict of the large texts is the one of the texts in memory. -/
structure ConflictOf (disk : Disk) (c : Conflict) (large : LargeTextConflict) : Prop where
  base : Holds disk large.base c.base
  left : Holds disk large.left c.left
  right : Holds disk large.right c.right
  begin_ : large.begin_ = c.resultBegin
  end_ : large.end_ = c.resultEnd
  choice : large.choice = .unresolved

/-- The documents hold what the merge in memory has. -/
structure MergeOf (disk : Disk) (result : MergeResult) (m : LargeMerge) : Prop where
  text : Holds disk m.result result.text
  conflicts : List.Forall₂ (ConflictOf disk) result.conflicts m.conflicts

section Sides

variable {base side : Bytes} {b s m : LargeTextDocument}

theorem largeVariantFrom_yields {text : Bytes} {done pending es : List Edit} {c c' end_ : Nat}
    (hb : Holds disk b base) (hs : Holds disk s side) (hm : Holds disk m text)
    (h : Cut (lines base) (lines side) done (es ++ pending) c c') (hc : c ≤ end_)
    (hend : end_ ≤ (lines base).length) (hes : ∀ e ∈ es, e.end_ ≤ end_) :
    Yields (fun _ => True) (largeVariantFrom limits disk b s (offsetsFrom 0 (lines base))
      (offsetsFrom 0 (lines side)) end_ (es.map Edit.bare) c m) fun out =>
        Holds disk out (text ++ variant (lines base) c end_ es) := by
  induction es generalizing done c c' m text with
  | nil => exact (range_lines_yields hb hc hend).bind fun same hsame =>
    appendLargeText_yields hm hsame
  | cons e es ih =>
    have ho := h.script.ordered e (by simp)
    have hi := h.script.inside e (by simp)
    refine (range_lines_yields hb (h.after e (by simp))
      (by have := ho.1; exact this.trans hi.1)).bind
      fun same hsame => ?_
    refine (appendLargeText_yields hm hsame).bind fun result hresult => ?_
    refine (range_lines_yields hs ho.2 hi.2).bind fun new hnew => ?_
    refine (appendLargeText_yields hresult hnew).bind fun result hresult => ?_
    refine (ih hresult h.pass (hes e (by simp)) fun f hf => hes f (by simp [hf])).weaken
      fun out ho => ?_
    rw [variant, h.script.bytes e (by simp)]
    simpa only [append_assoc] using ho

theorem largeVariant_yields {done pending es : List Edit} {c c' end_ : Nat} (hb : Holds disk b base)
    (hs : Holds disk s side) (h : Cut (lines base) (lines side) done (es ++ pending) c c')
    (hc : c ≤ end_) (hend : end_ ≤ (lines base).length) (hes : ∀ e ∈ es, e.end_ ≤ end_) :
    Yields (fun _ => True) (largeVariant limits disk b s (offsetsFrom 0 (lines base))
      (offsetsFrom 0 (lines side)) c end_ (es.map Edit.bare)) fun out =>
        Holds disk out (variant (lines base) c end_ es) :=
  largeVariantFrom_yields hb hs (.empty disk) h hc hend hes

end Sides

/-- Three documents, their texts, and the comparisons of the base with both sides. -/
structure Inputs (disk : Disk) (base left right : Bytes) (bd ld rd : LargeTextDocument)
    (a b : LargeTextComparison) : Prop where
  ofBase : Holds disk bd base
  ofLeft : Holds disk ld left
  ofRight : Holds disk rd right
  baseLeft : a.left = offsetsFrom 0 (lines base)
  leftLines : a.right = offsetsFrom 0 (lines left)
  baseRight : b.left = offsetsFrom 0 (lines base)
  rightLines : b.right = offsetsFrom 0 (lines right)

variable {base left right : Bytes} {bd ld rd : LargeTextDocument} {a b : LargeTextComparison}
  {l r : List Edit}

/-- A group adds the same to both results. -/
theorem mergeLargeGroup_yields {t : Tagged} {ts group rest : List Tagged} {c cl cr end_ : Nat}
    {result : MergeResult} {m : LargeMerge} (h : Inputs disk base left right bd ld rd a b)
    (hs : Sorted (t :: ts)) (hr : Ranges (lines base) c (t :: ts))
    (hg : Group (lines base) t ts group end_ rest)
    (hl : OnSide (lines base) (lines left) l true (t :: ts) c cl)
    (hrt : OnSide (lines base) (lines right) r false (t :: ts) c cr) (hm : MergeOf disk result m) :
    Yields (fun _ => True) (mergeLargeGroup limits disk bd ld rd a b c t.edit.begin_ end_
      ((t :: group).map Tagged.bare) m)
      (MergeOf disk (addRegion (lines base) l r c t.edit.begin_ end_ (t :: group) result)) := by
  have ht := hr t mem_cons_self
  have hend := hg.le_end
  obtain ⟨dl, bl, -, -, -, -, hcutl, hinl, -⟩ := hl.cut_group hs hr hg
  obtain ⟨dr, br, -, -, -, -, hcutr, hinr, -⟩ := hrt.cut_group hs hr hg
  unfold mergeLargeGroup
  rw [ofSide_bare, ofSide_bare, h.baseLeft, h.leftLines, h.baseRight, h.rightLines]
  refine (largeVariant_yields h.ofBase h.ofLeft hcutl (by omega) hg.inside hinl).bind fun x hx => ?_
  refine (largeVariant_yields h.ofBase h.ofRight hcutr (by omega) hg.inside hinr).bind
    fun y hy => ?_
  refine (range_lines_yields h.ofBase ht.1 (by omega)).bind fun before hbefore => ?_
  refine (appendLargeText_yields hm.text hbefore).bind fun head hhead => ?_
  unfold addRegion
  have hnil : ∀ es : List Edit, es.map Edit.bare = [] ↔ es = [] := fun _ => map_eq_nil_iff
  by_cases hls : ofSide true (t :: group) = []
  · rw [if_pos ((hnil _).mpr hls), if_pos hls]
    exact (appendLargeText_yields hhead hy).bind fun out hout => .pure ⟨hout, hm.conflicts⟩
  rw [if_neg fun h => hls ((hnil _).mp h), if_neg hls]
  have hsame : Yields (fun _ => True)
      (if (ofSide false (t :: group)).map Edit.bare = [] then pure true
        else equal limits disk x y) fun out =>
        out = true ↔ ofSide false (t :: group) = [] ∨
          variant (lines base) t.edit.begin_ end_ (ofSide true (t :: group)) =
            variant (lines base) t.edit.begin_ end_ (ofSide false (t :: group)) :=
    .ite (fun h0 => .pure ⟨fun _ => .inl ((hnil _).mp h0), fun _ => rfl⟩) fun h0 =>
      (equal_yields hx hy).weaken fun out ho =>
        ho.trans ⟨.inr, fun h => h.resolve_left fun h => h0 ((hnil _).mpr h)⟩
  refine hsame.bind fun same hsame => ?_
  by_cases hsm : same = true
  · rw [if_pos hsm, if_pos (hsame.mp hsm)]
    exact (appendLargeText_yields hhead hx).bind fun out hout => .pure ⟨hout, hm.conflicts⟩
  · rw [if_neg hsm, if_neg fun h => hsm (hsame.mpr h)]
    refine (range_lines_yields h.ofBase (by omega) hg.inside).bind fun kept hkept => ?_
    refine (appendLargeText_yields hhead hkept).bind fun whole hwhole => .pure ⟨hwhole, ?_⟩
    refine rel_append hm.conflicts (.cons ?_ .nil)
    exact ⟨hkept, hx, hy, hhead.bytes, hwhole.bytes, rfl⟩

theorem mergeLargeFrom_yields {fuel c cl cr : Nat} {ts : List Tagged} {result : MergeResult}
    {m : LargeMerge} (h : Inputs disk base left right bd ld rd a b) (hf : ts.length < fuel)
    (hc : c ≤ (lines base).length) (hs : Sorted ts) (hr : Ranges (lines base) c ts)
    (hl : OnSide (lines base) (lines left) l true ts c cl)
    (hrt : OnSide (lines base) (lines right) r false ts c cr) (hm : MergeOf disk result m) :
    Yields (fun _ => True) (mergeLargeFrom limits disk bd ld rd a b fuel (ts.map Tagged.bare) c m)
      (MergeOf disk (mergeGroups (lines base) l r (groupsFrom fuel ts) c result)) := by
  induction fuel generalizing ts c cl cr result m with
  | zero => omega
  | succ fuel ih =>
    cases ts with
    | nil =>
      have hbytes : bd.bytes = (offsetsFrom 0 (lines base)).getD (lines base).length 0 := by
        rw [getD_offsetsFrom 0 (Nat.le_refl _), append, slice_full, lines_flatten, h.ofBase.bytes,
          Nat.zero_add]
      unfold mergeLargeFrom
      rw [map_nil, h.baseLeft, hbytes]
      refine (range_lines_yields h.ofBase hc (Nat.le_refl _)).bind fun rest hrest => ?_
      exact (appendLargeText_yields hm.text hrest).bind fun out hout => .pure ⟨hout, hm.conflicts⟩
    | cons t ts =>
      have hg := group_of_takeGroup hs hr
      have hlen := congrArg length hg.split
      rw [length_append] at hlen
      rw [length_cons] at hf
      obtain ⟨_, dl, -, -, -, -, -, -, hl'⟩ := hl.step hs hr hg
      obtain ⟨_, dr, -, -, -, -, -, -, hrt'⟩ := hrt.step hs hr hg
      refine check_any.skip fun _ => ?_
      rw [show t.bare.edit.begin_ = t.edit.begin_ from rfl,
        show t.bare.edit.end_ = t.edit.end_ from rfl, takeGroup_bare]
      refine (mergeLargeGroup_yields h hs hr hg hl hrt hm).bind fun m' hm' => ?_
      exact ih (by omega) hg.inside (hg.sorted_rest hs) (hg.ranges_rest hr) hl' hrt' hm'

/-! ## The whole merge -/

/-- With ranges only, `Diff` finds the edits that it finds with bytes, without them. -/
theorem diff_bare {limits limits' : Budget} {lib : Library} {base side : Bytes} {es fs : List Edit}
    (ht : limits.traceBytes = limits'.traceBytes) (he : Returns (diff limits lib base side) es)
    (hf : Returns (diff { limits' with rangesOnly := true } lib base side) fs) :
    fs = es.map Edit.bare := by
  have ht : limits.traceBytes = ({ limits' with rangesOnly := true } : Budget).traceBytes := ht
  have hbuilt := ((diff_yields { limits' with rangesOnly := true } lib base side).of_returns hf).1.1
  have hbare : ∀ f ∈ fs, f.bare = f := by
    intro f hf
    have hnone : f.replacement = [] := (hbuilt.forall_edit f (mem_reverse.mpr hf)).2.2.2
    rw [Edit.bare, ← hnone]
  have hsame : es.map Edit.bare = fs.map Edit.bare := (diff_agree ht lib base side).of_returns he hf
  rw [hsame, map_congr_left hbare, map_id']

/-- The session of a merge has the result and the conflicts of the merge in memory. -/
theorem mergeLargeText_yields {lib : Library}
    (hb : Holds disk bd base) (hl : Holds disk ld left) (hr : Holds disk rd right)
    (hsl : SideScript (lines base) (lines left) l) (hsr : SideScript (lines base) (lines right) r)
    (hel : ∀ es, Returns (diff { limits with rangesOnly := true } lib base left) es →
      es = l.map Edit.bare)
    (her : ∀ es, Returns (diff { limits with rangesOnly := true } lib base right) es →
      es = r.map Edit.bare) :
    Yields (fun _ => True) (mergeLargeText limits lib disk ld rd bd) fun out =>
      ∃ m, MergeOf disk (mergeEdits (lines base) l r) m ∧
        out = { documents := [ld, rd, bd, m.result], result := 3, conflicts := m.conflicts } := by
  refine (compareSession_yields hb hl).bind fun a ha => ?_
  refine (compareSession_yields hb hr).bind fun b hb' => ?_
  refine .past fun _ => ?_
  rw [hel _ ha.changes, her _ hb'.changes, sortedEdits_bare]
  dsimp only
  rw [length_map]
  have hstart : MergeOf disk {} {} := ⟨.empty disk, .nil⟩
  have hin : Inputs disk base left right bd ld rd a b :=
    ⟨hb, hl, hr, ha.left, ha.right, hb'.left, hb'.right⟩
  refine (mergeLargeFrom_yields hin (Nat.lt_succ_self _) (Nat.zero_le _) (sorted_sortedEdits l r)
    (ranges_sortedEdits hsl hsr) (.start hsl (ofSide_true_sortedEdits hsl))
    (.start hsr (ofSide_false_sortedEdits hsr)) hstart).bind fun m hm => ?_
  exact .pure ⟨m, hm, rfl⟩

end Hc.Compare
