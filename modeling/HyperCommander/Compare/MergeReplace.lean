import HyperCommander.Compare.MergeEditor

/-!
# Edits inside a block (`HyperCompare/widgets/mergeController.cpp`, `ReplaceRange(s)`)

A part of a side is copied into a block: the range is checked against the block, and the model
hears of the change as of a typed one.

* `splice_replaceEach`: replacing several ranges at once is replacing the range that they span.
* `localEdit_iff`: the edit stays in its block if and only if `Undisturbed`.
* `replaceRange_local_iff`: the same for every call in every state whose mapped ranges lie in the
  text.
* `Reaches.inText`: they do in every run whose decisions replace no byte of another block.
-/

namespace Hc.Compare

open List Slice MergeModel Outcome

/-! ## The operations -/

/-- What the editor widget answers to a replacement. -/
structure Widget where
  readOnly : Bool := false
  /-- What `BeginEdit` throws. -/
  edit : Option Failure := none
  /-- What `ReserveSnapshot` throws. -/
  snapshot : Option Failure := none
  /-- The text could not be replaced. -/
  failed : Bool := false

/-- `MergeController::RangeReplacement`. -/
structure RangeReplacement where
  begin_ : Nat
  end_ : Nat
  text : Bytes

/-- A refusal that is thrown. -/
def refuse : Option Failure → Except Failure Unit
  | some e => .error e
  | none => .ok ()

/-- `replace` with a change of the text. After a failure of the widget itself the model is
invalidated (`Action.invalidate`). -/
def Editor.replace (w : Widget) (e : Editor) (begin_ end_ : Nat) (text : Bytes)
    (model : MergeModel) : Except Failure Editor := do
  failIf (w.readOnly = true) ⟨"ResultBusy"⟩
  failIf (begin_ > end_ ∨ end_ > e.text.length) ⟨"InvalidMergeLocation"⟩
  failIf (e.text.length - (end_ - begin_) + text.length > resultLimit) ⟨"ResultSizeLimit"⟩
  refuse w.edit
  failIf (w.failed = true) ⟨"ResultEditFailed"⟩
  pure (.remember model (splice e.text begin_ (end_ - begin_) text) e.history)

/-- `ReplaceRange`. -/
def Editor.replaceRange (w : Widget) (next : Nat) (e : Editor) (id revision begin_ end_ : Nat)
    (text : Bytes) : Except Failure Editor := do
  let block ← e.model.prepare id revision .manual
  failIf (begin_ < block.begin_ ∨ end_ > block.end_ ∨ begin_ > end_) ⟨"InvalidMergeLocation"⟩
  e.replace w begin_ end_ text (e.model.textChanged begin_ (end_ - begin_) text.length next)

/-- The loop of `ReplaceRanges` that checks the ranges. -/
def checkRanges (blockEnd length : Nat) : (previous finalLength : Nat) → List RangeReplacement →
    Except Failure Unit
  | _, _, [] => pure ()
  | previous, finalLength, r :: ranges => do
    failIf (r.begin_ < previous ∨ r.begin_ > r.end_ ∨ r.end_ > blockEnd ∨ r.end_ > length)
      ⟨"InvalidMergeLocation"⟩
    let kept := finalLength - (r.end_ - r.begin_)
    failIf (r.text.length > resultLimit ∨ kept > resultLimit - r.text.length) ⟨"ResultSizeLimit"⟩
    checkRanges blockEnd length r.end_ (kept + r.text.length) ranges

/-- The loop that replaces the ranges in a part of the text, from the last one on. -/
def replaceEach (begin_ : Nat) (text : Bytes) (ranges : List RangeReplacement) : Bytes :=
  ranges.foldr (fun r text => splice text (r.begin_ - begin_) (r.end_ - r.begin_) r.text) text

/-- `ReplaceRanges`. -/
def Editor.replaceRanges (w : Widget) (next : Nat) (e : Editor) (id revision : Nat)
    (ranges : List RangeReplacement) : Except Failure Editor := do
  let block ← e.model.prepare id revision .manual
  match ranges.head?, ranges.getLast? with
  | some front, some back => do
    checkRanges block.end_ e.text.length block.begin_ e.text.length ranges
    refuse w.snapshot
    e.replaceRange w next id revision front.begin_ back.end_
      (replaceEach front.begin_ (slice e.text front.begin_ back.end_) ranges)
  | _, _ => pure e

/-! ## Edits that stay in their block -/

/-- The block at `i` is left to a manual decision and covers `content`; no other block changes its
decision, its mapping or what it covers. -/
structure LocalEdit (i : Nat) (content : Bytes) (e e' : Editor) : Prop where
  block : ∃ s s', e.model.state[i]? = some s ∧ e'.model.state[i]? = some s' ∧ s'.mapped = true ∧
    (s'.resolution = .unresolved ∨ s'.resolution = .manual) ∧ s'.begin_ = s.begin_ ∧
    s'.end_ = s.begin_ + content.length ∧ slice e'.text s'.begin_ s'.end_ = content
  others : ∀ j t, j ≠ i → e.model.state[j]? = some t → ∃ t', e'.model.state[j]? = some t' ∧
    t'.resolution = t.resolution ∧ t'.mapped = t.mapped ∧
    (t.mapped = true → slice e'.text t'.begin_ t'.end_ = slice e.text t.begin_ t.end_)

/-- The edit of `[begin_, end_)` leaves the block alone: the block lies to one side of it and does
not begin where it begins, or is undecided and takes it in without a change of its bytes. -/
def Spared (text : Bytes) (begin_ end_ : Nat) (inserted : Bytes) (t : BlockState) : Prop :=
  (t.end_ ≤ begin_ ∨ end_ ≤ t.begin_) ∧ t.begin_ ≠ begin_ ∨
  (t.begin_ ≤ begin_ ∧ end_ ≤ t.end_) ∧ t.resolution = .unresolved ∧
    inserted = slice text begin_ end_

/-- What an edit in the block at `i` must meet to stay there. -/
structure Undisturbed (text : Bytes) (states : List BlockState) (i begin_ end_ : Nat)
    (inserted : Bytes) : Prop where
  /-- Nothing is inserted at the end of a block that is not empty. -/
  atEnd : ∀ s, states[i]? = some s → begin_ = end_ → end_ = s.end_ → s.begin_ < s.end_ →
    inserted = [] ∧ (s.resolution = .unresolved ∨ s.resolution = .manual)
  others : ∀ j t, j ≠ i → states[j]? = some t → t.mapped = true →
    Spared text begin_ end_ inserted t
  /-- Neighbours are in order, but for an empty one in front that a deletion moves back. -/
  ordered : ∀ k t t', states[k]? = some t → states[k + 1]? = some t' → t.mapped = true →
    t'.mapped = true → t.end_ ≤ t'.begin_ ∨
      k + 1 = i ∧ t.begin_ = end_ ∧ t.end_ = end_ ∧ t'.begin_ = begin_ ∧ inserted = []

/-- The mapped ranges lie in the text. -/
def InText (states : List BlockState) (text : Bytes) : Prop :=
  ∀ t ∈ states, t.mapped = true → t.begin_ ≤ t.end_ ∧ t.end_ ≤ text.length

section Local

variable {position removed n : Nat} {s t : BlockState}

theorem changeBlock_inside (hm : s.mapped = true) (hb : s.begin_ ≤ position)
    (he : position + removed ≤ s.end_) (hend : position = s.end_ → s.begin_ = s.end_) :
    changeBlock position removed n s =
      { s with resolution := .unresolved, end_ := s.end_ - removed + n } := by
  unfold changeBlock
  rw [if_neg (by simp [hm]), if_neg (by omega), if_neg (by omega), if_pos ⟨hb, he⟩,
    shift_eq (by omega)]

theorem changeBlock_before (hr : s.begin_ ≤ s.end_) (he : s.end_ ≤ position)
    (hb : s.begin_ ≠ position) : changeBlock position removed n s = s := by
  unfold changeBlock
  split
  · rfl
  · rw [if_neg (by omega), if_pos (by omega)]

theorem changeBlock_behind (hm : s.mapped = true) (hr : s.begin_ ≤ s.end_)
    (he : position + removed ≤ s.begin_) (hb : s.begin_ ≠ position) :
    changeBlock position removed n s =
      { s with begin_ := s.begin_ - removed + n, end_ := s.end_ - removed + n } := by
  unfold changeBlock
  rw [if_neg (by simp [hm]), if_pos ⟨he, by omega⟩, shift_eq (by omega), shift_eq (by omega)]

/-- The second loop only unmaps. -/
theorem unmapFrom_keeps (s : BlockState) (rest : List BlockState) :
    List.Forall₂ (fun u v => v = u ∨ v = { u with mapped := false }) (s :: rest)
      (unmapFrom s rest) := by
  induction rest generalizing s with
  | nil => exact .cons (.inl rfl) .nil
  | cons t rest ih =>
    rw [unmapFrom]
    split
    · have hrest := ih { t with mapped := false }
      refine .cons (.inr rfl) ?_
      rcases hu : unmapFrom { t with mapped := false } rest with - | ⟨u, us⟩
      · rw [hu] at hrest
        cases hrest
      · rw [hu] at hrest
        obtain ⟨hhead, htail⟩ := forall₂_cons.mp hrest
        refine .cons ?_ htail
        rcases hhead with rfl | rfl <;> exact .inr rfl
    · exact .cons (.inl rfl) (ih t)

theorem getElem?_unmapTies {states : List BlockState} {j : Nat} {u v : BlockState}
    (hu : states[j]? = some u) (hv : (unmapTies states)[j]? = some v) :
    v = u ∨ v = { u with mapped := false } := by
  cases states with
  | nil => cases hu
  | cons s rest =>
    obtain ⟨hj, rfl⟩ := List.getElem?_eq_some_iff.mp hu
    obtain ⟨hj', rfl⟩ := List.getElem?_eq_some_iff.mp hv
    exact (unmapFrom_keeps s rest).get hj hj'

theorem length_unmapTies (states : List BlockState) :
    (unmapTies states).length = states.length := by
  cases states with
  | nil => rfl
  | cons s rest => exact (unmapFrom_keeps s rest).length_eq.symm

section Block

variable {states : List BlockState} {text inserted : Bytes} {position removed i : Nat}
  {s t : BlockState}

/-! ### Another block -/

/-- A block that the edit spares stays where it is, or lies behind the edit and moves. -/
theorem Spared.range (h : Spared text position (position + removed) inserted t)
    (hm : t.mapped = true) (hr : t.begin_ ≤ t.end_) (hin : position + removed ≤ text.length) :
    changeBlock position removed inserted.length t = t ∧
      (t.end_ ≤ position ∧ t.begin_ ≠ position ∨ inserted.length = removed ∧
        t.begin_ ≤ position ∧ position + removed ≤ t.end_) ∨
    changeBlock position removed inserted.length t =
        { t with
          begin_ := t.begin_ - removed + inserted.length
          end_ := t.end_ - removed + inserted.length } ∧
      position + removed ≤ t.begin_ ∧ t.begin_ ≠ position := by
  rcases h with ⟨he | he, hne⟩ | ⟨⟨hb, he⟩, hres, hsame⟩
  · exact .inl ⟨changeBlock_before hr he hne, .inl ⟨he, hne⟩⟩
  · exact .inr ⟨changeBlock_behind hm hr he hne, he, hne⟩
  · have hlen : inserted.length = removed := by
      rw [hsame, length_slice hin]
      omega
    refine .inl ⟨?_, .inr ⟨hlen, hb, he⟩⟩
    by_cases hend : position = t.end_ ∧ t.begin_ < t.end_
    · exact changeBlock_before hr (by omega) (by omega)
    · rw [changeBlock_inside hm hb he (by omega), hlen, show t.end_ - removed + removed = t.end_ by
        omega, ← hres]

/-- A mapped block keeps its decision, its mapping and its bytes if and only if the edit spares
it. -/
theorem spared_iff (hin : position + removed ≤ text.length) (hm : t.mapped = true)
    (hr : t.begin_ ≤ t.end_) (hl : t.end_ ≤ text.length) {u : BlockState}
    (hu : changeBlock position removed inserted.length t = u) :
    (u.resolution = t.resolution ∧ u.mapped = true ∧
      slice (splice text position removed inserted) u.begin_ u.end_ = slice text t.begin_ t.end_) ↔
      Spared text position (position + removed) inserted t := by
  constructor
  · rintro ⟨hres, hum, hbytes⟩
    have hf := changeBlock_fate position removed inserted.length hm hr
    rw [hu] at hf
    cases hf with
    | before he hne => exact .inl ⟨.inl he, by omega⟩
    | behind he hne => exact .inl ⟨.inr he, by omega⟩
    | lost _ hlost => rw [hlost] at hum; cases hum
    | grown hb he hne =>
      refine .inr ⟨⟨hb, he⟩, hres.symm, ?_⟩
      -- The inserted bytes stand where the removed ones stood.
      dsimp only at hbytes
      have hlen := congrArg length hbytes
      rw [length_slice (by rw [length_splice hin]; omega), length_slice hl] at hlen
      have hn : inserted.length = removed := by omega
      have hcut := congrArg (slice · (position - t.begin_) (position + removed - t.begin_)) hbytes
      rw [slice_slice (by omega), slice_slice (by omega),
        show t.begin_ + (position - t.begin_) = position by omega,
        show t.begin_ + (position + removed - t.begin_) = position + removed by omega] at hcut
      rw [← hcut, ← hn, slice_splice_self (by omega)]
  · intro h
    rcases h.range hm hr hin with ⟨heq, hside | ⟨hn, hb, he⟩⟩ | ⟨heq, he, hne⟩
    · rw [← hu, heq]
      exact ⟨rfl, hm, slice_splice_before hside.1 (by omega)⟩
    · rw [← hu, heq]
      refine ⟨rfl, hm, ?_⟩
      rcases h with ⟨he' | he', hne⟩ | ⟨-, -, hsame⟩
      · exact slice_splice_before he' (by omega)
      · omega
      · have hsplice := splice_slice (l := text) (Nat.le_add_right position removed)
        rw [Nat.add_sub_cancel_left, ← hsame] at hsplice
        rw [hsplice]
    · rw [← hu, heq]
      exact ⟨rfl, hm, slice_splice_after he (by omega)⟩

/-! ### The edited block -/

/-- The range of the edited block grows or shrinks at its end. -/
theorem changeBlock_edited (hm : s.mapped = true) (hr : s.begin_ ≤ s.end_)
    (hb : s.begin_ ≤ position) (he : position + removed ≤ s.end_)
    (hend : position = s.end_ → s.begin_ < s.end_ → inserted = []) :
    (changeBlock position removed inserted.length s).mapped = true ∧
      (changeBlock position removed inserted.length s).begin_ = s.begin_ ∧
      (changeBlock position removed inserted.length s).end_ =
        s.end_ - removed + inserted.length := by
  by_cases h : position = s.end_ ∧ s.begin_ < s.end_
  · rw [changeBlock_before hr (by omega) (by omega), hend h.1 h.2]
    exact ⟨hm, rfl, by rw [length_nil]; omega⟩
  · rw [changeBlock_inside hm hb he (by omega)]
    exact ⟨hm, rfl, rfl⟩

/-- Whether neighbours that are spared or edited are in order afterwards, in terms of their ranges
before. -/
theorem apart_change_iff (hin : InText states text) (hs : states[i]? = some s)
    (hm : s.mapped = true) (hb : s.begin_ ≤ position) (he : position + removed ≤ s.end_)
    (hend : position = s.end_ → s.begin_ < s.end_ → inserted = [])
    (hother : ∀ j t, j ≠ i → states[j]? = some t → t.mapped = true →
      Spared text position (position + removed) inserted t)
    {k : Nat} {t t' : BlockState} (ht : states[k]? = some t) (ht' : states[k + 1]? = some t')
    (htm : t.mapped = true) (htm' : t'.mapped = true) :
    (changeBlock position removed inserted.length t).end_ ≤
        (changeBlock position removed inserted.length t').begin_ ↔
      t.end_ ≤ t'.begin_ ∨ k + 1 = i ∧ t.begin_ = position + removed ∧
        t.end_ = position + removed ∧ t'.begin_ = position ∧ inserted = [] := by
  have hrange := fun {j : Nat} {u : BlockState} (hu : states[j]? = some u) =>
    hin u (mem_of_getElem? hu)
  obtain ⟨hr, hl⟩ := hrange hs hm
  obtain ⟨hrt, hlt⟩ := hrange ht htm
  obtain ⟨hrt', hlt'⟩ := hrange ht' htm'
  rw [← List.length_eq_zero_iff (l := inserted)]
  obtain ⟨-, hsb, hse⟩ := changeBlock_edited hm hr hb he hend
  rcases Nat.decEq k i with hk | rfl
  · have hspared := (hother k t hk ht htm).range htm hrt (by omega)
    rcases Nat.decEq (k + 1) i with hk' | rfl
    · -- Two other blocks.
      have hspared' := (hother (k + 1) t' hk' ht' htm').range htm' hrt' (by omega)
      rw [or_iff_left fun h => hk' h.1]
      rcases hspared with ⟨hu, h1⟩ | ⟨hu, h1⟩ <;> rcases hspared' with ⟨hu', h2⟩ | ⟨hu', h2⟩ <;>
        simp only [hu, hu'] <;> omega
    · -- The block in front of the edited one.
      cases hs.symm.trans ht'
      rw [hsb, and_iff_right rfl]
      rcases hspared with ⟨hu, h1⟩ | ⟨hu, h1⟩ <;> simp only [hu] <;> omega
  · -- The block behind the edited one.
    cases hs.symm.trans ht
    have hspared' := (hother (k + 1) t' (Nat.succ_ne_self k) ht' htm').range htm' hrt' (by omega)
    rw [hse, or_iff_left fun h => Nat.succ_ne_self k h.1]
    rcases hspared' with ⟨hu', h2⟩ | ⟨hu', h2⟩ <;> simp only [hu'] <;> omega

/-! ### The whole edit -/

/-- `e'` follows from `e` by an edit in the mapped block `s` at `i`. -/
structure EditOf (i : Nat) (s : BlockState) (position removed : Nat) (inserted : Bytes)
    (e e' : Editor) : Prop where
  block : e.model.state[i]? = some s
  mapped : s.mapped = true
  front : s.begin_ ≤ position
  back : position + removed ≤ s.end_
  state : e'.model.state =
    unmapTies (e.model.state.map (changeBlock position removed inserted.length))
  text : e'.text = splice e.text position removed inserted

variable {e e' : Editor} {content : Bytes}

theorem getElem?_changed
    (h : e'.model.state = e.model.state.map (changeBlock position removed inserted.length))
    {j : Nat} (ht : e.model.state[j]? = some t) :
    e'.model.state[j]? = some (changeBlock position removed inserted.length t) := by
  rw [h, getElem?_map, ht]
  rfl

/-- An edit that stays in its block maps and unmaps nothing. -/
theorem LocalEdit.mapped_eq (h : LocalEdit i content e e') (hs : e.model.state[i]? = some s)
    (hm : s.mapped = true) {j : Nat} {t' : BlockState} (ht : e.model.state[j]? = some t)
    (ht' : e'.model.state[j]? = some t') : t'.mapped = t.mapped := by
  rcases Nat.decEq j i with hji | rfl
  · obtain ⟨t₂, ht₂, -, hmap, -⟩ := h.others j t hji ht
    cases ht'.symm.trans ht₂
    exact hmap
  · obtain ⟨s₁, s', hs₁, hs', hsm, -⟩ := h.block
    cases ht'.symm.trans hs'
    cases ht.symm.trans hs
    rw [hsm, hm]

/-- The second loop unmaps nothing when the edit stays in its block. -/
theorem LocalEdit.unmapTies_eq (h : LocalEdit i content e e')
    (he : EditOf i s position removed inserted e e') :
    e'.model.state = e.model.state.map (changeBlock position removed inserted.length) := by
  have hlen : e'.model.state.length =
      (e.model.state.map (changeBlock position removed inserted.length)).length := by
    rw [he.state, length_unmapTies]
  refine ext_getElem hlen fun j hj hj' => ?_
  have hu := getElem?_eq_getElem hj'
  have hv := getElem?_eq_getElem hj
  rcases getElem?_unmapTies hu (by rw [← he.state]; exact hv) with heq | heq
  · exact heq
  · -- A block that is unmapped here was not mapped before, and the first loop skips it.
    rw [length_map] at hj'
    have ht := getElem?_eq_getElem hj'
    have htm := h.mapped_eq he.block he.mapped ht hv
    rw [heq, getElem_map]
    rw [heq] at htm
    rw [changeBlock_of_unmapped htm.symm]
    generalize e.model.state[j] = t at htm
    obtain ⟨b, en, r, m⟩ := t
    cases htm
    rfl

theorem localEdit_of_undisturbed (hin : InText e.model.state e.text)
    (hedit : EditOf i s position removed inserted e e')
    (hu : Undisturbed e.text e.model.state i position (position + removed) inserted) :
    LocalEdit i (splice (slice e.text s.begin_ s.end_) (position - s.begin_) removed inserted)
      e e' := by
  obtain ⟨hs, hm, hb, he, hstate, htext⟩ := hedit
  obtain ⟨hr, hl⟩ := hin s (mem_of_getElem? hs) hm
  have hend : position = s.end_ → s.begin_ < s.end_ → inserted = [] := fun h1 h2 =>
    (hu.atEnd s hs (by omega) (by omega) h2).1
  have hchain : (e.model.state.map (changeBlock position removed inserted.length)).IsChain
      Apart := by
    refine isChain_iff_getElem.mpr fun k hk => ?_
    rw [length_map] at hk
    rw [getElem_map, getElem_map]
    intro hum hum'
    have htm := mapped_of_changeBlock hum
    have htm' := mapped_of_changeBlock hum'
    have ht := getElem?_eq_getElem (Nat.lt_of_succ_lt hk)
    have ht' := getElem?_eq_getElem hk
    exact (apart_change_iff hin hs hm hb he hend hu.others ht ht' htm htm').mpr
      (hu.ordered k _ _ ht ht' htm htm')
  rw [unmapTies_eq_iff.mpr hchain] at hstate
  refine ⟨⟨s, _, hs, getElem?_changed hstate hs, ?_⟩,
    fun j t hne ht => ⟨_, getElem?_changed hstate ht, ?_⟩⟩
  · obtain ⟨hum, hub, hue⟩ := changeBlock_edited hm hr hb he hend
    rw [hub, hue, htext, slice_splice_around hb he hl, length_splice (by
      rw [length_slice hl]; omega), length_slice hl]
    refine ⟨hum, ?_, rfl, by omega, rfl⟩
    by_cases hatEnd : position = s.end_ ∧ s.begin_ < s.end_
    · rw [changeBlock_before hr (by omega) (by omega)]
      exact (hu.atEnd s hs (by omega) (by omega) hatEnd.2).2
    · rw [changeBlock_inside hm hb he (by omega)]
      exact .inl rfl
  · rcases htm : t.mapped with _ | _
    · rw [changeBlock_of_unmapped htm]
      exact ⟨rfl, htm, fun hf => absurd hf Bool.false_ne_true⟩
    obtain ⟨hrt, hlt⟩ := hin t (mem_of_getElem? ht) htm
    obtain ⟨hres, hmap, hbytes⟩ :=
      (spared_iff (by omega) htm hrt hlt rfl).mpr (hu.others j t hne ht htm)
    rw [htext]
    exact ⟨hres, hmap, fun _ => hbytes⟩

theorem undisturbed_of_localEdit (hin : InText e.model.state e.text)
    (hedit : EditOf i s position removed inserted e e')
    (hlocal : LocalEdit i
      (splice (slice e.text s.begin_ s.end_) (position - s.begin_) removed inserted) e e') :
    Undisturbed e.text e.model.state i position (position + removed) inserted := by
  have heq := hlocal.unmapTies_eq hedit
  obtain ⟨hs, hm, hb, he, hstate, htext⟩ := hedit
  obtain ⟨hr, hl⟩ := hin s (mem_of_getElem? hs) hm
  have hothers : ∀ j t, j ≠ i → e.model.state[j]? = some t → t.mapped = true →
      Spared e.text position (position + removed) inserted t := by
    intro j t hne ht htm
    obtain ⟨hrt, hlt⟩ := hin t (mem_of_getElem? ht) htm
    obtain ⟨t', ht', hres, hmap, hbytes⟩ := hlocal.others j t hne ht
    have hbytes := hbytes htm
    rw [htext] at hbytes
    refine (spared_iff (by omega) htm hrt hlt ?_).mp ⟨hres, hmap.trans htm, hbytes⟩
    exact Option.some.inj ((getElem?_changed heq ht).symm.trans ht')
  have hatEnd : position = s.end_ → s.begin_ < s.end_ →
      inserted = [] ∧ (s.resolution = .unresolved ∨ s.resolution = .manual) := by
    intro hpos hlt
    obtain ⟨s₂, s', hs₂, hs', -, hres, -, hend', -⟩ := hlocal.block
    cases hs.symm.trans hs₂
    cases (getElem?_changed heq hs).symm.trans hs'
    rw [changeBlock_before hr (by omega) (by omega)] at hres hend'
    rw [length_splice (by rw [length_slice hl]; omega), length_slice hl] at hend'
    exact ⟨length_eq_zero_iff.mp (by omega), hres⟩
  refine ⟨fun s₁ hs₁ hpos hend hlt => ?_, hothers, fun k t t' ht ht' htm htm' => ?_⟩
  · cases hs.symm.trans hs₁
    exact hatEnd (by omega) hlt
  · have hkeeps : unmapTies (e.model.state.map (changeBlock position removed inserted.length)) =
        e.model.state.map (changeBlock position removed inserted.length) := by rw [← hstate, heq]
    have hchain := isChain_iff_getElem.mp (unmapTies_eq_iff.mp hkeeps)
    refine (apart_change_iff hin hs hm hb he (fun h1 h2 => (hatEnd h1 h2).1) hothers ht ht' htm
      htm').mp ?_
    obtain ⟨hk, rfl⟩ := List.getElem?_eq_some_iff.mp ht
    obtain ⟨hk', rfl⟩ := List.getElem?_eq_some_iff.mp ht'
    have hapart := hchain k (by rwa [length_map])
    rw [getElem_map, getElem_map] at hapart
    exact hapart ((hlocal.mapped_eq hs hm ht (getElem?_changed heq ht)).trans htm)
      ((hlocal.mapped_eq hs hm ht' (getElem?_changed heq ht')).trans htm')

/-- An edit inside a block stays in it if and only if nothing competes for its bytes. -/
theorem localEdit_iff (hin : InText e.model.state e.text)
    (hedit : EditOf i s position removed inserted e e') :
    LocalEdit i (splice (slice e.text s.begin_ s.end_) (position - s.begin_) removed inserted)
        e e' ↔
      Undisturbed e.text e.model.state i position (position + removed) inserted :=
  ⟨undisturbed_of_localEdit hin hedit, localEdit_of_undisturbed hin hedit⟩

end Block

end Local

/-! ## Several ranges -/

section Ranges

/-- The ranges follow each other, from `previous` up to `last`. -/
def Ordered (last : Nat) : (previous : Nat) → List RangeReplacement → Prop
  | previous, [] => previous ≤ last
  | previous, r :: ranges => previous ≤ r.begin_ ∧ r.begin_ ≤ r.end_ ∧ Ordered last r.end_ ranges

variable {last previous origin : Nat} {text : Bytes} {ranges : List RangeReplacement}

theorem Ordered.le (h : Ordered last previous ranges) : previous ≤ last := by
  induction ranges generalizing previous with
  | nil => exact h
  | cons r ranges ih => exact h.1.trans (h.2.1.trans (ih h.2.2))

theorem checkRanges_ok {blockEnd length finalLength : Nat}
    (h : checkRanges blockEnd length previous finalLength ranges = .ok ())
    (hp : previous ≤ blockEnd) :
    Ordered blockEnd previous ranges := by
  induction ranges generalizing previous finalLength with
  | nil => exact hp
  | cons r ranges ih =>
    simp only [checkRanges, bind_eq_ok, failIf_eq_ok] at h
    obtain ⟨-, h1, -, -, h2⟩ := h
    exact ⟨by omega, by omega, ih h2 (by omega)⟩

/-- What lies in front of the ranges stays. -/
theorem le_length_replaceEach (h : Ordered last previous ranges)
    (hl : previous - origin ≤ text.length) (hlast : last - origin ≤ text.length) :
    previous - origin ≤ (replaceEach origin text ranges).length := by
  induction ranges generalizing previous with
  | nil => exact hl
  | cons r ranges ih =>
    have hle := h.2.2.le
    have := ih h.2.2 (by omega)
    show _ ≤ (splice (replaceEach origin text ranges) _ _ _).length
    have h1 := h.1
    have h2 := h.2.1
    simp only [splice, length_append, length_take, length_drop]
    omega

/-- Replacing the ranges in a window, and the window by the result, is replacing the ranges. -/
theorem splice_replaceEach {a b : Nat} (hab : a ≤ b) (hb : b ≤ text.length)
    (ho : origin + a ≤ previous) (h : Ordered (origin + b) previous ranges) :
    splice text a (b - a) (replaceEach (origin + a) (slice text a b) ranges) =
      replaceEach origin text ranges := by
  induction ranges generalizing previous with
  | nil =>
    exact splice_slice hab
  | cons r ranges ih =>
    have h1 := h.1
    have h2 := h.2.1
    have hle := h.2.2.le
    have hlen : r.end_ - (origin + a) ≤ (replaceEach (origin + a) (slice text a b) ranges).length :=
      le_length_replaceEach h.2.2 (by rw [length_slice hb]; omega) (by rw [length_slice hb]; omega)
    show splice text a (b - a) (splice (replaceEach (origin + a) (slice text a b) ranges)
      (r.begin_ - (origin + a)) (r.end_ - r.begin_) r.text) =
      splice (replaceEach origin text ranges) (r.begin_ - origin) (r.end_ - r.begin_) r.text
    rw [splice_splice (by omega) (by omega), ih (by omega) h.2.2]
    congr 1
    omega

theorem Ordered.front_back (h : Ordered last previous ranges) {front back : RangeReplacement}
    (hf : ranges.head? = some front) (hk : ranges.getLast? = some back) :
    previous ≤ front.begin_ ∧ back.end_ ≤ last ∧ Ordered back.end_ front.begin_ ranges := by
  induction ranges generalizing previous front with
  | nil => cases hf
  | cons r ranges ih =>
    cases hf
    obtain ⟨h1, h2, h3⟩ := h
    rcases ranges with - | ⟨q, ranges⟩
    · cases hk
      exact ⟨h1, h3, Nat.le_refl _, h2, Nat.le_refl _⟩
    · rw [getLast?_cons_cons] at hk
      obtain ⟨hq, hlast, hrest⟩ := ih h3 rfl hk
      exact ⟨h1, hlast, Nat.le_refl _, h2, hq, hrest.2⟩

end Ranges

/-! ## Calls -/

variable {e e' : Editor} {w : Widget} {next id revision begin_ end_ : Nat} {text : Bytes}

/-- A successful call: the block is mapped and holds the range. -/
theorem replaceRange_ok (h : e.replaceRange w next id revision begin_ end_ text = .ok e') :
    begin_ ≤ end_ ∧ ∃ s, EditOf (id - 1) s begin_ (end_ - begin_) text e e' := by
  simp only [Editor.replaceRange, Editor.replace, bind_eq_ok, failIf_eq_ok, pure_eq_ok] at h
  obtain ⟨block, hblock, -, hin, -, -, -, -, -, -, -, -, -, -, rfl⟩ := h
  obtain ⟨s, b, hs, -, hm, -, -, -, -, hbegin, hend, -⟩ := prepare_ok hblock
  exact ⟨by omega, s, hs, hm, by omega, by omega, rfl, rfl⟩

theorem replaceRange_local (h : InText e.model.state e.text)
    (hr : e.replaceRange w next id revision begin_ end_ text = .ok e') {s : BlockState}
    (hs : e.model.state[id - 1]? = some s) :
    LocalEdit (id - 1)
        (splice (slice e.text s.begin_ s.end_) (begin_ - s.begin_) (end_ - begin_) text) e e' ↔
      Undisturbed e.text e.model.state (id - 1) begin_ end_ text := by
  obtain ⟨hbe, s₁, hedit⟩ := replaceRange_ok hr
  cases hs.symm.trans hedit.block
  have hiff := localEdit_iff h hedit
  rwa [show begin_ + (end_ - begin_) = end_ by omega] at hiff

theorem replaceRanges_local (h : InText e.model.state e.text) {ranges : List RangeReplacement}
    {front back : RangeReplacement} (hf : ranges.head? = some front)
    (hk : ranges.getLast? = some back) (hr : e.replaceRanges w next id revision ranges = .ok e')
    {s : BlockState} (hs : e.model.state[id - 1]? = some s) :
    LocalEdit (id - 1) (replaceEach s.begin_ (slice e.text s.begin_ s.end_) ranges) e e' ↔
      Undisturbed e.text e.model.state (id - 1) front.begin_ back.end_
        (replaceEach front.begin_ (slice e.text front.begin_ back.end_) ranges) := by
  unfold Editor.replaceRanges at hr
  rw [hf, hk] at hr
  simp only [bind_eq_ok] at hr
  obtain ⟨block, hblock, ⟨⟩, hcheck, ⟨⟩, -, hr⟩ := hr
  obtain ⟨hbe, s₁, hs₁, hm, hb, he, -⟩ := replaceRange_ok hr
  cases hs.symm.trans hs₁
  obtain ⟨s₂, -, hs₂, -, -, -, -, -, -, hbegin, hend, -⟩ := prepare_ok hblock
  cases hs.symm.trans hs₂
  obtain ⟨hle, hl⟩ := h s (mem_of_getElem? hs) hm
  rw [hbegin, hend] at hcheck
  obtain ⟨-, -, hord⟩ := (checkRanges_ok hcheck hle).front_back hf hk
  have hslice : slice e.text front.begin_ back.end_ =
      slice (slice e.text s.begin_ s.end_) (front.begin_ - s.begin_) (back.end_ - s.begin_) := by
    rw [slice_slice (by omega), show s.begin_ + (front.begin_ - s.begin_) = front.begin_ by omega,
      show s.begin_ + (back.end_ - s.begin_) = back.end_ by omega]
  have hcontent : splice (slice e.text s.begin_ s.end_) (front.begin_ - s.begin_)
      (back.end_ - front.begin_)
      (replaceEach front.begin_ (slice e.text front.begin_ back.end_) ranges) =
      replaceEach s.begin_ (slice e.text s.begin_ s.end_) ranges := by
    have hord : Ordered (s.begin_ + (back.end_ - s.begin_)) front.begin_ ranges := by
      rwa [show s.begin_ + (back.end_ - s.begin_) = back.end_ by omega]
    have hlen : back.end_ - s.begin_ ≤ (slice e.text s.begin_ s.end_).length := by
      rw [length_slice hl]
      omega
    have hall := splice_replaceEach (a := front.begin_ - s.begin_) (by omega) hlen (by omega) hord
    rw [← hall, hslice, show s.begin_ + (front.begin_ - s.begin_) = front.begin_ by omega,
      show back.end_ - s.begin_ - (front.begin_ - s.begin_) = back.end_ - front.begin_ by omega]
  have hiff := replaceRange_local h hr hs
  rwa [hcontent] at hiff

/-- In every state whose mapped ranges lie in the text, a call that succeeds leaves its block to a
manual decision and covers the old text with the replacement in it, and changes no other block, if
and only if it is undisturbed. -/
theorem replaceRange_local_iff (e : Editor) (h : InText e.model.state e.text) :
    (∀ w next id revision begin_ end_ text e' s,
      e.replaceRange w next id revision begin_ end_ text = .ok e' →
      e.model.state[id - 1]? = some s →
      (LocalEdit (id - 1)
          (splice (slice e.text s.begin_ s.end_) (begin_ - s.begin_) (end_ - begin_) text) e e' ↔
        Undisturbed e.text e.model.state (id - 1) begin_ end_ text)) ∧
    ∀ w next id revision ranges front back e' s,
      e.replaceRanges w next id revision ranges = .ok e' →
      ranges.head? = some front → ranges.getLast? = some back →
      e.model.state[id - 1]? = some s →
      (LocalEdit (id - 1) (replaceEach s.begin_ (slice e.text s.begin_ s.end_) ranges) e e' ↔
        Undisturbed e.text e.model.state (id - 1) front.begin_ back.end_
          (replaceEach front.begin_ (slice e.text front.begin_ back.end_) ranges)) := by
  refine ⟨?_, ?_⟩
  · intro w next id revision begin_ end_ text e' s hr hs
    exact replaceRange_local h hr hs
  · intro w next id revision ranges front back e' s hr hf hk hs
    exact replaceRanges_local h hf hk hr hs

/-- The first character of the first block is replaced. -/
theorem replaceRange_local_iff_first :
    ∃ e', (Editor.start tiePlan 1 tieLeft).replaceRange {} 2 1 1 2 3 [113] = .ok e' ∧
      LocalEdit 0 [113, 10] (.start tiePlan 1 tieLeft) e' := by
  refine ⟨_, rfl, ?_⟩
  have hin : InText (Editor.start tiePlan 1 tieLeft).model.state tieLeft := by
    intro t ht _
    have hall : tiePlan.initial.all fun t => t.begin_ ≤ t.end_ && t.end_ ≤ tieLeft.length := rfl
    simpa using all_eq_true.mp hall t ht
  refine ((replaceRange_local_iff _ hin).1 {} 2 1 1 2 3 [113] _ _ rfl rfl).mpr
    ⟨fun s hs hb => absurd hb (by decide), fun j t hj ht htm => ?_, fun k t t' ht ht' _ _ => ?_⟩
  · rcases j with - | - | - | j <;> cases ht
    · exact absurd rfl hj
    · exact .inl ⟨.inr (by decide), by decide⟩
    · exact .inl ⟨.inr (by decide), by decide⟩
  · rcases k with - | - | - | k <;> cases ht <;> cases ht'
    · exact .inl (by decide)
    · exact .inl (by decide)

/-- A line is added at the end of the first block. It lies behind the block, which is not marked. -/
theorem end_of_block :
    ∃ e', (Editor.start tiePlan 1 tieLeft).replaceRange {} 2 1 1 4 4 [113, 10] = .ok e' ∧
      e'.text = [97, 10, 49, 10, 113, 10, 98, 10, 50, 10, 99, 10, 51, 10, 100, 10] ∧
      e'.model.state[0]? = some ⟨2, 4, .unresolved, true⟩ ∧
      ¬ LocalEdit 0 [49, 10, 113, 10] (.start tiePlan 1 tieLeft) e' := by
  refine ⟨_, rfl, rfl, rfl, fun h => ?_⟩
  obtain ⟨s, s', hs, hs', -, -, -, hend, -⟩ := h.block
  cases hs
  cases hs'
  exact absurd hend (by decide)

/-! ## The ranges in a run -/

/-- A decision that changes the text replaces no byte of another mapped block. -/
def DecidesApart (e : Editor) : Action → Prop
  | .choose id _ choice => choice ≠ .manual → ∀ s, e.model.state[id - 1]? = some s →
    ∀ j t, e.model.state[j]? = some t → t.mapped = true →
      (j < id - 1 → t.end_ ≤ s.begin_) ∧ (id - 1 < j → s.end_ ≤ t.begin_)
  | _ => True

section InText

variable {states : List BlockState} {inserted : Bytes} {position removed : Nat}

theorem InText.change (h : InText states text) (inserted : Bytes)
    (hin : position + removed ≤ text.length) :
    InText (unmapTies (states.map (changeBlock position removed inserted.length)))
      (splice text position removed inserted) := by
  intro v hv hvm
  obtain ⟨j, hj, rfl⟩ := mem_iff_getElem.mp hv
  have hj' : j < states.length := by rwa [length_unmapTies, length_map] at hj
  have hu : (states.map (changeBlock position removed inserted.length))[j]? =
      some (changeBlock position removed inserted.length states[j]) := by
    rw [getElem?_map, getElem?_eq_getElem hj']
    rfl
  have hlen := length_splice (s := inserted) hin
  rcases getElem?_unmapTies hu (getElem?_eq_getElem hj) with heq | heq
  · rw [heq] at hvm ⊢
    have hm := mapped_of_changeBlock hvm
    obtain ⟨hr, hl⟩ := h _ (getElem_mem hj') hm
    have hf := changeBlock_fate position removed inserted.length hm hr
    generalize changeBlock position removed inserted.length states[j] = u at hf hvm
    cases hf with
    | before he hne => exact ⟨hr, by omega⟩
    | behind he hne => exact ⟨by dsimp only; omega, by dsimp only; omega⟩
    | grown hb he hne => exact ⟨by dsimp only; omega, by dsimp only; omega⟩
    | lost _ hlost => rw [hlost] at hvm; cases hvm
  · rw [heq] at hvm
    cases hvm

theorem InText.choose (h : InText states text) (edit : BlockEdit) {i : Nat} {s : BlockState}
    (hs : states[i]? = some s) (hm : s.mapped = true)
    (hapart : edit.resolution ≠ .manual → ∀ j t, states[j]? = some t → t.mapped = true →
      (j < i → t.end_ ≤ s.begin_) ∧ (i < j → s.end_ ≤ t.begin_)) :
    InText (applyAt states i edit) (if edit.resolution = .manual then text
      else splice text s.begin_ (s.end_ - s.begin_) edit.replacement) := by
  obtain ⟨hr, hl⟩ := h s (mem_of_getElem? hs) hm
  unfold applyAt
  rw [hs]
  dsimp only
  split
  · intro t ht htm
    rcases mem_or_eq_of_mem_set ht with ht | rfl
    · exact h t ht htm
    · exact ⟨hr, hl⟩
  · rename_i hman
    have hlen := length_splice (l := text) (a := s.begin_) (d := s.end_ - s.begin_)
      (s := edit.replacement) (by omega)
    intro t ht htm
    rcases mem_append.mp ht with ht | ht
    · -- A block in front keeps its range.
      obtain ⟨j, hj, rfl⟩ := mem_iff_getElem.mp ht
      rw [length_take] at hj
      rw [getElem_take] at htm ⊢
      have hget := getElem?_eq_getElem (show j < states.length by omega)
      have hbefore := (hapart hman j _ hget htm).1 (by omega)
      have hrange := h _ (mem_of_getElem? hget) htm
      omega
    rcases mem_cons.mp ht with rfl | ht
    · exact ⟨by dsimp only; omega, by dsimp only; omega⟩
    · -- A block behind moves with the text.
      obtain ⟨u, hu, rfl⟩ := mem_map.mp ht
      obtain ⟨j, hj, rfl⟩ := mem_iff_getElem.mp hu
      rw [length_drop] at hj
      have hget := getElem?_eq_getElem (show i + 1 + j < states.length by omega)
      rw [getElem_drop] at htm ⊢
      unfold shiftBlock at htm ⊢
      split at htm
      · rename_i hum
        have hbehind := (hapart hman _ _ hget hum).2 (by omega)
        have hrange := h _ (mem_of_getElem? hget) hum
        rw [if_pos hum, shift_eq (by omega), shift_eq (by omega)]
        exact ⟨by dsimp only; omega, by dsimp only; omega⟩
      · rename_i hum
        exact absurd htm hum

theorem InText.selectAll {left right : Bytes} {plan : MergePlan} (h : InText states text)
    (hplan : PlanFor anywhere left right plan) {choice : Resolution}
    (hc : ¬ (choice ≠ .left ∧ choice ≠ .right ∧ choice ≠ .manual)) :
    InText (List.zipWith (selectBlock choice) states plan.blocks)
      (if choice = .manual then text else if choice = .left then left else right) := by
  intro t ht htm
  obtain ⟨j, hj, rfl⟩ := mem_iff_getElem.mp ht
  rw [getElem_zipWith] at htm ⊢
  rw [length_zipWith] at hj
  have hblock : plan.blocks[j] ∈ plan.blocks := getElem_mem _
  have hcases : choice = .left ∨ choice = .right ∨ choice = .manual := by tauto
  rcases hcases with rfl | rfl | rfl
  · exact ⟨Nat.le_add_right _ _, hplan.ofLeft.inside _ hblock⟩
  · exact ⟨Nat.le_add_right _ _, hplan.ofRight.inside _ hblock⟩
  · exact h states[j] (getElem_mem _) htm

end InText

/-- The ranges leave the text only through a decision on a block that overlaps another one: in
every run without such decisions, tie-safe or not, all mapped ranges lie in the text. -/
theorem Reaches.inText {left right seed : Bytes} {base : Option Bytes} {plan : MergePlan}
    (h : Seeded left right base plan seed) (start : Nat) {e : Editor}
    (hrun : Reaches left right DecidesApart (.start plan start seed) e) :
    InText e.model.state e.text := by
  obtain ⟨hplan, hgood⟩ := h.good admits_anywhere fun _ _ _ _ => trivial
  suffices hall : e.model.plan = plan ∧ InText e.model.state e.text ∧
      ∀ x ∈ e.history, InText x.state x.text from hall.2.1
  have hstart : InText plan.initial seed := fun t ht => hgood.range ht
  induction hrun with
  | start =>
    refine ⟨rfl, hstart, fun x hx => ?_⟩
    cases mem_singleton.mp hx
    exact hstart
  | @act e e' action next hrun hp ha ih =>
    obtain ⟨rfl, hcur, hearlier⟩ := ih
    have hremember : ∀ model text, InText model.state text → ∀ x ∈
        (Editor.remember model text e.history).history, InText x.state x.text := by
      intro model text hin x hx
      rcases mem_cons.mp hx with rfl | hx
      · exact hin
      · exact hearlier x hx
    cases action with
    | choose id revision choice =>
      simp only [Editor.act, MergeModel.apply, bind_eq_ok, failIf_eq_ok, pure_eq_ok] at ha
      obtain ⟨edit, hedit, model, ⟨verified, -, -, -, rfl⟩, rfl⟩ := ha
      obtain ⟨s, b, hs, -, hm, -, -, -, hid, hbegin, hend, rfl⟩ := prepare_ok hedit
      have hin := hcur.choose edit hs hm fun hman => hp hman s hs
      rw [← hid, ← hbegin, ← hend] at hin
      exact ⟨rfl, hin, hremember _ _ hin⟩
    | change position removed inserted =>
      simp only [Editor.act, bind_eq_ok, failIf_eq_ok, pure_eq_ok] at ha
      obtain ⟨-, hle, rfl⟩ := ha
      have hin := hcur.change inserted (Nat.not_lt.mp hle)
      exact ⟨rfl, hin, hremember _ _ hin⟩
    | chooseAll choice =>
      simp only [Editor.act, MergeModel.selectAll, bind_eq_ok, failIf_eq_ok, pure_eq_ok] at ha
      obtain ⟨model, ⟨-, hc, rfl⟩, rfl⟩ := ha
      have hin := hcur.selectAll hplan hc
      exact ⟨rfl, hin, hremember _ _ hin⟩
    | restore entry =>
      rcases hx : e.history[entry]? with _ | x
      · simp [Editor.act, hx] at ha
      · simp only [Editor.act, hx, MergeModel.restore, bind_eq_ok, failIf_eq_ok, pure_eq_ok] at ha
        obtain ⟨model, ⟨-, -, rfl⟩, rfl⟩ := ha
        have hin := hearlier x (mem_of_getElem? hx)
        exact ⟨rfl, hin, hremember _ _ hin⟩
    | invalidate text =>
      simp only [Editor.act, pure_eq_ok] at ha
      subst ha
      have hin : InText (e.model.invalidate next).state text := by
        intro t ht htm
        obtain ⟨u, -, rfl⟩ := mem_map.mp ht
        cases htm
      exact ⟨rfl, hin, hremember _ _ hin⟩

end Hc.Compare
