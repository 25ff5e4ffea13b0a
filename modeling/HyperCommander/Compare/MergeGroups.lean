import HyperCommander.Compare.DiffAgree
import HyperCommander.Compare.MergeLemmas

/-!
# `Merge` without its budget

What `Merge` returns is a function of the base lines and of the edits of the two sides:

* `groupsFrom` cuts the sorted edits into groups, `mergeEdits` adds a region for each of them.
* `merge_returns`: a merge that returns gives `mergeEdits` of what `Diff` finds for the sides.
* `mirror_groupsFrom`: with the sides exchanged, the groups are the same with their sides exchanged.
-/

namespace Hc.Compare

open List Slice

/-- A group of edits that overlap, directly or through others, and the base lines it spans. -/
structure EditGroup where
  begin_ : Nat
  end_ : Nat
  edits : List Tagged

/-- The groups of the sorted edits; every one takes at least one of them. -/
def groupsFrom : (fuel : Nat) → List Tagged → List EditGroup
  | 0, _ => []
  | _ + 1, [] => []
  | fuel + 1, t :: ts =>
    let more := takeGroup t.edit.begin_ t.edit.end_ ts
    ⟨t.edit.begin_, more.2.1, t :: more.1⟩ :: groupsFrom fuel more.2.2

/-- The regions of the groups one after another, and the base lines behind the last one. -/
def mergeGroups (base : List Line) (l r : List Edit) :
    List EditGroup → (cursor : Nat) → MergeResult → MergeResult
  | [], cursor, result => { result with text := result.text ++ append base cursor base.length }
  | g :: gs, cursor, result =>
    mergeGroups base l r gs g.end_ (addRegion base l r cursor g.begin_ g.end_ g.edits result)

/-- The groups of the edits of both sides. -/
def groupsOf (l r : List Edit) : List EditGroup :=
  groupsFrom ((sortedEdits l r).length + 1) (sortedEdits l r)

/-- The merge of the edits of both sides. -/
def mergeEdits (base : List Line) (l r : List Edit) : MergeResult :=
  mergeGroups base l r (groupsOf l r) 0 {}

theorem mergeFrom_eq {limits : Budget} {base : List Line} {l r : List Edit} {fuel c : Nat}
    {ts : List Tagged} {result : MergeResult} (hf : ts.length < fuel) (hs : Sorted ts)
    (hr : Ranges base c ts) : Yields (fun _ => True) (mergeFrom limits base l r fuel ts c result)
      fun out => out = mergeGroups base l r (groupsFrom fuel ts) c result := by
  induction fuel generalizing ts c result with
  | zero => omega
  | succ fuel ih =>
    cases ts with
    | nil => exact .pure rfl
    | cons t ts =>
      have hg := group_of_takeGroup hs hr
      have hlen := congrArg length hg.split
      rw [length_append] at hlen
      rw [length_cons] at hf
      refine (Budget.check_yields fun _ _ => trivial).skip fun _ => ?_
      exact ih (by omega) (hg.sorted_rest hs) (hg.ranges_rest hr)

section Scripts

variable {base left right : List Line} {l r : List Edit}

theorem SideScript.pairwise_begin (h : SideScript base left l) :
    l.Pairwise fun e f => e.begin_ < f.begin_ :=
  h.pairwise.imp_of_mem fun {e f} he _ hef => by
    have := (h.ordered e he).1
    omega

theorem sorted_sortedEdits (l r : List Edit) : Sorted (sortedEdits l r) :=
  pairwise_insertionSort _ _

theorem ranges_sortedEdits (hl : SideScript base left l) (hr : SideScript base right r) :
    Ranges base 0 (sortedEdits l r) := by
  intro t ht
  rw [sortedEdits, mem_insertionSort] at ht
  refine ⟨Nat.zero_le _, ?_⟩
  rcases mem_append.mp ht with ht | ht
  · obtain ⟨e, he, rfl⟩ := mem_map.mp ht
    exact ⟨(hl.ordered e he).1, (hl.inside e he).1⟩
  · obtain ⟨e, he, rfl⟩ := mem_map.mp ht
    exact ⟨(hr.ordered e he).1, (hr.inside e he).1⟩

theorem ofSide_true_sortedEdits (hl : SideScript base left l) : ofSide true (sortedEdits l r) = l :=
  ofSide_sortedEdits hl.pairwise_begin (sublist_append_left _ _) (ofSide_tagged l r).1

theorem ofSide_false_sortedEdits (hr : SideScript base right r) :
    ofSide false (sortedEdits l r) = r :=
  ofSide_sortedEdits hr.pairwise_begin (sublist_append_right _ _) (ofSide_tagged l r).2

end Scripts

/-- What `Diff` returned for a side, when its edits carry bytes. -/
theorem sideScript_of_returns {limits : Budget} {lib : Library} {base side : Bytes}
    {edits : List Edit} (hro : limits.rangesOnly = false)
    (h : Returns (diff limits lib base side) edits) :
    SideScript (lines base) (lines side) edits :=
  .of_diff hro ((diff_yields limits lib base side).of_returns h).1.1 rfl rfl

/-- A merge that returns is the merge of what `Diff` finds. -/
theorem merge_returns (limits : Budget) (lib : Library) (base left right : Bytes) :
    Yields (fun _ => True) (merge limits lib base left right) fun out =>
      limits.rangesOnly = false ∧ ∃ l r, Returns (diff limits lib base left) l ∧
        Returns (diff limits lib base right) r ∧ out = mergeEdits (lines base) l r := by
  refine throwIf_past fun hro => ?_
  refine (Yields.returns _).bind fun l hl => (Yields.returns _).bind fun r hr => ?_
  refine (countLines_yields (fun _ _ => trivial) (fun _ => trivial) fun _ => trivial).bind
    fun n _ => ?_
  refine (Budget.reserve_yields fun _ _ => trivial).skip fun _ => ?_
  refine (splitLines_yields (fun _ _ => trivial) (fun _ => trivial) fun _ => trivial).bind
    fun ls hls => ?_
  rw [hls.1]
  have hro : limits.rangesOnly = false := by simpa using hro
  refine (mergeFrom_eq (Nat.lt_succ_self _) (sorted_sortedEdits l r)
    (ranges_sortedEdits (sideScript_of_returns hro hl) (sideScript_of_returns hro hr))).weaken
      fun out ho => ⟨hro, l, r, hl, hr, ho⟩

/-! ## The groups with the sides exchanged -/

/-- The base range of an edit, which is all that sorting and grouping look at. -/
def Tagged.range (t : Tagged) : Nat × Nat := (t.edit.begin_, t.edit.end_)

/-- The same group, with the edits of the sides exchanged. -/
structure Mirrored (g h : EditGroup) : Prop where
  begin_eq : g.begin_ = h.begin_
  end_eq : g.end_ = h.end_
  sides : ∀ isLeft, ofSide isLeft g.edits = ofSide (!isLeft) h.edits

variable {t u : Tagged} {b e c : Nat} {ts us : List Tagged}

theorem range_eq_iff :
    t.range = u.range ↔ t.edit.begin_ = u.edit.begin_ ∧ t.edit.end_ = u.edit.end_ := Prod.mk_inj

theorem overlaps_congr (h : t.range = u.range) :
    overlaps ⟨b, e, 0, 0, []⟩ t.edit = overlaps ⟨b, e, 0, 0, []⟩ u.edit := by
  obtain ⟨h1, h2⟩ := range_eq_iff.mp h
  unfold overlaps
  rw [h1, h2]

/-- Where a group ends depends on the base ranges only. -/
theorem takeGroup_ranges (h : ts.map Tagged.range = us.map Tagged.range) :
    (takeGroup b e ts).2.1 = (takeGroup b e us).2.1 ∧
      (takeGroup b e ts).2.2.map Tagged.range = (takeGroup b e us).2.2.map Tagged.range := by
  induction ts generalizing us e with
  | nil =>
    rw [map_eq_nil_iff.mp h.symm]
    exact ⟨rfl, rfl⟩
  | cons t ts ih =>
    cases us with
    | nil => cases h
    | cons u us =>
      obtain ⟨htu, hrest⟩ := cons.inj h
      unfold takeGroup
      rw [overlaps_congr htu]
      by_cases ho : overlaps ⟨b, e, 0, 0, []⟩ u.edit
      · rw [if_pos ho, if_pos ho, (range_eq_iff.mp htu).2]
        exact ih hrest
      · rw [if_neg ho, if_neg ho]
        exact ⟨rfl, h⟩

/-- An edit that begins inside of the range, or is an insertion at an empty one. -/
def touches (b e : Nat) (x : Edit) : Bool :=
  x.begin_ < e || (b == e && x.begin_ == b && x.end_ == b)

theorem touches_iff {x : Edit} :
    touches b e x ↔ x.begin_ < e ∨ b = e ∧ x.begin_ = b ∧ x.end_ = b := by
  simp [touches, and_assoc]

/-- The edits of a side in the first group, and those behind it, are told apart by its range. -/
theorem Group.sides {base : List Line} {group rest : List Tagged} {end_ : Nat}
    (hg : Group base t ts group end_ rest) (hr : Ranges base c (t :: ts)) (isLeft : Bool) :
    ofSide isLeft (t :: group) = (ofSide isLeft (t :: ts)).filter (touches t.edit.begin_ end_) ∧
    ofSide isLeft rest = (ofSide isLeft (t :: ts)).filter fun x =>
      !touches t.edit.begin_ end_ x := by
  have hin : ∀ x ∈ ofSide isLeft (t :: group), touches t.edit.begin_ end_ x := by
    intro x hx
    obtain ⟨u, hu, rfl⟩ := mem_ofSide hx
    have hmem := hg.members u hu
    have hge := hg.le_end
    have hu' : u ∈ t :: ts := by
      rw [hg.split, ← cons_append]
      exact mem_append_left _ hu
    have hb := (hr t mem_cons_self).2.1
    have hub := (hr u hu').2.1
    exact touches_iff.mpr (by omega)
  have hout : ∀ x ∈ ofSide isLeft rest, ¬ touches t.edit.begin_ end_ x := by
    intro x hx
    obtain ⟨u, hu, rfl⟩ := mem_ofSide hx
    have := hg.leaves u hu
    rw [touches_iff]
    omega
  rw [hg.ofSide_split isLeft, filter_append, filter_append, filter_eq_self.mpr hin,
    filter_eq_nil_iff.mpr hout, append_nil]
  refine ⟨rfl, ?_⟩
  rw [filter_eq_nil_iff.mpr fun x hx => by simp [hin x hx], nil_append]
  exact (filter_eq_self.mpr fun x hx => by simp [hout x hx]).symm

/-- Lists with the same base ranges and the sides exchanged have the same groups. -/
theorem mirror_groupsFrom {base : List Line} {fuel : Nat} (hs : Sorted ts) (hr : Ranges base c ts)
    (hs' : Sorted us) (hr' : Ranges base c us) (hk : ts.map Tagged.range = us.map Tagged.range)
    (hsides : ∀ isLeft, ofSide isLeft ts = ofSide (!isLeft) us) :
    List.Forall₂ Mirrored (groupsFrom fuel ts) (groupsFrom fuel us) := by
  induction fuel generalizing c ts us with
  | zero => exact .nil
  | succ fuel ih =>
    cases ts with
    | nil =>
      rw [map_eq_nil_iff.mp hk.symm]
      exact .nil
    | cons t ts =>
      cases us with
      | nil => cases hk
      | cons u us =>
        have hg := group_of_takeGroup hs hr
        have hg' := group_of_takeGroup hs' hr'
        obtain ⟨htu, hrest⟩ := cons.inj hk
        obtain ⟨hb, he⟩ := range_eq_iff.mp htu
        obtain ⟨hend, hkeys⟩ := takeGroup_ranges (b := t.edit.begin_) (e := t.edit.end_) hrest
        rw [← hb, ← he] at hg'
        have hparts := fun isLeft => And.intro (hg.sides hr isLeft) (hg'.sides hr' (!isLeft))
        unfold groupsFrom
        rw [← hb, ← he]
        refine .cons ⟨rfl, hend, fun isLeft => ?_⟩ (ih (hg.sorted_rest hs) (hg.ranges_rest hr)
          (hg'.sorted_rest hs') (hend ▸ hg'.ranges_rest hr') hkeys fun isLeft => ?_)
        · rw [(hparts isLeft).1.1, (hparts isLeft).2.1, hsides, hend, hb]
        · rw [(hparts isLeft).1.2, (hparts isLeft).2.2, hsides, hend, hb]

end Hc.Compare
