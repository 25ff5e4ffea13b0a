import HyperCommander.Compare.MergeGroups

/-!
# Laws of `Merge`

* `mirror_mergeEdits`: with the sides exchanged the text stays and every conflict is exchanged.
* `Splices.text_eq`: regions that all took one side make the text of that side.
* `merge_laws`: an unchanged side yields to the other one, equal sides agree, and the merge is
  symmetric.
-/

namespace Hc.Compare

open List EditGraph Slice

/-- The conflict with its sides exchanged. -/
def Conflict.swap (c : Conflict) : Conflict :=
  { c with leftBegin := c.rightBegin, rightBegin := c.leftBegin, left := c.right, right := c.left }

/-! ## Exchanging the sides -/

section Mirror

variable {base left right : List Line} {l r : List Edit}

/-- The sorted edits have the same base ranges in both orders of the sides. -/
theorem sortedEdits_ranges (l r : List Edit) :
    (sortedEdits l r).map Tagged.range = (sortedEdits r l).map Tagged.range := by
  have hsorted : ∀ l r : List Edit, ((sortedEdits l r).map Tagged.range).Pairwise fun a b =>
      a.1 < b.1 ∨ a.1 = b.1 ∧ a.2 ≤ b.2 := fun l r =>
    pairwise_map.mpr ((sorted_sortedEdits l r).imp fun h => notAfter_iff.mp h)
  have hperm : ∀ l r : List Edit, ((sortedEdits l r).map Tagged.range).Perm
      (l.map (fun e => (e.begin_, e.end_)) ++ r.map fun e => (e.begin_, e.end_)) := by
    intro l r
    have h := (perm_insertionSort (fun a b => (notAfter a b : Prop))
      (l.map (Tagged.mk · true) ++ r.map (Tagged.mk · false))).map Tagged.range
    rw [map_append, map_map, map_map] at h
    exact h
  refine List.Perm.eq_of_pairwise (fun a b _ _ hab hba => ?_) (hsorted l r) (hsorted r l)
    (((hperm l r).trans perm_append_comm).trans (hperm r l).symm)
  exact Prod.ext (by omega) (by omega)

theorem mirror_groupsOf (hl : SideScript base left l) (hr : SideScript base right r) :
    List.Forall₂ Mirrored (groupsOf l r) (groupsOf r l) := by
  have hlen : (sortedEdits r l).length = (sortedEdits l r).length := by
    have h := congrArg length (sortedEdits_ranges l r)
    rw [length_map, length_map] at h
    exact h.symm
  unfold groupsOf
  rw [hlen]
  refine mirror_groupsFrom (sorted_sortedEdits l r) (ranges_sortedEdits hl hr)
    (sorted_sortedEdits r l) (ranges_sortedEdits hr hl) (sortedEdits_ranges l r) fun isLeft => ?_
  cases isLeft with
  | true => rw [ofSide_true_sortedEdits hl, Bool.not_true, ofSide_false_sortedEdits hl]
  | false => rw [ofSide_false_sortedEdits hr, Bool.not_false, ofSide_true_sortedEdits hr]

/-- The results so far of a merge and of the one with the sides exchanged. -/
structure Exchanged (out out' : MergeResult) : Prop where
  text : out'.text = out.text
  conflicts : out'.conflicts = out.conflicts.map Conflict.swap

theorem Exchanged.addRegion {out out' : MergeResult} {g h : EditGroup} (c : Nat)
    (ho : Exchanged out out') (hg : Mirrored g h) :
    Exchanged (addRegion base l r c g.begin_ g.end_ g.edits out)
      (addRegion base r l c h.begin_ h.end_ h.edits out') := by
  have htrue : ofSide true h.edits = ofSide false g.edits := (hg.sides false).symm
  have hfalse : ofSide false h.edits = ofSide true g.edits := (hg.sides true).symm
  unfold Compare.addRegion
  rw [htrue, hfalse, ← hg.begin_eq, ← hg.end_eq, ho.text, ho.conflicts]
  generalize ofSide true g.edits = ls
  generalize ofSide false g.edits = rs
  by_cases hls : ls = []
  · by_cases hrs : rs = []
    · -- Both sides left the lines alone, so both variants are the base lines.
      rw [if_pos hls, if_pos hrs, hls, hrs]
      exact ⟨rfl, rfl⟩
    · rw [if_pos hls, if_neg hrs, if_pos (.inl hls)]
      exact ⟨rfl, rfl⟩
  · by_cases hrs : rs = []
    · rw [if_neg hls, if_pos (.inl hrs), if_pos hrs]
      exact ⟨rfl, rfl⟩
    · by_cases heq : variant base g.begin_ g.end_ ls = variant base g.begin_ g.end_ rs
      · rw [if_neg hls, if_pos (.inr heq), if_neg hrs, if_pos (.inr heq.symm)]
        exact ⟨congrArg (out.text ++ append base c g.begin_ ++ ·) heq.symm, rfl⟩
      · rw [if_neg hls, if_neg (not_or.mpr ⟨hrs, heq⟩), if_neg hrs,
          if_neg (not_or.mpr ⟨hls, Ne.symm heq⟩)]
        refine ⟨rfl, ?_⟩
        rw [map_append]
        rfl

theorem Exchanged.mergeGroups {gs hs : List EditGroup} (hg : List.Forall₂ Mirrored gs hs) {c : Nat}
    {out out' : MergeResult} (ho : Exchanged out out') :
    Exchanged (mergeGroups base l r gs c out) (mergeGroups base r l hs c out') := by
  induction hg generalizing c out out' with
  | nil => exact ⟨congrArg (· ++ append base c base.length) ho.text, ho.conflicts⟩
  | cons hgh _ ih =>
    have h : Exchanged (Compare.addRegion base l r c _ _ _ out)
        (Compare.addRegion base r l c _ _ _ out') := ho.addRegion c hgh
    unfold Compare.mergeGroups
    rw [← hgh.end_eq] at h ⊢
    exact ih h

theorem mirror_mergeEdits (hl : SideScript base left l) (hr : SideScript base right r) :
    Exchanged (mergeEdits base l r) (mergeEdits base r l) :=
  Exchanged.mergeGroups (mirror_groupsOf hl hr) ⟨rfl, rfl⟩

end Mirror

/-! ## Regions of one side -/

/-- Regions that all took the side make its text. -/
theorem Splices.text_eq {side : List Line} {line bytes : MergeRegion → Nat} {text : Bytes}
    {p c : Nat} {gs : List MergeRegion} (h : Splices side line bytes text p c gs)
    (hp : ∀ g ∈ gs, slice text g.resultBegin g.resultEnd = pieceOf side line bytes g) :
    text.drop p = append side c side.length := by
  induction gs generalizing p c with
  | nil => exact h
  | cons g gs ih =>
    obtain ⟨h1, h2, h3, hgap, d, h4, h5, h6, hbytes, hrest⟩ := h
    have htext : text.drop p = slice text p g.resultBegin ++
        (slice text g.resultBegin g.resultEnd ++ text.drop g.resultEnd) := by
      rw [← slice_to_length, ← slice_to_length, slice_append h2 h3, slice_append h1 (h2.trans h3)]
    rw [htext, hgap, hp g mem_cons_self, pieceOf, hbytes, cut_lines h5 h6,
      ih hrest fun f hf => hp f (mem_cons_of_mem _ hf)]
    unfold append
    rw [← flatten_append, ← flatten_append, slice_append h5 h6,
      slice_append h4 (h5.trans h6)]

/-- The group takes the text of one side. -/
def SettledTo (base : List Line) (origin : MergeOrigin) (g : EditGroup) : Prop :=
  ∀ l r c result, (addRegion base l r c g.begin_ g.end_ g.edits result).conflicts =
    result.conflicts ∧
    ∃ x : MergeRegion, x.origin = origin ∧
      (addRegion base l r c g.begin_ g.end_ g.edits result).regions = result.regions ++ [x]

theorem settles_right {base : List Line} {g : EditGroup} (h : ofSide true g.edits = []) :
    SettledTo base .right g := by
  intro l r c result
  unfold addRegion
  rw [if_pos h]
  exact ⟨rfl, _, rfl, rfl⟩

theorem settles_left {base : List Line} {g : EditGroup} (h : ofSide true g.edits ≠ [])
    (hr : ofSide false g.edits = [] ∨ variant base g.begin_ g.end_ (ofSide true g.edits) =
      variant base g.begin_ g.end_ (ofSide false g.edits)) : SettledTo base .left g := by
  intro l r c result
  unfold addRegion
  rw [if_neg h, if_pos hr]
  exact ⟨rfl, _, rfl, rfl⟩

/-- Groups that all settle on one side give regions of that side and no conflict. -/
theorem mergeGroups_settles {base : List Line} {l r : List Edit} {origin : MergeOrigin}
    {gs : List EditGroup} (hg : ∀ g ∈ gs, SettledTo base origin g) {c : Nat} {result : MergeResult}
    (hc : result.conflicts = []) (ho : ∀ x ∈ result.regions, x.origin = origin) :
    (mergeGroups base l r gs c result).conflicts = [] ∧
      ∀ x ∈ (mergeGroups base l r gs c result).regions, x.origin = origin := by
  induction gs generalizing c result with
  | nil => exact ⟨hc, ho⟩
  | cons g gs ih =>
    obtain ⟨hconf, x, hx, hregs⟩ := hg g mem_cons_self l r c result
    refine ih (fun h hh => hg h (mem_cons_of_mem _ hh)) (hconf.trans hc) fun y hy => ?_
    rw [hregs] at hy
    rcases mem_append.mp hy with hy | hy
    · exact ho y hy
    · rw [mem_singleton.mp hy]
      exact hx

theorem mergeEdits_settles {base : List Line} {l r : List Edit} {origin : MergeOrigin}
    (hg : ∀ g ∈ groupsOf l r, SettledTo base origin g) : (mergeEdits base l r).conflicts = [] ∧
      ∀ x ∈ (mergeEdits base l r).regions, x.origin = origin :=
  mergeGroups_settles hg rfl fun x hx => by cases hx

/-- A group takes some of the edits. -/
theorem mem_groupsFrom {fuel : Nat} {base : List Line} {c : Nat} {ts : List Tagged} {g : EditGroup}
    (hs : Sorted ts) (hr : Ranges base c ts) (h : g ∈ groupsFrom fuel ts) :
    g.edits ≠ [] ∧ ∀ u ∈ g.edits, u ∈ ts := by
  induction fuel generalizing c ts with
  | zero => cases h
  | succ fuel ih =>
    cases ts with
    | nil => cases h
    | cons t ts =>
      have hg := group_of_takeGroup hs hr
      rcases mem_cons.mp h with rfl | h
      · refine ⟨cons_ne_nil _ _, fun u hu => ?_⟩
        rw [hg.split, ← cons_append]
        exact mem_append_left _ hu
      · obtain ⟨hne, hsub⟩ := ih (hg.sorted_rest hs) (hg.ranges_rest hr) h
        refine ⟨hne, fun u hu => ?_⟩
        rw [hg.split]
        exact mem_cons_of_mem _ (mem_append_right _ (hsub u hu))

section OneSide

variable {base left right : List Line} {l r : List Edit}

theorem ofSide_eq_nil {isLeft : Bool} {ts : List Tagged} :
    ofSide isLeft ts = [] ↔ ∀ u ∈ ts, u.isLeft ≠ isLeft := by
  simp [ofSide]

/-- The edits of a group come from the sides that have edits. -/
theorem ofSide_group (hl : SideScript base left l) (hr : SideScript base right r) {g : EditGroup}
    (hg : g ∈ groupsOf l r) : (l = [] → ofSide true g.edits = []) ∧
      (r = [] → ofSide false g.edits = []) ∧
      (ofSide true g.edits ≠ [] ∨ ofSide false g.edits ≠ []) := by
  obtain ⟨hne, hsub⟩ := mem_groupsFrom (sorted_sortedEdits l r) (ranges_sortedEdits hl hr) hg
  refine ⟨fun h => ?_, fun h => ?_, ?_⟩
  · have h0 : ofSide true (sortedEdits l r) = [] := by rw [ofSide_true_sortedEdits hl, h]
    exact ofSide_eq_nil.mpr fun u hu => ofSide_eq_nil.mp h0 u (hsub u hu)
  · have h0 : ofSide false (sortedEdits l r) = [] := by rw [ofSide_false_sortedEdits hr, h]
    exact ofSide_eq_nil.mpr fun u hu => ofSide_eq_nil.mp h0 u (hsub u hu)
  · obtain ⟨u, hu⟩ := exists_mem_of_ne_nil _ hne
    cases hside : u.isLeft with
    | true => exact .inl fun h => ofSide_eq_nil.mp h u hu hside
    | false => exact .inr fun h => ofSide_eq_nil.mp h u hu hside

/-- An unchanged left side leaves every group to the right one. -/
theorem settles_of_left_nil (hl : SideScript base left l) (hr : SideScript base right r)
    (h : l = []) : ∀ g ∈ groupsOf l r, SettledTo base .right g := fun _ hg =>
  settles_right ((ofSide_group hl hr hg).1 h)

theorem settles_of_right_nil (hl : SideScript base left l) (hr : SideScript base right r)
    (h : r = []) : ∀ g ∈ groupsOf l r, SettledTo base .left g := by
  intro g hg
  obtain ⟨-, h2, h3⟩ := ofSide_group hl hr hg
  exact settles_left (h3.resolve_right (absurd (h2 h))) (.inl (h2 h))

/-- Equal sides have the same edits in every group, for the groups are their own mirror image. -/
theorem settles_of_eq (hl : SideScript base left l) :
    ∀ g ∈ groupsOf l l, SettledTo base .left g := by
  intro g hg
  have hmirror : ∀ gs hs : List EditGroup, List.Forall₂ Mirrored gs hs → gs = hs →
      ∀ x ∈ gs, Mirrored x x := by
    intro gs hs h
    induction h with
    | nil =>
      intro _ x hx
      cases hx
    | cons hgh _ ih =>
      intro he x hx
      obtain ⟨rfl, rfl⟩ := cons.inj he
      rcases mem_cons.mp hx with rfl | hx
      · exact hgh
      · exact ih rfl x hx
  have hself := (hmirror _ _ (mirror_groupsOf hl hl) rfl g hg).sides true
  rw [Bool.not_true] at hself
  obtain ⟨-, -, h3⟩ := ofSide_group hl hl hg
  refine settles_left (fun h => ?_) (.inr (by rw [hself]))
  rw [← hself, h] at h3
  exact h3.elim (· rfl) (· rfl)

end OneSide

/-! ## The laws -/

theorem lines_whole (text : Bytes) : append (lines text) 0 (lines text).length = text := by
  rw [append, slice_full, lines_flatten]

/-- A merge whose regions all took one side returns its text. -/
theorem merge_text_of_origin {limits : Budget} {lib : Library} {base left right : Bytes}
    {out : MergeResult} (h : Returns (merge limits lib base left right) out) :
    ((∀ g ∈ out.regions, g.origin = .left) → out.text = left) ∧
      ((∀ g ∈ out.regions, g.origin = .right) → out.text = right) := by
  obtain ⟨hcuts, -⟩ := (merge_yields limits lib base left right).of_returns h
  refine ⟨fun ho => ?_, fun ho => ?_⟩
  · have := hcuts.ofLeft.text_eq fun g hg => (hcuts.regions g hg).ofLeft (ho g hg)
    rwa [drop_zero, lines_whole] at this
  · have := hcuts.ofRight.text_eq fun g hg => (hcuts.regions g hg).ofRight (ho g hg)
    rwa [drop_zero, lines_whole] at this

/-- `Diff` of a text with itself has no edits. -/
theorem diff_self {limits : Budget} {lib : Library} {text : Bytes} {edits : List Edit}
    (h : Returns (diff limits lib text text) edits) : edits = [] := by
  have hy : Yields (fun _ => True) (diff limits lib text text) fun out => out = [] := by
    refine (Budget.check_yields fun _ _ => trivial).skip fun _ => ?_
    rw [if_pos rfl]
    exact .pure rfl
  exact hy.of_returns h

/-- An unchanged side yields to the other one, equal sides agree, and exchanging the sides
exchanges the sides of every conflict and nothing else. The budgets of the two runs may differ in
all but the trace limit, which selects the engine. -/
theorem merge_laws {limits limits' : Budget} (ht : limits.traceBytes = limits'.traceBytes)
    (lib : Library) (base x y : Bytes) :
    (∀ out, Returns (merge limits lib base base x) out → out.conflicts = [] ∧ out.text = x) ∧
    (∀ out, Returns (merge limits lib base x base) out → out.conflicts = [] ∧ out.text = x) ∧
    (∀ out, Returns (merge limits lib base x x) out → out.conflicts = [] ∧ out.text = x) ∧
    ∀ out out', Returns (merge limits lib base x y) out →
      Returns (merge limits' lib base y x) out' →
      out'.text = out.text ∧ out'.conflicts = out.conflicts.map Conflict.swap := by
  refine ⟨fun out h => ?_, fun out h => ?_, fun out h => ?_, fun out out' h h' => ?_⟩
  · obtain ⟨hro, l, r, hl, hr, rfl⟩ := (merge_returns limits lib base base x).of_returns h
    obtain ⟨hconf, horig⟩ := mergeEdits_settles (settles_of_left_nil (sideScript_of_returns hro hl)
      (sideScript_of_returns hro hr) (diff_self hl))
    exact ⟨hconf, (merge_text_of_origin h).2 horig⟩
  · obtain ⟨hro, l, r, hl, hr, rfl⟩ := (merge_returns limits lib base x base).of_returns h
    obtain ⟨hconf, horig⟩ := mergeEdits_settles (settles_of_right_nil (sideScript_of_returns hro hl)
      (sideScript_of_returns hro hr) (diff_self hr))
    exact ⟨hconf, (merge_text_of_origin h).1 horig⟩
  · obtain ⟨hro, l, r, hl, hr, rfl⟩ := (merge_returns limits lib base x x).of_returns h
    have heq : l = r := (diff_agree_bytes rfl rfl lib base x).of_returns hl hr
    obtain ⟨hconf, horig⟩ := mergeEdits_settles (settles_of_eq (sideScript_of_returns hro hl))
    rw [← heq] at h ⊢
    exact ⟨hconf, (merge_text_of_origin h).1 horig⟩
  · obtain ⟨hro, l, r, hl, hr, rfl⟩ := (merge_returns limits lib base x y).of_returns h
    obtain ⟨hro', r', l', hr', hl', rfl⟩ := (merge_returns limits' lib base y x).of_returns h'
    have hbytes : limits.rangesOnly = limits'.rangesOnly := hro.trans hro'.symm
    have heql : l = l' := (diff_agree_bytes ht hbytes lib base x).of_returns hl hl'
    have heqr : r = r' := (diff_agree_bytes ht hbytes lib base y).of_returns hr hr'
    subst heql heqr
    have h := mirror_mergeEdits (sideScript_of_returns hro hl) (sideScript_of_returns hro hr)
    exact ⟨h.text, h.conflicts⟩

theorem merge_run_conflict : (merge .unlimited ⟨fun _ => 0, fun _ _ => 0⟩ [97, 10, 98, 10]
    [97, 10, 99, 10] [97, 10, 100, 10]).run {} = .ok (⟨[97, 10, 98, 10],
      [⟨1, 2, 2, 4, 1, 1, [98, 10], [99, 10], [100, 10]⟩],
      [⟨1, 2, 1, 1, 2, 2, 2, 4, .conflict⟩]⟩, ⟨7, 65⟩) := by
  decide +kernel

theorem merge_run_exchanged : (merge .unlimited ⟨fun _ => 0, fun _ _ => 0⟩ [97, 10, 98, 10]
    [97, 10, 100, 10] [97, 10, 99, 10]).run {} = .ok (⟨[97, 10, 98, 10],
      [⟨1, 2, 2, 4, 1, 1, [98, 10], [100, 10], [99, 10]⟩],
      [⟨1, 2, 1, 1, 2, 2, 2, 4, .conflict⟩]⟩, ⟨7, 65⟩) := by
  decide +kernel

/-- Both sides replace the same line. -/
theorem merge_laws_conflict : ∃ out out',
    Returns (merge .unlimited ⟨fun _ => 0, fun _ _ => 0⟩ [97, 10, 98, 10] [97, 10, 99, 10]
      [97, 10, 100, 10]) out ∧
    Returns (merge .unlimited ⟨fun _ => 0, fun _ _ => 0⟩ [97, 10, 98, 10] [97, 10, 100, 10]
      [97, 10, 99, 10]) out' ∧
    out.conflicts ≠ [] ∧ out'.text = out.text ∧ out'.conflicts = out.conflicts.map Conflict.swap :=
  ⟨_, _, ⟨_, _, merge_run_conflict⟩, ⟨_, _, merge_run_exchanged⟩, cons_ne_nil _ _,
    (merge_laws rfl _ _ _ _).2.2.2 _ _ ⟨_, _, merge_run_conflict⟩ ⟨_, _, merge_run_exchanged⟩⟩

end Hc.Compare
