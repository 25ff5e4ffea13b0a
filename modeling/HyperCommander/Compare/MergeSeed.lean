import HyperCommander.Compare.MergePlanLemmas
import HyperCommander.Compare.MergeRun

/-!
# The first state of the merge editor

* `twoWayPlan_good`, `threeWayPlan_good`: the plans of two or three inputs promise what is true
  of the inputs (`PlanFor`), and their first states fit their seed texts (`Good`).
-/

namespace Hc.Compare

open List Slice MergeModel

variable {ok : Bytes → Nat → Prop} {P : Line → Prop}

/-- The starts of lines are good positions, and whole lines may be inserted before them. -/
structure Admits (ok : Bytes → Nat → Prop) (P : Line → Prop) : Prop where
  cut : ∀ text p, p ≤ text.length → MadeOf P (text.drop p) → ok text p
  insert : ∀ bytes, MadeOf P bytes → Insertable ok bytes

theorem madeOf_nil : MadeOf P [] := ⟨[], (fun x hx => by cases hx), rfl⟩

theorem Admits.insertable (h : Admits ok P) {b : MergeBlock} (hl : MadeOf P b.left)
    (hr : MadeOf P b.right) (hb : MadeOf P b.base) {choice : Resolution} {bytes : Bytes}
    (hc : choiceText b choice = .ok bytes) : Insertable ok bytes := by
  refine h.insert bytes ?_
  unfold choiceText at hc
  split at hc <;> cases hc
  · exact hl
  · exact hr
  · exact hb
  · exact hl.append hr
  · exact hr.append hl
  · exact madeOf_nil
  · exact madeOf_nil

theorem Admits.line (h : Admits ok P) {side : List Line} (hP : ∀ x ∈ side, P x) {i : Nat}
    (hi : i ≤ side.length) : ok side.flatten (append side 0 i).length := by
  refine h.cut _ _ (length_append_le_flatten _ hi) ?_
  have hsplit : side.flatten = append side 0 i ++ append side i side.length := by
    unfold append
    rw [← flatten_append, slice_append (Nat.zero_le i) hi, slice_full]
  rw [hsplit, drop_left]
  exact madeOf_append hP _ _

/-- Blocks that hold ranges of lines in order. -/
theorem sideBlocks_of_ranges (h : Admits ok P) {side : List Line} (hP : ∀ x ∈ side, P x)
    (begin_ : MergeBlock → Nat) (bytes : MergeBlock → Bytes) {blocks : List MergeBlock}
    (ranges : List (Nat × Nat))
    (hall : List.Forall₂ (fun b r => begin_ b = (append side 0 r.1).length ∧
      bytes b = append side r.1 r.2) blocks ranges)
    (hin : ∀ r ∈ ranges, r.1 ≤ r.2 ∧ r.2 ≤ side.length)
    (hord : ranges.Pairwise fun r q => r.2 ≤ q.1) :
    SideBlocks ok side.flatten begin_ bytes blocks := by
  have hof : ∀ b ∈ blocks, ∃ r ∈ ranges, begin_ b = (append side 0 r.1).length ∧
      bytes b = append side r.1 r.2 ∧ begin_ b + (bytes b).length = (append side 0 r.2).length := by
    intro b hb
    obtain ⟨i, hi, rfl⟩ := mem_iff_getElem.mp hb
    have hi' : i < ranges.length := by rw [← hall.length_eq]; exact hi
    have hget := hall.get hi hi'
    refine ⟨ranges.get ⟨i, hi'⟩, get_mem _ _, hget.1, hget.2, ?_⟩
    have hr := hin _ (get_mem ranges ⟨i, hi'⟩)
    have h1 := hget.1
    have h2 := hget.2
    simp only [get_eq_getElem] at h1 h2 hr ⊢
    rw [h1, h2, length_add_append hr.1]
  refine ⟨fun b hb => ?_, fun b hb => ?_, fun b hb => ?_, ?_⟩
  · obtain ⟨r, hr, -, -, hend⟩ := hof b hb
    rw [hend]
    exact length_append_le_flatten _ (hin r hr).2
  · obtain ⟨r, hr, hbeg, -, hend⟩ := hof b hb
    have hri := hin r hr
    rw [hend, hbeg]
    exact ⟨h.line hP (hri.1.trans hri.2), h.line hP hri.2⟩
  · obtain ⟨r, hr, hbeg, hbytes, -⟩ := hof b hb
    have hri := hin r hr
    rw [slice, Nat.add_sub_cancel_left, hbeg, hbytes, cut_lines hri.1 hri.2]
  · induction hall with
    | nil => exact .nil
    | @cons b r bs rs hbr hrest ih =>
      obtain ⟨hord1, hord2⟩ := pairwise_cons.mp hord
      refine pairwise_cons.mpr ⟨fun c hc => ?_, ih (fun q hq => hin q (by simp [hq])) hord2
        fun c hc => ?_⟩
      · obtain ⟨i, hi, rfl⟩ := mem_iff_getElem.mp hc
        have hi' : i < rs.length := by rw [← hrest.length_eq]; exact hi
        have hget := (hrest.get hi hi').1
        simp only [get_eq_getElem] at hget
        have hr := hin r (by simp)
        rw [hget, hbr.1, hbr.2, length_add_append hr.1]
        exact length_append_le _ (hord1 _ (getElem_mem hi'))
      · obtain ⟨i, hi, rfl⟩ := mem_iff_getElem.mp hc
        have hi' : i < rs.length := by rw [← hrest.length_eq]; exact hi
        have hget := hrest.get hi hi'
        have hr := hin rs[i] (by simp)
        simp only [get_eq_getElem] at hget
        exact ⟨rs[i], by simp, hget.1, hget.2, by rw [hget.1, hget.2, length_add_append hr.1]⟩

theorem splitLines_any {expired : Nat → Bool} {text : Bytes} : Yields (fun _ => True)
    (splitLines (Budget.unattended expired) text) fun ls => ls = lines text :=
  (splitLines_yields (fun _ _ => trivial) (fun _ => trivial) fun _ => trivial).weaken
    fun _ h => h.1

/-! ## Two inputs -/

/-- What the plan of two inputs adds for an edit. -/
structure BlockOfEdit (left right : List Line) (seed : Resolution) (e : Edit) (block : MergeBlock) :
    Prop where
  leftBegin : block.leftBegin = (append left 0 e.begin_).length
  rightBegin : block.rightBegin = (append right 0 e.otherBegin).length
  left : block.left = append left e.begin_ e.end_
  right : block.right = append right e.otherBegin e.otherEnd
  base : block.base = []

/-- The first state of a block under a seed. -/
def seedState (seed : Resolution) (b : MergeBlock) : BlockState :=
  if seed = .right then ⟨b.rightBegin, b.rightBegin + b.right.length, seed, true⟩
  else ⟨b.leftBegin, b.leftBegin + b.left.length, seed, true⟩

theorem twoWayBlock_yields {E : Failure → Prop} {left right : List Line} {edits : List Edit}
    (h : SideScript left right edits) (seed : Resolution) (plan : MergePlan) {e : Edit}
    (he : e ∈ edits) :
    Yields E (twoWayBlock left.flatten (offsetsFrom 0 left) (offsetsFrom 0 right) seed plan e)
      fun out => ∃ block, out = { plan with
          blocks := plan.blocks ++ [block], initial := plan.initial ++ [seedState seed block] } ∧
        BlockOfEdit left right seed e block := by
  have ho := h.ordered e he
  have hi := h.inside e he
  have hle := length_append_le_flatten left (a := e.begin_) (by omega)
  refine (at_yields (by omega)).bind fun _ h1 => (at_yields (by omega)).bind fun _ h2 => ?_
  refine (at_yields hi.1).bind fun _ h3 => ?_
  subst h1 h2 h3
  refine (substr_yields hle).bind fun leftText h4 => .pure ⟨⟨plan.blocks.length + 1, _, _, 0,
    e.begin_, e.otherBegin, 0, leftText, e.replacement, [], false⟩, ?_, rfl, rfl, ?_, h.bytes e he,
    rfl⟩
  · unfold seedState
    split <;> rfl
  · rw [h4, ← length_add_append ho.1, Nat.add_sub_cancel_left, cut_lines ho.1 hi.1]

theorem twoWayPlan_good {left right : Bytes} {edits : List Edit} (h : Admits ok P)
    (hl : ∀ x ∈ lines left, P x) (hr : ∀ x ∈ lines right, P x)
    (hs : SideScript (lines left) (lines right) edits) (expired : Nat → Bool) {seed : Resolution}
    (hseed : seed = .unresolved ∨ seed = .left ∨ seed = .right) :
    Yields (fun _ => True) (twoWayPlan expired left right edits seed)
      fun plan => PlanFor ok left right plan ∧
        Good ok plan plan.initial (if seed = .right then right else left) := by
  refine (offsets_yields splitLines_any).bind fun _ h1 => ?_
  refine (offsets_yields splitLines_any).bind fun _ h2 => ?_
  subst h1 h2
  have hblocks : ∀ es plan, (∀ e ∈ es, e ∈ edits) →
      Yields (fun _ => True)
        (es.foldlM (twoWayBlock left (offsetsFrom 0 (lines left))
          (offsetsFrom 0 (lines right)) seed)
          plan)
        fun out => ∃ blocks, out = { plan with
            blocks := plan.blocks ++ blocks
            initial := plan.initial ++ blocks.map (seedState seed) } ∧
          List.Forall₂ (BlockOfEdit (lines left) (lines right) seed) es blocks := by
    intro es
    induction es with
    | nil => exact fun plan _ => .pure ⟨[], by simp, .nil⟩
    | cons e es ih =>
      intro plan hmem
      rw [foldlM_cons]
      have hstep := twoWayBlock_yields (E := fun _ => True) hs seed plan
        (hmem e (by simp))
      rw [lines_flatten] at hstep
      refine hstep.bind fun plan' hp => ?_
      obtain ⟨block, rfl, hblock⟩ := hp
      refine (ih _ fun f hf => hmem f (by simp [hf])).weaken ?_
      rintro out ⟨blocks, rfl, hall⟩
      exact ⟨block :: blocks, by simp, .cons hblock hall⟩
  refine (hblocks edits {} fun e he => he).weaken ?_
  rintro plan ⟨blocks, rfl, hall⟩
  have hpair := hs.pairwise_both
  have hofl : SideBlocks ok left MergeBlock.leftBegin MergeBlock.left blocks := by
    have := sideBlocks_of_ranges h hl MergeBlock.leftBegin MergeBlock.left
      (edits.map fun e => (e.begin_, e.end_))
      (forall₂_map_right_iff.mpr (hall.flip.imp fun b e hb => ⟨hb.leftBegin, hb.left⟩))
      (fun r hr => by
        obtain ⟨e, he, rfl⟩ := mem_map.mp hr
        exact ⟨(hs.ordered e he).1, (hs.inside e he).1⟩)
      (pairwise_map.mpr (hpair.imp fun h => Nat.le_of_lt h.1))
    rwa [lines_flatten] at this
  have hofr : SideBlocks ok right MergeBlock.rightBegin MergeBlock.right blocks := by
    have := sideBlocks_of_ranges h hr MergeBlock.rightBegin MergeBlock.right
      (edits.map fun e => (e.otherBegin, e.otherEnd))
      (forall₂_map_right_iff.mpr (hall.flip.imp fun b e hb => ⟨hb.rightBegin, hb.right⟩))
      (fun r hr => by
        obtain ⟨e, he, rfl⟩ := mem_map.mp hr
        exact ⟨(hs.ordered e he).2, (hs.inside e he).2⟩)
      (pairwise_map.mpr (hpair.imp fun h => Nat.le_of_lt h.2))
    rwa [lines_flatten] at this
  refine ⟨⟨hofl, hofr, fun b hb choice bytes hc => ?_⟩, ?_⟩
  · obtain ⟨e, -, he⟩ : ∃ e ∈ edits, BlockOfEdit (lines left) (lines right) seed e b := by
      obtain ⟨i, hi, rfl⟩ := mem_iff_getElem.mp hb
      have hi' : i < edits.length := by rw [hall.length_eq]; exact hi
      exact ⟨edits[i], getElem_mem hi', hall.get hi' hi⟩
    refine h.insertable ?_ ?_ ?_ hc
    · rw [he.left]; exact madeOf_append hl _ _
    · rw [he.right]; exact madeOf_append hr _ _
    · rw [he.base]; exact madeOf_nil
  · by_cases hright : seed = .right
    · subst hright
      obtain ⟨h1, h2⟩ := hofr.good ⟨false, blocks, []⟩ .right (by decide)
        fun b _ expected he => by simpa [promised] using he
      exact ⟨h1, h2⟩
    · have hstate : blocks.map (seedState seed) = blocks.map fun b =>
          ⟨b.leftBegin, b.leftBegin + b.left.length, seed, true⟩ :=
        map_congr_left fun b _ => by simp [seedState, hright]
      rw [hstate, if_neg hright]
      obtain ⟨h1, h2⟩ := hofl.good ⟨false, blocks, []⟩ seed
        (by rcases hseed with rfl | rfl | rfl <;> decide) fun b _ expected he => by
          rcases hseed with rfl | rfl | rfl
          · cases he
          · simpa [promised] using he
          · exact absurd rfl hright
      exact ⟨h1, h2⟩

/-! ## Three inputs -/

theorem Splices.ranges {side : List Line} {line bytes : MergeRegion → Nat} {text : Bytes}
    {p c : Nat} {gs : List MergeRegion} (h : Splices side line bytes text p c gs) :
    ∃ ranges : List (Nat × Nat), List.Forall₂ (fun g r => line g = r.1 ∧
        pieceOf side line bytes g = append side r.1 r.2) gs ranges ∧
      (∀ r ∈ ranges, c ≤ r.1 ∧ r.1 ≤ r.2 ∧ r.2 ≤ side.length) ∧
      ranges.Pairwise fun r q => r.2 ≤ q.1 := by
  induction gs generalizing p c with
  | nil => exact ⟨[], .nil, (fun r hr => by cases hr), .nil⟩
  | cons g gs ih =>
    obtain ⟨-, -, -, -, d, h1, h2, h3, hbytes, hrest⟩ := h
    obtain ⟨ranges, h4, h5, h6⟩ := ih hrest
    refine ⟨(line g, d) :: ranges, .cons ⟨rfl, ?_⟩ h4, fun r hr => ?_,
      pairwise_cons.mpr ⟨fun r hr => (h5 r hr).1, h6⟩⟩
    · rw [pieceOf, hbytes, cut_lines h2 h3]
    · rcases mem_cons.mp hr with rfl | hr
      · exact ⟨h1, h2, h3⟩
      · have := h5 r hr
        omega

/-- Result ranges lie in order inside the text. -/
theorem Splices.results {side : List Line} {line bytes : MergeRegion → Nat} {text : Bytes}
    {p c : Nat} {gs : List MergeRegion} (h : Splices side line bytes text p c gs) :
    (∀ g ∈ gs, p ≤ g.resultBegin ∧ g.resultBegin ≤ g.resultEnd ∧ g.resultEnd ≤ text.length) ∧
    gs.Pairwise fun g g' => g.resultEnd ≤ g'.resultBegin := by
  induction gs generalizing p c with
  | nil => exact ⟨(fun g hg => by cases hg), .nil⟩
  | cons g gs ih =>
    obtain ⟨h1, h2, h3, -, d, -, -, -, -, hrest⟩ := h
    obtain ⟨h4, h5⟩ := ih hrest
    refine ⟨fun g' hg' => ?_, pairwise_cons.mpr ⟨fun g' hg' => (h4 g' hg').1, h5⟩⟩
    rcases mem_cons.mp hg' with rfl | hg'
    · exact ⟨h1, h2, h3⟩
    · have := h4 g' hg'
      omega

theorem Splices.sideBlocks {side : List Line} {line bytes : MergeRegion → Nat} {text : Bytes}
    {gs : List MergeRegion} {blocks : List MergeBlock} {begin_ : MergeBlock → Nat}
    {piece : MergeBlock → Bytes} (hs : Splices side line bytes text 0 0 gs) (h : Admits ok P)
    (hP : ∀ x ∈ side, P x) (hall : List.Forall₂ (fun g b =>
      begin_ b = (append side 0 (line g)).length ∧ piece b = pieceOf side line bytes g) gs blocks) :
    SideBlocks ok side.flatten begin_ piece blocks ∧ ∀ b ∈ blocks, MadeOf P (piece b) := by
  obtain ⟨ranges, h1, h2, h3⟩ := hs.ranges
  have hof : List.Forall₂ (fun b r => begin_ b = (append side 0 r.1).length ∧
      piece b = append side r.1 r.2) blocks ranges := by
    clear hs h2 h3
    induction hall generalizing ranges with
    | nil => cases h1; exact .nil
    | cons hgb _ ih =>
      obtain ⟨r, rs, hr, hrs, rfl⟩ := forall₂_cons_left_iff.mp h1
      exact .cons ⟨by rw [hgb.1, hr.1], by rw [hgb.2, hr.2]⟩ (ih rs hrs)
  refine ⟨sideBlocks_of_ranges h hP _ _ _ hof (fun r hr => (h2 r hr).2) h3, fun b hb => ?_⟩
  obtain ⟨i, hi, rfl⟩ := mem_iff_getElem.mp hb
  have hget := (hof.get hi (by rw [← hof.length_eq]; exact hi)).2
  simp only [get_eq_getElem] at hget
  rw [hget]
  exact madeOf_append hP _ _

theorem threeWayPlan_good {base left right : Bytes} {merged : MergeResult} (expired : Nat → Bool)
    (h : Admits ok (LineOf (lines base) (lines left) (lines right)))
    (hcuts : Cuts (lines base) (lines left) (lines right) merged.text 0 0 0 0 merged.regions) :
    Yields (fun _ => True) (threeWayPlan expired base left right merged) fun plan =>
        PlanFor ok left right plan ∧ Good ok plan plan.initial merged.text := by
  refine (threeWayPlan_yields hcuts fun _ _ => splitLines_any).weaken fun plan ⟨hinit, hall⟩ => ?_
  obtain ⟨hofl, hmadel⟩ := hcuts.ofLeft.sideBlocks h (fun x hx => .inr (.inl hx))
    (hall.imp fun g b hb => ⟨hb.leftBegin, hb.left⟩)
  obtain ⟨hofr, hmader⟩ := hcuts.ofRight.sideBlocks h (fun x hx => .inr (.inr hx))
    (hall.imp fun g b hb => ⟨hb.rightBegin, hb.right⟩)
  rw [lines_flatten] at hofl hofr
  have hmadeb : ∀ b ∈ plan.blocks,
      MadeOf (LineOf (lines base) (lines left) (lines right)) b.base := by
    obtain ⟨ranges, h1, -, -⟩ := hcuts.ofBase.ranges
    intro b hb
    obtain ⟨i, hi, rfl⟩ := mem_iff_getElem.mp hb
    have hi' : i < merged.regions.length := by rw [hall.length_eq]; exact hi
    have hget := (hall.get hi' hi).base
    have hget' := (h1.get hi' (by rw [← h1.length_eq]; exact hi')).2
    simp only [get_eq_getElem] at hget hget'
    rw [hget, hget']
    exact madeOf_append (fun x hx => .inl hx) _ _
  obtain ⟨hres, hord⟩ := hcuts.ofBase.results
  refine ⟨⟨hofl, hofr, fun b hb choice bytes hc =>
    h.insertable (hmadel b hb) (hmader b hb) (hmadeb b hb) hc⟩, ?_⟩
  rw [hinit]
  refine ⟨?_, pairwise_map.mpr (hord.imp fun hg _ _ => hg)⟩
  rw [forall₂_map_left_iff, forall₂_iff_zip]
  rw [forall₂_iff_zip] at hall
  refine ⟨hall.1, fun {g b} hgb => ?_⟩
  have hg := (of_mem_zip hgb).1
  have hb := hall.2 hgb
  obtain ⟨-, h2, h3⟩ := hres g hg
  have hreg := hcuts.regions g hg
  refine ⟨fun _ => ⟨h2, h3⟩, fun _ => ⟨h.cut _ _ (h2.trans h3) hreg.starts.1,
    h.cut _ _ h3 hreg.starts.2⟩, fun _ bytes hp => ?_, nofun, fun hbase => ?_⟩
  · rcases ho : g.origin with _ | _ | _
    · simp [stateOf, ho, choiceOf, promised] at hp
    · simp only [stateOf, ho, choiceOf, promised, Option.mem_def, Option.some.injEq] at hp
      rw [← hp, hb.left]
      exact hreg.ofLeft ho
    · simp only [stateOf, ho, choiceOf, promised, Option.mem_def, Option.some.injEq] at hp
      rw [← hp, hb.right]
      exact hreg.ofRight ho
  · rcases ho : g.origin with _ | _ | _ <;> simp [stateOf, ho, choiceOf] at hbase

end Hc.Compare
