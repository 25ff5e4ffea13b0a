import HyperCommander.Compare.DecisionPlan
import HyperCommander.Compare.MergeModelLemmas
import HyperCommander.Compare.MergePlanLemmas
import HyperCommander.Lib.Agree

/-!
# Decision plans and the editor

Both ways of deciding a merge replace pieces of the seed text:

* `applyChoices_yields`: the stream of `ApplyDecisionPlan` writes the gaps of the seed and the
  chosen pieces (`Streamed`).
* `Laid.choose`: a decision in the editor puts the piece of its block there and moves the rest.
* `decisions_agree`: both end with the same text and the same ranges, in any order of the blocks.
-/

namespace Hc.Compare

open List Slice MergeModel Outcome Segments

/-- The result range of a block. -/
def BlockState.range (s : BlockState) : Nat × Nat := (s.begin_, s.end_)

/-! ## The stream -/

/-- What a decision needs to be possible, and the text it gives to block `i`. -/
structure Choosable (plan : MergePlan) (i : Nat) (s : BlockState) (r : Resolution) (new : Bytes) :
    Prop where
  block : ∃ b, plan.blocks[i]? = some b ∧ b.id = i + 1 ∧ choiceText b r = .ok new
  mapped : s.mapped = true
  base : ¬ (r = .unresolved ∨ r = .base ∧ plan.hasBase = false)

/-- The blocks from `i` on, streamed out of the seed text from position `c` on: the gaps before them
and their new pieces. -/
inductive Streamed (plan : MergePlan) (text : Bytes) : (i c : Nat) → List BlockState →
    List Resolution → List (Bytes × Bytes) → (c' : Nat) → Prop
  | nil {i c} : Streamed plan text i c [] [] [] c
  | cons {i c c' s ss r rs new segs} (before : c ≤ s.begin_) (order : s.begin_ ≤ s.end_)
    (inside : s.end_ ≤ text.length)
    (kept : r = .unresolved → new = slice text s.begin_ s.end_)
    (chosen : r ≠ .unresolved → r ≠ .manual → Choosable plan i s r new)
    (rest : Streamed plan text (i + 1) s.end_ ss rs segs c') :
    Streamed plan text i c (s :: ss) (r :: rs) ((slice text c s.begin_, new) :: segs) c'

theorem appendResult_yields (output bytes : Bytes) :
    Yields (fun _ => True) (appendResult output bytes) fun out => out = output ++ bytes :=
  throwIf_past fun _ => .pure rfl

theorem prepare_choosable {m : MergeModel} {i : Nat} {s : BlockState} {r : Resolution}
    {edit : BlockEdit} (hs : m.state[i]? = some s)
    (h : m.prepare (i + 1) m.revision r = .ok edit) : Choosable m.plan i s r edit.replacement := by
  simp only [prepare, bind_eq_ok, failIf_eq_ok, pure_eq_ok] at h
  obtain ⟨-, -, p, hp, -, hm, -, hc, bytes, hb, rfl⟩ := h
  unfold index at hp
  rw [Nat.add_sub_cancel, hs] at hp
  cases hblock : m.plan.blocks[i]? with
  | none =>
    rw [hblock] at hp
    cases hp
  | some b =>
    rw [hblock] at hp
    simp only [bind_eq_ok, failIf_eq_ok, pure_eq_ok] at hp
    obtain ⟨-, hid, rfl⟩ := hp
    exact ⟨⟨b, hblock, by omega, hb⟩, by simpa using hm, hc⟩

theorem chosenText_yields {m : MergeModel} {text manual : Bytes} {i : Nat} {s : BlockState}
    (r : Resolution) (hs : m.state[i]? = some s) :
    Yields (fun _ => True) (chosenText m text manual i s r) fun new =>
      (r = .unresolved → new = slice text s.begin_ s.end_) ∧
        (r ≠ .unresolved → r ≠ .manual → Choosable m.plan i s r new) := by
  by_cases hu : r = .unresolved
  · subst hu
    exact .pure ⟨fun _ => rfl, fun h => absurd rfl h⟩
  by_cases hm : r = .manual
  · subst hm
    exact .pure ⟨fun h => absurd h hu, fun _ h => absurd rfl h⟩
  cases h : m.prepare (i + 1) m.revision r with
  | error e =>
    have hr : chosenText m text manual i s r = throw e := by
      unfold chosenText
      cases r <;> first | exact absurd rfl hu | exact absurd rfl hm | (dsimp only; rw [h])
    rw [hr]
    exact .fail trivial
  | ok edit =>
    have hr : chosenText m text manual i s r = pure edit.replacement := by
      unfold chosenText
      cases r <;> first | exact absurd rfl hu | exact absurd rfl hm | (dsimp only; rw [h])
    rw [hr]
    exact .pure ⟨fun h' => absurd h' hu, fun _ _ => prepare_choosable hs h⟩

theorem readChoice_yields (hasBase : Bool) (choice reference : QJson) :
    Yields (fun _ => True) (readChoice hasBase choice reference) fun read =>
      read.1 = decisionOf choice := by
  refine throwIf_past fun _ => ?_
  refine throwIf_past fun _ => ?_
  refine throwIf_past fun _ => ?_
  unfold decisionOf
  cases choiceNames.find? fun c => c.1 == (choice.toFields.value "choice").toText with
  | none => exact .fail trivial
  | some c => exact throwIf_past fun _ => .pure rfl

/-- The loop streams the blocks from `i` on. -/
theorem applyChoices_yields {limits : Budget} {m : MergeModel} {text : Bytes} {i : Nat}
    {pairs : List (QJson × QJson)} {a : Applied} (hlen : m.state.length = i + pairs.length)
    (hinit : a.initial.length = m.state.length) (horder : ∀ s ∈ m.state, s.begin_ ≤ s.end_) :
    Yields (fun _ => True) (applyChoices limits m text i pairs a) fun out => ∃ segs,
      Streamed m.plan text i a.cursor (m.state.drop i) (pairs.map fun p => decisionOf p.1) segs
        out.cursor ∧
      out.output = a.output ++ render [] segs ∧ out.initial.length = a.initial.length ∧
      (∀ j < i, out.initial[j]? = a.initial[j]?) ∧
      ∀ j p, (spans a.output.length segs)[j]? = some p →
        out.initial[i + j]?.map BlockState.range = some p := by
  induction pairs generalizing i a with
  | nil =>
    refine .pure ⟨[], ?_, (append_nil _).symm, rfl, fun _ _ => rfl, fun j p h => ?_⟩
    · rw [drop_of_length_le (by simpa using hlen.le)]
      exact .nil
    · cases h
  | cons pair pairs ih =>
    obtain ⟨choice, reference⟩ := pair
    rw [length_cons] at hlen
    have hi : i < m.state.length := by omega
    obtain ⟨s, hs⟩ : ∃ s, m.state[i]? = some s := ⟨_, getElem?_eq_getElem hi⟩
    have hsorder := horder s (mem_of_getElem? hs)
    refine (Budget.check_yields fun _ _ => trivial).skip fun _ => ?_
    refine (readChoice_yields _ choice reference).bind fun read hread => ?_
    rw [hs]
    refine throwIf_past fun hrange => ?_
    refine (appendResult_yields _ _).bind fun before hbefore => ?_
    refine (chosenText_yields read.1 hs).bind fun new hnew => ?_
    refine (appendResult_yields _ _).bind fun output houtput => ?_
    refine (ih (by omega) (by simpa using hinit)).weaken fun out ho => ?_
    obtain ⟨segs, h1, h2, h3, h4, h5⟩ := ho
    have hb : before.length = a.output.length + (slice text a.cursor s.begin_).length := by
      rw [hbefore, length_append]
    have he : output.length =
        a.output.length + (slice text a.cursor s.begin_).length + new.length := by
      rw [houtput, length_append, hb]
    refine ⟨(slice text a.cursor s.begin_, new) :: segs, ?_, ?_, ?_, ?_, ?_⟩
    · rw [map_cons, ← hread, ← cons_getElem_drop_succ (h := hi),
        Option.some.inj ((getElem?_eq_getElem hi).symm.trans hs)]
      exact .cons (by omega) hsorder (by omega) hnew.1 hnew.2 h1
    · rw [h2, houtput, hbefore, render]
      simp
    · rw [h3, length_set]
    · intro j hj
      rw [h4 j (by omega), getElem?_set_ne (by omega)]
    · intro j p hp
      rw [spans] at hp
      cases j with
      | zero =>
        rw [Nat.add_zero, h4 i (by omega), getElem?_set_self (by omega), ← Option.some.inj hp]
        simp only [Option.map_some, BlockState.range, hb, he]
      | succ j =>
        rw [show i + (j + 1) = i + 1 + j by omega]
        exact h5 j p (by rw [he]; exact hp)

section Streamed

variable {plan : MergePlan} {text : Bytes} {i c c' : Nat} {ss : List BlockState}
  {rs : List Resolution} {segs : List (Bytes × Bytes)}

theorem Streamed.ordered (h : Streamed plan text i c ss rs segs c') :
    Segments.Ordered c (ss.map BlockState.range) ∧ endOf c (ss.map BlockState.range) = c' := by
  induction h with
  | nil => exact ⟨trivial, rfl⟩
  | cons before order inside kept chosen rest ih => exact ⟨⟨before, order, ih.1⟩, ih.2⟩

theorem Streamed.end_le (h : Streamed plan text i c ss rs segs c') (hc : c ≤ text.length) :
    c' ≤ text.length := by
  induction h with
  | nil => exact hc
  | cons before order inside kept chosen rest ih => exact ih inside

theorem Streamed.length_eq (h : Streamed plan text i c ss rs segs c') :
    ss.length = segs.length := by
  induction h with
  | nil => rfl
  | cons before order inside kept chosen rest ih => rw [length_cons, ih, length_cons]

/-- The gaps are those of the seed, and so are the pieces that nothing was chosen for. -/
theorem Streamed.piece (h : Streamed plan text i c ss rs segs c') (j : Nat) :
    match (cut text c (ss.map BlockState.range))[j]? with
    | none => segs[j]? = none
    | some s => ∃ new r, segs[j]? = some (s.1, new) ∧ rs[j]? = some r ∧
        (r = .unresolved → new = s.2) := by
  induction h generalizing j with
  | nil => rfl
  | cons before order inside kept chosen rest ih =>
    cases j with
    | zero => exact ⟨_, _, rfl, rfl, kept⟩
    | succ j => exact ih j

theorem Streamed.choosable (h : Streamed plan text i c ss rs segs c') {j : Nat} {r : Resolution}
    (hr : rs[j]? = some r) (hu : r ≠ .unresolved) (hm : r ≠ .manual) :
    ∃ s seg, segs[j]? = some seg ∧ Choosable plan (i + j) s r seg.2 := by
  induction h generalizing j with
  | nil => cases hr
  | @cons i c c' s ss r' rs new segs before order inside kept chosen rest ih =>
    cases j with
    | zero =>
      obtain rfl := Option.some.inj hr
      exact ⟨_, _, rfl, chosen hu hm⟩
    | succ j =>
      obtain ⟨s, seg, h1, h2⟩ := ih hr
      exact ⟨s, seg, h1, by rwa [show i + 1 + j = i + (j + 1) by omega] at h2⟩

end Streamed

/-! ## The editor -/

/-- The editor shows the gaps and pieces, and its blocks cover the pieces. -/
structure Laid (plan : MergePlan) (tail : Bytes) (segs : List (Bytes × Bytes)) (e : Editor) :
    Prop where
  plan : e.model.plan = plan
  text : e.text = render tail segs
  ranges : e.model.state.map BlockState.range = spans 0 segs
  mapped : ∀ s ∈ e.model.state, s.mapped = true

/-- The ranges after a decision. -/
theorem range_applyAt {states : List BlockState} {segs : List (Bytes × Bytes)} {i : Nat}
    {s : BlockState} {edit : BlockEdit} (hs : states[i]? = some s)
    (hr : states.map BlockState.range = spans 0 segs) (hm : ∀ s ∈ states, s.mapped = true)
    (hman : edit.resolution ≠ .manual) :
    (applyAt states i edit).map BlockState.range = spans 0 (put segs i edit.replacement) ∧
      ∀ t ∈ applyAt states i edit, t.mapped = true := by
  have hspan : (spans 0 segs)[i]? = some (s.begin_, s.end_) := by
    rw [← hr, getElem?_map, hs]
    rfl
  have hsm := hm s (mem_of_getElem? hs)
  unfold applyAt
  rw [hs]
  dsimp only
  rw [if_neg hman]
  constructor
  · rw [spans_put hspan, ← hr, map_append, map_cons, map_map, ← map_take,
      ← map_drop, map_map]
    refine congrArg _ (congrArg _ (map_congr_left fun t ht => ?_))
    -- Ranges behind the replaced one begin behind the removed bytes.
    have hbehind : s.end_ ≤ t.begin_ ∧ t.begin_ ≤ t.end_ := by
      have hsplit := ordered_spans 0 segs
      rw [← hr, list_split hs, map_append, map_cons] at hsplit
      exact (hsplit.drop_cons).mem _ (mem_map.mpr ⟨t, ht, rfl⟩)
    have htm := hm t (mem_of_mem_drop ht)
    simp only [Function.comp_apply, shiftBlock, htm, if_true, BlockState.range]
    rw [shift_eq (by omega), shift_eq (by omega)]
  · intro t ht
    rcases mem_append.mp ht with ht | ht
    · exact hm t (mem_of_mem_take ht)
    · rcases mem_cons.mp ht with rfl | ht
      · exact hsm
      · obtain ⟨u, hu, rfl⟩ := mem_map.mp ht
        have hum := hm u (mem_of_mem_drop hu)
        simp [shiftBlock, hum]

/-- A decision in the editor puts the text there. -/
theorem Laid.choose {plan : MergePlan} {tail left right new : Bytes} {segs : List (Bytes × Bytes)}
    {e : Editor} {i : Nat} {s : BlockState} {r : Resolution} (h : Laid plan tail segs e)
    (next : Nat) (hi : i < segs.length) (hc : Choosable plan i s r new) (hman : r ≠ .manual) :
    ∃ e', e.act left right next (.choose (i + 1) e.model.revision r) = .ok e' ∧
      Laid plan tail (put segs i new) e' := by
  obtain ⟨b, hb, hid, htext⟩ := hc.block
  have hlen : i < e.model.state.length := by
    rw [← length_map (f := BlockState.range), h.ranges, length_spans]
    exact hi
  obtain ⟨t, ht⟩ : ∃ t, e.model.state[i]? = some t := ⟨_, getElem?_eq_getElem hlen⟩
  have hmapped := h.mapped t (mem_of_getElem? ht)
  have hspan : (spans 0 segs)[i]? = some (t.begin_, t.end_) := by
    rw [← h.ranges, getElem?_map, ht]
    rfl
  let edit : BlockEdit := ⟨i + 1, e.model.revision, t.begin_, t.end_, r, new⟩
  have hindex : e.model.index (i + 1) = .ok (t, b) := by
    unfold index
    rw [Nat.add_sub_cancel, ht, h.plan, hb]
    dsimp only
    rw [failIf_of_not (by omega)]
    rfl
  have hprepare : e.model.prepare (i + 1) e.model.revision r = .ok edit := by
    unfold prepare
    rw [failIf_of_not (by simp), ok_bind, hindex, ok_bind,
      failIf_of_not (by simp [hmapped]), ok_bind,
      h.plan, failIf_of_not hc.base, ok_bind, htext]
    rfl
  have happly : e.model.apply edit next =
      .ok { e.model with state := applyAt e.model.state i edit, revision := next } := by
    unfold MergeModel.apply
    rw [hprepare, ok_bind, failIf_of_not (by simp), ok_bind]
    rfl
  obtain ⟨hr, hm⟩ : (applyAt e.model.state i edit).map BlockState.range =
      spans 0 (put segs i new) ∧ ∀ t ∈ applyAt e.model.state i edit, t.mapped = true :=
    range_applyAt ht h.ranges h.mapped hman
  refine ⟨.remember { e.model with state := applyAt e.model.state i edit, revision := next }
    (splice e.text t.begin_ (t.end_ - t.begin_) new) e.history, ?_, h.plan, ?_, hr, hm⟩
  · unfold Editor.act
    dsimp only
    rw [hprepare, ok_bind, happly, ok_bind, if_neg hman]
    rfl
  · have hsplice : splice ([] ++ render tail segs) t.begin_ (t.end_ - t.begin_) new =
        [] ++ render tail (put segs i new) := splice_render hspan rfl
    rw [nil_append, nil_append] at hsplice
    exact (congrArg (splice · _ _ _) h.text).trans hsplice

/-- Decisions in the editor, one block after another. -/
theorem Laid.chooseEach {plan : MergePlan} {tail left right : Bytes} {segs : List (Bytes × Bytes)}
    {e : Editor} {order : List Nat} {choices : Nat → Resolution} {new : Nat → Bytes}
    (revisions : Nat → Nat) (n : Nat) (h : Laid plan tail segs e)
    (hc : ∀ i ∈ order, i < segs.length ∧ choices i ≠ .manual ∧
      ∃ s, Choosable plan i s (choices i) (new i)) :
    ∃ e', chooseEach left right revisions choices n order e = .ok e' ∧
      Laid plan tail (order.foldl (fun segs i => put segs i (new i)) segs) e' := by
  induction order generalizing segs e n with
  | nil => exact ⟨e, rfl, h⟩
  | cons i order ih =>
    obtain ⟨hi, hman, s, hs⟩ := hc i mem_cons_self
    obtain ⟨e₁, he₁, h₁⟩ := h.choose (revisions n) hi hs hman
    obtain ⟨e₂, he₂, h₂⟩ := ih (n + 1) h₁ fun j hj => by
      rw [put, length_modify]
      exact hc j (mem_cons_of_mem _ hj)
    refine ⟨e₂, ?_, h₂⟩
    unfold Compare.chooseEach
    rw [he₁, ok_bind, he₂]

/-! ## Plans -/

/-- What both plan makers see to: every block has a range, and it is known. -/
structure MergePlan.Seeded (plan : MergePlan) : Prop where
  length : plan.initial.length = plan.blocks.length
  mapped : ∀ s ∈ plan.initial, s.mapped = true

theorem MergePlan.Seeded.push {plan : MergePlan} (h : plan.Seeded) (block : MergeBlock) (b e : Nat)
    (r : Resolution) : MergePlan.Seeded { plan with
      blocks := plan.blocks ++ [block], initial := plan.initial ++ [⟨b, e, r, true⟩] } := by
  refine ⟨by simp [h.length], fun s hs => ?_⟩
  rcases mem_append.mp hs with hs | hs
  · exact h.mapped s hs
  · rw [mem_singleton.mp hs]

theorem twoWayPlan_seeded (expired : Nat → Bool) (left right : Bytes) (edits : List Edit)
    (first : Resolution) :
    Yields (fun _ => True) (twoWayPlan expired left right edits first) MergePlan.Seeded := by
  refine .past fun _ => .past fun _ => ?_
  refine Yields.foldlM ⟨rfl, fun s hs => by cases hs⟩ fun plan edit _ hp => ?_
  refine .past fun _ => .past fun _ => .past fun _ =>
    .past fun _ => Yields.pure (hp.push _ _ _ _)

theorem threeWayPlan_seeded (expired : Nat → Bool) (base left right : Bytes)
    (merged : MergeResult) :
    Yields (fun _ => True) (threeWayPlan expired base left right merged) MergePlan.Seeded := by
  refine .past fun _ => .past fun _ => .past fun _ => ?_
  refine Yields.foldlM ⟨rfl, fun s hs => by cases hs⟩ fun plan region _ hp => ?_
  refine .past fun _ => .past fun _ => .past fun _ =>
    .past fun _ => .past fun _ => .past fun _ =>
      .past fun _ => .past fun _ => Yields.pure (hp.push _ _ _ _)

/-- What `MakeDecisionPlan` checked of the ranges, and how many blocks it lists. -/
theorem planBlocks_yields {qt : Qt} {limits : Budget} {hasBase : Bool} {generation : String}
    {initial : Bytes} {i : Nat} {blocks : List MergeBlock} {ranges : List BlockState} :
    Yields (fun _ => True) (planBlocks qt limits hasBase generation initial i blocks ranges)
      fun out => out.length = blocks.length ∧
        ∀ s ∈ ranges.take blocks.length, s.begin_ ≤ s.end_ := by
  induction blocks generalizing i ranges with
  | nil => exact .pure ⟨rfl, fun s hs => by cases hs⟩
  | cons block blocks ih =>
    cases ranges with
    | nil => exact .fail trivial
    | cons range ranges =>
      refine .past fun _ => ?_
      refine throwIf_past fun hrange => ?_
      refine ih.bind fun more hm => .pure ⟨?_, fun s hs => ?_⟩
      · rw [length_cons, length_cons, hm.1]
      · rw [length_cons, take_succ_cons] at hs
        rcases mem_cons.mp hs with rfl | hs
        · omega
        · exact hm.2 s hs

theorem Fields.value_insert (o : Fields) (key : String) (v : QJson) :
    (o.insert key v).value key = v := by
  induction o with
  | nil => simp [Fields.insert, Fields.value]
  | cons f rest ih =>
    unfold Fields.insert
    by_cases h : key = f.1
    · simp [h, Fields.value]
    · rw [if_neg h]
      split
      · simp [Fields.value]
      · have hne : (f.1 == key) = false := by simpa using Ne.symm h
        unfold Fields.value at ih ⊢
        rw [find?_cons, hne]
        exact ih

theorem makeDecisionPlan_yields (qt : Qt) (limits : Budget) (input : Request) (session : Session) :
    Yields (fun _ => True) (makeDecisionPlan qt limits input session) fun made =>
      session.plan = some made.1 ∧
        (made.2.value "blocks").toValues.length = made.1.blocks.length ∧
        ∀ s ∈ made.1.initial.take made.1.blocks.length, s.begin_ ≤ s.end_ := by
  refine throwIf_past fun _ => ?_
  have hidentity : Yields (fun _ => True) (decisionIdentity qt limits input session) fun found =>
      session.plan = some found.1 := by
    unfold decisionIdentity
    cases hplan : session.plan with
    | none => exact .fail trivial
    | some plan =>
      refine throwIf_past fun _ => ?_
      refine throwIf_past fun _ => ?_
      exact .past fun _ => Yields.pure rfl
  refine hidentity.bind fun found hfound => ?_
  refine planBlocks_yields.bind fun blocks hblocks => .pure ⟨hfound, ?_, hblocks.2⟩
  rw [Fields.value_insert]
  exact hblocks.1

/-- What `ApplyDecisionPlan` returns. -/
theorem applyDecisionPlan_yields (qt : Qt) (limits : Budget) (revision : Nat) (input : Request)
    (session : Session) (document : Fields) {plan : MergePlan} (hplan : session.plan = some plan)
    (hseeded : plan.Seeded) :
    Yields (fun _ => True) (applyDecisionPlan qt limits revision input session document) fun out =>
      ∃ segs c' initial,
        Streamed plan (seed session plan) 0 0 plan.initial (decisions document) segs c' ∧
        out.output = render ((seed session plan).drop c') segs ∧
        out.plan = some { plan with initial := initial } ∧
        initial.map BlockState.range = spans 0 segs := by
  refine (makeDecisionPlan_yields qt limits input session).bind fun made hmade => ?_
  obtain ⟨hsome, hblocks, horder⟩ := hmade
  obtain rfl : made.1 = plan := Option.some.inj (hsome.symm.trans hplan)
  rw [← hseeded.length, take_length] at horder
  refine throwIf_past fun _ => ?_
  refine throwIf_past fun _ => ?_
  refine throwIf_past fun _ => ?_
  refine throwIf_past fun _ => ?_
  refine throwIf_past fun hlen => ?_
  have hlen : (document.value "blocks").toValues.length = made.1.initial.length := by
    rw [hseeded.length, ← hblocks]
    omega
  have hpairs : ((document.value "blocks").toValues.zip (made.2.value "blocks").toValues).length =
      made.1.initial.length := by
    rw [length_zip]
    omega
  have hzip : ((document.value "blocks").toValues.zip (made.2.value "blocks").toValues).map
      (fun p => decisionOf p.1) = decisions document := by
    have hfst : ((document.value "blocks").toValues.zip
        (made.2.value "blocks").toValues).map Prod.fst = (document.value "blocks").toValues :=
      map_fst_zip (by omega)
    exact map_map.symm.trans (congrArg (map decisionOf) hfst)
  have hrun : Yields (fun _ => True) (applyChoices limits (.new made.1 revision)
      (seed session made.1) 0 ((document.value "blocks").toValues.zip
        (made.2.value "blocks").toValues) { initial := made.1.initial }) _ :=
    applyChoices_yields (by rw [hpairs, Nat.zero_add]; rfl) rfl horder
  refine hrun.bind fun a ha => ?_
  obtain ⟨segs, h1, h2, h3, -, h5⟩ := ha
  rw [hzip] at h1
  refine (appendResult_yields _ _).bind fun output ho => ?_
  refine (Budget.check_yields fun _ _ => trivial).skip fun _ => .pure ?_
  refine ⟨segs, a.cursor, a.initial, h1, ?_, rfl, ?_⟩
  · rw [ho, h2, slice_to_length]
    exact (render_tail _ segs).symm
  · apply ext_getElem?
    intro j
    rw [getElem?_map]
    cases hj : (spans 0 segs)[j]? with
    | none =>
      have hlen := h1.length_eq
      rw [getElem?_eq_none_iff, length_spans] at hj
      have hnone : a.initial[j]? = none := by
        rw [getElem?_eq_none_iff, h3]
        exact hlen.trans_le hj
      rw [hnone]
      rfl
    | some p =>
      have := h5 j p hj
      rwa [Nat.zero_add] at this

/-- The result and the ranges of a decision plan are what the editor gets from the seed text with
the chosen blocks decided one after another, in any order. -/
theorem decisions_agree {qt : Qt} {limits : Budget} {revision : Nat} {input : Request}
    {session out : Session} {plan : MergePlan} {document : Fields}
    (hplan : session.plan = some plan)
    (hmade : (∃ expired left right edits first,
        Returns (twoWayPlan expired left right edits first) plan) ∨
      ∃ expired base left right merged, Returns (threeWayPlan expired base left right merged) plan)
    (hout : Returns (applyDecisionPlan qt limits revision input session document) out)
    (hmanual : Resolution.manual ∉ decisions document) {order : List Nat}
    (horder : ∀ i, i ∈ order ↔ ∃ r, (decisions document)[i]? = some r ∧ r ≠ .unresolved)
    (left right : Bytes) (start : Nat) (revisions : Nat → Nat) :
    ∃ e plan', chooseEach left right revisions (fun i => (decisions document).getD i .unresolved) 0
        order (.start plan start (seed session plan)) = .ok e ∧
      e.text = out.output ∧ out.plan = some plan' ∧
      e.model.state.map BlockState.range = plan'.initial.map BlockState.range := by
  have hseeded : plan.Seeded := by
    rcases hmade with ⟨_, _, _, _, _, h⟩ | ⟨_, _, _, _, _, h⟩
    · exact (twoWayPlan_seeded _ _ _ _ _).of_returns h
    · exact (threeWayPlan_seeded _ _ _ _ _).of_returns h
  obtain ⟨segs, c', initial, hstream, htext, hplan', hranges⟩ :=
    (applyDecisionPlan_yields qt limits revision input session document hplan
      hseeded).of_returns hout
  obtain ⟨hordered, hend⟩ := hstream.ordered
  -- The editor starts with the seed cut at the ranges of the plan.
  have hlaid : Laid plan ((seed session plan).drop c')
      (cut (seed session plan) 0 (plan.initial.map BlockState.range))
      (.start plan start (seed session plan)) := by
    refine ⟨rfl, ?_, ?_, hseeded.mapped⟩
    · rw [← hend, render_cut hordered]
      rfl
    · rw [spans_cut hordered (hend ▸ hstream.end_le (Nat.zero_le _))]
      rfl
  have hchosen : ∀ i ∈ order,
    i < (cut (seed session plan) 0 (plan.initial.map BlockState.range)).length ∧
      (decisions document).getD i .unresolved ≠ .manual ∧ ∃ s, Choosable plan i s
        ((decisions document).getD i .unresolved) ((segs[i]?.map Prod.snd).getD []) := by
    intro i hi
    obtain ⟨r, hr, hu⟩ := (horder i).mp hi
    have hm : r ≠ .manual := fun h => hmanual (h ▸ mem_of_getElem? hr)
    obtain ⟨s, seg, hseg, hs⟩ := hstream.choosable hr hu hm
    rw [getD_eq_getElem?_getD, hr, hseg]
    refine ⟨?_, hm, s, by rwa [Nat.zero_add] at hs⟩
    by_contra hlen
    have hpiece := hstream.piece i
    rw [getElem?_eq_none (by omega), hseg] at hpiece
    cases hpiece
  obtain ⟨e, he, h⟩ := hlaid.chooseEach revisions 0 hchosen
  have hsegs : order.foldl (fun segs' i => put segs' i ((segs[i]?.map Prod.snd).getD []))
      (cut (seed session plan) 0 (plan.initial.map BlockState.range)) = segs := by
    apply ext_getElem?
    intro j
    have hpiece := hstream.piece j
    rw [getElem?_foldl_put]
    cases hj : (cut (seed session plan) 0 (plan.initial.map BlockState.range))[j]? with
    | none =>
      rw [hj] at hpiece
      rw [hpiece]
      exact ite_self _
    | some s =>
      rw [hj] at hpiece
      obtain ⟨new, r, h1, h2, h3⟩ := hpiece
      rw [h1]
      by_cases hmem : j ∈ order
      · rw [if_pos hmem]
        rfl
      · have hr : r = .unresolved := by
          by_contra hu
          exact hmem ((horder j).mpr ⟨r, h2, hu⟩)
        rw [if_neg hmem, h3 hr]
  rw [hsegs] at h
  exact ⟨e, _, he, h.text.trans htext.symm, hplan', h.ranges.trans hranges.symm⟩

/-- The texts `a k b` and `x k y`, a line each. -/
def sampleLeft : Bytes := [97, 10, 107, 10, 98, 10]

def sampleRight : Bytes := [120, 10, 107, 10, 121, 10]

/-- The digests and texts of one session. -/
def sampleQt : Qt where
  digest bytes :=
    if bytes = sampleLeft then "13aa824fad3d2f60e3a8742c4acbecffceb97fe18d40fcd672da5758774ddd41"
    else if bytes = sampleRight then
      "0b355219f569433c6391c37e1db8afb59745f50d7987d52d8800d14617d86cf2"
    else if bytes = [97, 10] then "87428fc522803d31065e7bce3cf03fe475096631e5e07bbd7a0fde60c4cf25c7"
    else if bytes = [98, 10] then "0263829989b6fd954f72baaf2fc64bc2e2f01d692d4de72986ea808f6e99813f"
    else if bytes.length = 83 then
      "a534e30b2d95878b71fb3f3aade6de10343e37afebfae3167a3c80f801ae3c7c"
    else if bytes.length = 445 then
      "5e00a473114ea17b2de8634b1163eb74bf37be1122ea41fc0e28c666a09972b7"
    else if bytes[65]? = some 48 then
      "3119bbb189ad5bf7d5357f29f0e8e27483282743e238ff69ff258216503e3378"
    else "1c2ed1cac13d2cfb6bef9331f484bed650fcb6f506b07e5ba26419799d91bf9e"
  compact fields :=
    if (fields.value "kind").isText then utf8 (
      "\x7b\"engineVersion\":\"myers-bounded-4\",\"inputs\":[\x7b\"bom\":false," ++
      "\"encoding\":\"UTF-8\",\"path\":\"l\",\"role\":\"left\",\"sha256\":\"" ++
      "13aa824fad3d2f60e3a8742c4acbecffceb97fe18d40fcd672da5758774ddd41\"\x7d," ++
      "\x7b\"bom\":false,\"encoding\":\"UTF-8\",\"path\":\"r\",\"role\":\"right\",\"sha256\":\"" ++
      "0b355219f569433c6391c37e1db8afb59745f50d7987d52d8800d14617d86cf2\"\x7d]," ++
      "\"kind\":\"text-merge-decisions\",\"policyDigest\":\"" ++
      "a534e30b2d95878b71fb3f3aade6de10343e37afebfae3167a3c80f801ae3c7c\",\"schemaVersion\":1\x7d")
    else utf8 ("\x7b\"comparison\":\"exact-lines-v1\",\"encoding\":\"\"," ++
      "\"outputEncoding\":\"left\",\"seed\":\"left\"\x7d")

def samplePlan : MergePlan where
  blocks := [⟨1, 0, 0, 0, 0, 0, 0, [97, 10], [120, 10], [], false⟩,
    ⟨2, 4, 4, 0, 2, 2, 0, [98, 10], [121, 10], [], false⟩]
  initial := [⟨0, 2, .unresolved, true⟩, ⟨4, 6, .unresolved, true⟩]

def sampleSession : Session where
  inputs := [⟨"l", "UTF-8", sampleLeft, sampleLeft, false⟩,
    ⟨"r", "UTF-8", sampleRight, sampleRight, false⟩]
  merged := {}
  plan := some samplePlan

def sampleSide (role path digest : String) : QJson :=
  .object [("bom", .bool false), ("encoding", .string "UTF-8"), ("path", .string path),
    ("role", .string role), ("sha256", .string digest)]

def sampleBlock (line : Int) (changeId spanDigest choice : String) : QJson :=
  .object [("baseLine", .number 0), ("changeId", .string changeId), ("choice", .string choice),
    ("expectedSpanDigest", .string spanDigest), ("leftLine", .number line),
    ("replacement", .string ""), ("rightLine", .number line)]

/-- The document of the session with both sides chosen for the first block, and the right one for
the second. -/
def sampleDocument : Fields :=
  [("blocks", .array [
      sampleBlock 1 "3119bbb189ad5bf7d5357f29f0e8e27483282743e238ff69ff258216503e3378"
        "87428fc522803d31065e7bce3cf03fe475096631e5e07bbd7a0fde60c4cf25c7" "leftThenRight",
      sampleBlock 3 "1c2ed1cac13d2cfb6bef9331f484bed650fcb6f506b07e5ba26419799d91bf9e"
        "0263829989b6fd954f72baaf2fc64bc2e2f01d692d4de72986ea808f6e99813f" "right"]),
    ("engineVersion", .string "myers-bounded-4"),
    ("generation", .string "5e00a473114ea17b2de8634b1163eb74bf37be1122ea41fc0e28c666a09972b7"),
    ("inputs", .array [
      sampleSide "left" "l" "13aa824fad3d2f60e3a8742c4acbecffceb97fe18d40fcd672da5758774ddd41",
      sampleSide "right" "r" "0b355219f569433c6391c37e1db8afb59745f50d7987d52d8800d14617d86cf2"]),
    ("kind", .string "text-merge-decisions"),
    ("policyDigest",
      .string "a534e30b2d95878b71fb3f3aade6de10343e37afebfae3167a3c80f801ae3c7c"),
    ("schemaVersion", .number 1)]

theorem sampleDocument_applies : ∃ out,
    Returns (applyDecisionPlan sampleQt .unlimited 1 ⟨"", ""⟩ sampleSession sampleDocument) out ∧
      out.output = [97, 10, 120, 10, 107, 10, 121, 10] := by
  have hrun : ((applyDecisionPlan sampleQt .unlimited 1 ⟨"", ""⟩ sampleSession sampleDocument).run
      {}).map (fun r => r.1.output) = .ok [97, 10, 120, 10, 107, 10, 121, 10] := by
    decide +kernel
  cases h : (applyDecisionPlan sampleQt .unlimited 1 ⟨"", ""⟩ sampleSession
    sampleDocument).run {} with
  | error e =>
    rw [h] at hrun
    cases hrun
  | ok r =>
    rw [h] at hrun
    exact ⟨r.1, ⟨_, r.2, h⟩, Except.ok.inj hrun⟩

/-- The second block is decided before the first one, which then grows. -/
theorem decisions_agree_right : ∃ out e plan',
    Returns (applyDecisionPlan sampleQt .unlimited 1 ⟨"", ""⟩ sampleSession sampleDocument) out ∧
    out.output = [97, 10, 120, 10, 107, 10, 121, 10] ∧
    chooseEach sampleLeft sampleRight (· + 3)
      (fun i => (decisions sampleDocument).getD i .unresolved)
      0 [1, 0] (.start samplePlan 2 (seed sampleSession samplePlan)) = .ok e ∧
    e.text = out.output ∧ out.plan = some plan' ∧
    e.model.state.map BlockState.range = plan'.initial.map BlockState.range := by
  obtain ⟨out, hout, htext⟩ := sampleDocument_applies
  have hmade : (twoWayPlan (fun _ => false) sampleLeft sampleRight
      [⟨0, 1, 0, 1, [120, 10]⟩, ⟨2, 3, 2, 3, [121, 10]⟩] .unresolved).run {} =
      .ok (samplePlan, ⟨0, 12⟩) := by
    decide +kernel
  have hdec : decisions sampleDocument = [.leftThenRight, .right] := by decide +kernel
  have horder : ∀ i, i ∈ [1, 0] ↔
      ∃ r, (decisions sampleDocument)[i]? = some r ∧ r ≠ .unresolved := by
    intro i
    rw [hdec]
    rcases i with - | - | i <;> simp
  have hplan : sampleSession.plan = some samplePlan := rfl
  obtain ⟨e, plan', h⟩ := decisions_agree hplan (.inl ⟨_, _, _, _, _, _, _, hmade⟩) hout
    (by rw [hdec]; decide) horder sampleLeft sampleRight 2 (· + 3)
  exact ⟨out, e, plan', hout, htext, h⟩

end Hc.Compare
