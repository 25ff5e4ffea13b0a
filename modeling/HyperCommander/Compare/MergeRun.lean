import HyperCommander.Compare.MergeModelLemmas

/-!
# Runs of the merge editor

* `Editor.act_good`: a safe action keeps the invariant, of the current pair and of all earlier ones.
* `Reaches.good`: so does every run of safe actions.
* `validate_yields`: saved work with the invariant is accepted.
-/

namespace Hc.Compare

open List Slice MergeModel Outcome

section Plan

variable (ok : Bytes → Nat → Prop)

/-- The pieces of one side, where the plan says they are. -/
structure SideBlocks (text : Bytes) (begin_ : MergeBlock → Nat) (bytes : MergeBlock → Bytes)
    (blocks : List MergeBlock) : Prop where
  inside : ∀ b ∈ blocks, begin_ b + (bytes b).length ≤ text.length
  ends : ∀ b ∈ blocks, ok text (begin_ b) ∧ ok text (begin_ b + (bytes b).length)
  cut : ∀ b ∈ blocks, slice text (begin_ b) (begin_ b + (bytes b).length) = bytes b
  ordered : blocks.Pairwise fun a b => begin_ a + (bytes a).length ≤ begin_ b

/-- A text that may stand before any good position. -/
def Insertable (bytes : Bytes) : Prop :=
  ∀ text position removed, position + removed ≤ text.length → ok text (position + removed) →
    Keeps ok text position removed bytes

/-- What a plan of two inputs promises. -/
structure PlanFor (left right : Bytes) (plan : MergePlan) : Prop where
  ofLeft : SideBlocks ok left MergeBlock.leftBegin MergeBlock.left plan.blocks
  ofRight : SideBlocks ok right MergeBlock.rightBegin MergeBlock.right plan.blocks
  insertable : ∀ b ∈ plan.blocks, ∀ choice bytes, choiceText b choice = .ok bytes →
    Insertable ok bytes

/-- The invariant of the pair that is current and of all that undo can bring back. -/
structure GoodEditor (e : Editor) : Prop where
  current : Good ok e.model.plan e.model.state e.text
  earlier : ∀ h ∈ e.history, Good ok e.model.plan h.state h.text

/-- Typing is safe for the ranges and for the good positions. -/
def Safe (e : Editor) : Action → Prop
  | .change position removed inserted =>
    TieSafe e.model.state position removed inserted.length ∧
      (position + removed ≤ e.text.length → Keeps ok e.text position removed inserted)
  | _ => True

end Plan

variable {ok : Bytes → Nat → Prop} {left right : Bytes}

variable {plan : MergePlan} {text : Bytes} {α β γ : Type} {states : List BlockState}

theorem GoodEditor.remember (model : MergeModel)
    {history : List History} (hplan : model.plan = plan) (h : Good ok plan model.state text)
    (hh : ∀ h ∈ history, Good ok plan h.state h.text) :
    (Editor.remember model text history).model.plan = plan ∧
      GoodEditor ok (.remember model text history) := by
  subst hplan
  refine ⟨rfl, h, fun x hx => ?_⟩
  rcases mem_cons.mp hx with rfl | hx
  · exact h
  · exact hh x hx

theorem zipWith_eq_map_right {f : α → β → γ} {g : β → γ} {xs : List α} {ys : List β}
    (hlen : xs.length = ys.length) (h : ∀ x y, f x y = g y) : List.zipWith f xs ys = ys.map g := by
  induction xs generalizing ys with
  | nil => simp [length_eq_zero_iff.mp hlen.symm]
  | cons x xs ih =>
    cases ys with
    | nil => cases hlen
    | cons y ys => simp [h, ih (Nat.succ.inj hlen)]

theorem zipWith_eq_map_left {f : α → β → γ} {g : α → γ} {xs : List α} {ys : List β}
    (hlen : xs.length = ys.length) (h : ∀ x y, f x y = g x) : List.zipWith f xs ys = xs.map g := by
  rw [zipWith_comm]
  exact zipWith_eq_map_right hlen.symm fun x y => h y x

/-- All blocks taken from one side: the text is that input. -/
theorem SideBlocks.good (plan : MergePlan) {begin_ : MergeBlock → Nat}
    {bytes : MergeBlock → Bytes} (choice : Resolution) {blocks : List MergeBlock}
    (h : SideBlocks ok text begin_ bytes blocks) (hbase : choice ≠ .base)
    (hp : ∀ b ∈ blocks, ∀ expected ∈ promised b choice, bytes b = expected) :
    List.Forall₂ (Fits ok plan.hasBase text)
      (blocks.map fun b => ⟨begin_ b, begin_ b + (bytes b).length, choice, true⟩) blocks ∧
    (blocks.map fun b =>
      (⟨begin_ b, begin_ b + (bytes b).length, choice, true⟩ : BlockState)).Pairwise
      Apart := by
  refine ⟨?_, pairwise_map.mpr (h.ordered.imp fun hab _ _ => hab)⟩
  rw [forall₂_map_left_iff, forall₂_same]
  intro b hb
  refine ⟨fun _ => ⟨by simp, h.inside b hb⟩, fun _ => h.ends b hb, fun _ expected he => ?_,
    nofun, fun hc => absurd hc hbase⟩
  rw [← hp b hb expected he]
  exact h.cut b hb

theorem Good.selectAll (h : Good ok plan states text) (hplan : PlanFor ok left right plan)
    {choice : Resolution} (hc : ¬ (choice ≠ .left ∧ choice ≠ .right ∧ choice ≠ .manual)) :
    Good ok plan (List.zipWith (selectBlock choice) states plan.blocks)
      (if choice = .manual then text else if choice = .left then left else right) := by
  have hlen := h.blocks.length_eq
  have hcases : choice = .left ∨ choice = .right ∨ choice = .manual := by tauto
  rcases hcases with rfl | rfl | rfl
  · have hz : zipWith (selectBlock .left) states plan.blocks = plan.blocks.map fun b =>
        ⟨b.leftBegin, b.leftBegin + b.left.length, .left, true⟩ :=
      zipWith_eq_map_right hlen fun _ _ => rfl
    rw [hz]
    obtain ⟨h1, h2⟩ := hplan.ofLeft.good plan .left (by decide)
      fun b _ expected he => by simpa [promised] using he
    exact ⟨h1, h2⟩
  · have hz : zipWith (selectBlock .right) states plan.blocks = plan.blocks.map fun b =>
        ⟨b.rightBegin, b.rightBegin + b.right.length, .right, true⟩ :=
      zipWith_eq_map_right hlen fun _ _ => rfl
    rw [hz]
    obtain ⟨h1, h2⟩ := hplan.ofRight.good plan .right (by decide)
      fun b _ expected he => by simpa [promised] using he
    exact ⟨h1, h2⟩
  · have hz : zipWith (selectBlock .manual) states plan.blocks = states.map fun s =>
        { s with resolution := .manual } := zipWith_eq_map_left hlen fun _ _ => rfl
    rw [hz]
    refine ⟨?_, pairwise_map.mpr (h.apart.imp fun hst => hst)⟩
    rw [forall₂_map_left_iff]
    exact h.blocks.imp fun s b hs => ⟨hs.range, hs.ends, (fun _ _ hp => by cases hp),
      fun _ => .inr rfl, fun h => by cases h⟩

theorem Good.invalidate (h : Good ok plan states text) (text' : Bytes) :
    Good ok plan (states.map fun s => { s with mapped := false, resolution := .unresolved })
      text' := by
  refine ⟨?_, pairwise_map.mpr (h.apart.imp fun _ hm => by cases hm)⟩
  rw [forall₂_map_left_iff]
  exact h.blocks.imp fun s b _ => ⟨nofun, nofun,
    nofun, fun _ => .inl rfl, nofun⟩

/-- A safe action keeps the invariant. -/
theorem Editor.act_good {e e' : Editor} {action : Action} {next : Nat}
    (hplan : PlanFor ok left right e.model.plan) (h : GoodEditor ok e) (hs : Safe ok e action)
    (ha : e.act left right next action = .ok e') :
    e'.model.plan = e.model.plan ∧ GoodEditor ok e' := by
  cases action with
  | choose id revision choice =>
    simp only [Editor.act, MergeModel.apply, bind_eq_ok, failIf_eq_ok, pure_eq_ok] at ha
    obtain ⟨edit, hedit, model, ⟨verified, -, -, -, rfl⟩, rfl⟩ := ha
    obtain ⟨s, b, hst, hbl, hm, hbase, -, htext, hid, hbegin, hend, rfl⟩ := prepare_ok hedit
    refine GoodEditor.remember _ rfl ?_ h.earlier
    rw [hid, hbegin, hend]
    refine h.current.choose hst hbl hm hbase htext fun _ => ?_
    have hfit := (h.current.cons_of_split hst hbl).2.1
    have hr := hfit.range hm
    have hpos : s.begin_ + (s.end_ - s.begin_) = s.end_ := by omega
    refine hplan.insertable b (mem_of_getElem? hbl) _ _ htext _ _ _ (by omega) ?_
    rw [hpos]
    exact (hfit.ends hm).2
  | change position removed inserted =>
    simp only [Editor.act, bind_eq_ok, failIf_eq_ok, pure_eq_ok] at ha
    obtain ⟨-, hin, rfl⟩ := ha
    exact GoodEditor.remember _ rfl
      ((h.current.change_iff (by omega) (hs.2 (by omega))).mpr hs.1) h.earlier
  | chooseAll choice =>
    simp only [Editor.act, MergeModel.selectAll, bind_eq_ok, failIf_eq_ok, pure_eq_ok] at ha
    obtain ⟨model, ⟨-, hc, rfl⟩, rfl⟩ := ha
    exact GoodEditor.remember _ rfl (h.current.selectAll hplan hc) h.earlier
  | restore entry =>
    rcases hx : e.history[entry]? with _ | x
    · simp [Editor.act, hx] at ha
    · simp only [Editor.act, hx, MergeModel.restore, bind_eq_ok, failIf_eq_ok, pure_eq_ok] at ha
      obtain ⟨model, ⟨-, -, rfl⟩, rfl⟩ := ha
      exact GoodEditor.remember _ rfl (h.earlier x (mem_of_getElem? hx)) h.earlier
  | invalidate text =>
    simp only [Editor.act, pure_eq_ok] at ha
    subst ha
    exact GoodEditor.remember _ rfl (h.current.invalidate text) h.earlier

/-- Every run of safe actions keeps the invariant. -/
theorem Reaches.good {P : Editor → Action → Prop} {start e : Editor}
    (h : Reaches left right P start e) (hP : ∀ e action, P e action → Safe ok e action)
    (hplan : PlanFor ok left right start.model.plan) (hgood : GoodEditor ok start) :
    e.model.plan = start.model.plan ∧ GoodEditor ok e := by
  induction h with
  | start => exact ⟨rfl, hgood⟩
  | act h hp ha ih =>
    obtain ⟨h1, h2⟩ := Editor.act_good (by rw [ih.1]; exact hplan) ih.2 (hP _ _ hp) ha
    exact ⟨h1.trans ih.1, h2⟩

/-! ## Saved work -/

/-- A text that can be saved with its blocks. -/
def Storable (decodes : Bytes → Bool) (states : List BlockState) (text : Bytes) : Prop :=
  text.length ≤ resultLimit ∧ states.length ≤ decisionBlockLimit ∧ 0 ∉ text ∧ decodes text = true

/-- The loop of `validate` on blocks that keep the invariant. -/
theorem validateBlocks_yields {E : Failure → Prop} {limits : Budget}
    (hi : Yields E limits.check fun _ => True) {hasBase : Bool}
    {pairs : List (BlockState × MergeBlock)} (end_ : Nat)
    (hfit : ∀ p ∈ pairs, Fits (fun text p => boundary text p = true) hasBase text p.1 p.2)
    (hap : (pairs.map Prod.fst).Pairwise Apart)
    (hend : ∀ p ∈ pairs, p.1.mapped = true → end_ ≤ p.1.begin_) :
    Yields E (validateBlocks limits hasBase text end_ pairs) fun _ => True := by
  induction pairs generalizing end_ with
  | nil => exact .pure trivial
  | cons p rest ih =>
    obtain ⟨s, b⟩ := p
    have hs := hfit (s, b) (by simp)
    obtain ⟨hap1, hap2⟩ := pairwise_cons.mp hap
    have hih := fun end_ => ih end_ (fun p hp => hfit p (by simp [hp])) hap2
    refine hi.skip fun _ => (throwIf_yields fun hb => ?_).bind fun _ _ => .ite (fun hm => ?_)
      fun hm => ?_
    · rw [hs.base hb.1] at hb
      cases hb.2
    · refine (throwIf_yields fun hb => ?_).bind fun _ _ => hih end_ fun p hp hpm =>
        hend p (by simp [hp]) hpm
      rcases hs.unmapped hm with h | h
      · exact absurd h hb.1
      · exact absurd h hb.2
    · have hm : s.mapped = true := by simpa using hm
      have h1 := hs.range hm
      have h2 := hs.ends hm
      have h3 := hend (s, b) (by simp) hm
      simp only at h1 h2 h3
      refine (throwIf_yields fun hb => ?_).bind fun _ _ => ?_
      · rw [h2.1, h2.2] at hb
        simp only [Bool.not_true, Bool.false_eq_true, or_false] at hb
        omega
      refine (throwIf_yields fun hb => ?_).bind fun _ _ => hih s.end_ fun p hp hpm =>
        hap1 p.1 (mem_map_of_mem hp) hm hpm
      obtain ⟨expected, he, hne⟩ := hb
      exact absurd (hs.covers hm expected he) hne

/-- Work with the invariant and a text that can be saved is accepted, unless the outside ends the
check. -/
theorem validate_yields {decodes : Bytes → Bool} {limits : Budget}
    (h : Good (fun text p => boundary text p = true) plan states text)
    (hs : Storable decodes states text) :
    Yields limits.Outside (validate limits decodes plan states text) fun _ => True := by
  have hi : Yields limits.Outside limits.check fun _ => True := Budget.check_yields fun _ he => he
  refine (throwIf_yields fun hb => absurd h.blocks.length_eq hb).bind fun _ _ => ?_
  refine (throwIf_yields fun hb => ?_).bind fun _ _ => ?_
  · have := hs.1
    have := hs.2.1
    omega
  refine (throwIf_yields fun hb => ?_).bind fun _ _ => ?_
  · rcases hb with hb | hb
    · exact absurd (by simpa using hb) hs.2.2.1
    · rw [hs.2.2.2] at hb; cases hb
  refine (validateBlocks_yields hi 0 (fun p hp => ?_) ?_ fun p _ _ => Nat.zero_le _).skip
    fun _ => hi
  · exact forall₂_zip h.blocks hp
  · rw [map_fst_zip h.blocks.length_eq.le]
    exact h.apart

end Hc.Compare
