import HyperCommander.Compare.DiffCorrect
import HyperCommander.Compare.MergeSeed

/-!
# The merge editor on real inputs

* `mergeEditor_safe_runs`: from a session's plan, every run whose insertions are tie-safe keeps the
  mapped ranges apart and true to their decisions, and what such a run reaches can be saved.
* `mergeEditor_tie`: a run in which two ranges grow over each other because the unmapped block
  between them hides that they touch.
-/

namespace Hc.Compare

open List Slice MergeModel

/-! ## Character boundaries -/

theorem boundary_iff {text : Bytes} {p : Nat} : boundary text p = true ↔
    p ≤ text.length ∧ ∀ c, text[p]? = some c → isContinuation c = false := by
  simp only [boundary, Bool.and_eq_true, decide_eq_true_eq, Bool.or_eq_true, beq_iff_eq,
    Bool.not_eq_true', and_congr_right_iff]
  intro hp
  constructor
  · rintro (rfl | h) c hc
    · rw [getElem?_eq_none (Nat.le_refl _)] at hc; cases hc
    · rwa [getD_eq_getElem?_getD, hc] at h
  · intro h
    rcases Nat.eq_or_lt_of_le hp with heq | hlt
    · exact .inl heq
    · refine .inr ?_
      rw [getD_eq_getElem?_getD, getElem?_eq_getElem hlt]
      exact h _ (getElem?_eq_getElem hlt)

/-- The text does not begin inside a character. -/
def StartsCharacter (text : Bytes) : Prop := ∀ c, text[0]? = some c → isContinuation c = false

theorem startsCharacter_of_madeOf {text : Bytes} (h : MadeOf StartsCharacter text) :
    StartsCharacter text := by
  obtain ⟨ls, h, rfl⟩ := h
  induction ls with
  | nil => intro c hc; cases hc
  | cons x xs ih =>
    cases x with
    | nil => exact ih fun y hy => h y (by simp [hy])
    | cons c rest => exact fun d hd => h (c :: rest) (by simp) d (by simpa using hd)

theorem keeps_boundary {text inserted : Bytes} {position removed : Nat}
    (hin : position + removed ≤ text.length) (hend : boundary text (position + removed) = true)
    (hs : StartsCharacter inserted) :
    Keeps (fun text p => boundary text p = true) text position removed inserted := by
  have hlen := length_splice (s := inserted) hin
  constructor
  · intro p hp hb
    rw [boundary_iff] at hb hend ⊢
    refine ⟨by omega, fun c hc => ?_⟩
    rcases Nat.eq_or_lt_of_le hp with rfl | hlt
    · cases inserted with
      | nil =>
        have := getElem?_splice_after (l := text) (a := p) (d := removed) (s := [])
          (Nat.le_refl _) (by omega)
        rw [show p + removed - removed + ([] : Bytes).length = p by simp] at this
        rw [this] at hc
        exact hend.2 c hc
      | cons d rest =>
        have := getElem?_splice_inside (l := text) (a := p) (d := removed) (s := d :: rest)
          (i := 0) (by simp) (by omega)
        rw [Nat.add_zero] at this
        rw [this] at hc
        exact hs c hc
    · rw [getElem?_splice_before hlt (by omega)] at hc
      exact hb.2 c hc
  · intro p hp hl hb
    rw [boundary_iff] at hb ⊢
    refine ⟨by omega, fun c hc => ?_⟩
    rw [getElem?_splice_after hp (by omega)] at hc
    exact hb.2 c hc

theorem admits_boundary : Admits (fun text p => boundary text p = true) StartsCharacter where
  cut text p hp h := by
    rw [boundary_iff]
    refine ⟨hp, fun c hc => startsCharacter_of_madeOf h c ?_⟩
    rw [getElem?_drop, Nat.add_zero]
    exact hc
  insert bytes h text position removed hin hend :=
    keeps_boundary hin hend (startsCharacter_of_madeOf h)

theorem Admits.mono {ok : Bytes → Nat → Prop} {P Q : Line → Prop} (h : Admits ok P)
    (hPQ : ∀ x, Q x → P x) : Admits ok Q := by
  have hm : ∀ text, MadeOf Q text → MadeOf P text := fun text ⟨ls, h1, h2⟩ =>
    ⟨ls, fun x hx => hPQ x (h1 x hx), h2⟩
  exact ⟨fun text p hp ht => h.cut text p hp (hm _ ht), fun bytes hb => h.insert bytes (hm _ hb)⟩

/-- Every continuation byte follows a byte of its character. -/
def Characters (text : Bytes) : Prop := ∀ i c, text[i]? = some c → isContinuation c = true →
  0 < i ∧ ∃ d, text[i - 1]? = some d ∧ 128 ≤ d

theorem Characters.drop {s t : Bytes} (h : Characters (s ++ t)) {c : UInt8} (hc : c < 128)
    (hs : s.getLast? = some c) : Characters t := by
  intro i d hd hcont
  have hget : (s ++ t)[s.length + i]? = some d := by
    rw [getElem?_append_right (by omega), Nat.add_sub_cancel_left, hd]
  obtain ⟨-, e, he, hle⟩ := h (s.length + i) d hget hcont
  rcases Nat.eq_zero_or_pos i with rfl | hi
  · exfalso
    have hpos : 0 < s.length := by
      cases s with
      | nil => cases hs
      | cons => simp
    rw [Nat.add_zero, getElem?_append_left (by omega), ← getLast?_eq_getElem?, hs] at he
    cases he
    exact absurd hle (by simpa using hc)
  · refine ⟨hi, e, ?_, hle⟩
    rwa [show s.length + i - 1 = s.length + (i - 1) by omega, getElem?_append_right (by omega),
      Nat.add_sub_cancel_left] at he

theorem Characters.starts {text : Bytes} (h : Characters text) : StartsCharacter text := by
  intro c hc
  rcases hcont : isContinuation c with _ | _
  · rfl
  · exact absurd (h 0 c hc hcont).1 (Nat.lt_irrefl 0)

theorem starts_append {s t : Bytes} (h : StartsCharacter (s ++ t)) (hs : s ≠ []) :
    StartsCharacter s := by
  cases s with
  | nil => exact absurd rfl hs
  | cons c s => exact fun d hd => h d (by simpa using hd)

/-- No line of such a text begins inside a character. -/
theorem linesFrom_starts (text line : Bytes) (h : Characters (line ++ text)) :
    ∀ x ∈ linesFrom text line, StartsCharacter x := by
  have hterm : ∀ {c : UInt8}, isTerminator c = true → c < 128 := by
    intro c hc
    simp only [isTerminator, Bool.or_eq_true, beq_iff_eq, lf, cr] at hc
    rcases hc with rfl | rfl <;> decide
  induction text, line using linesFrom.induct with
  | case1 line he => simp [linesFrom, he]
  | case2 line he =>
    rw [append_nil] at h
    simpa [linesFrom, he] using h.starts
  | case3 c line => simpa [linesFrom] using h.starts
  | case4 c d rest line he ih =>
    rw [linesFrom, if_pos he]
    have hsplit : line ++ c :: d :: rest = (line ++ [c, d]) ++ rest := by simp
    rw [hsplit] at h
    refine forall_mem_cons.mpr ⟨starts_append h.starts (by simp), ih ?_⟩
    exact h.drop (c := d) (by rw [he.2]; decide) (by simp)
  | case5 c d rest line he ht ih =>
    rw [linesFrom, if_neg he, if_pos ht]
    have hsplit : line ++ c :: d :: rest = (line ++ [c]) ++ (d :: rest) := by simp
    rw [hsplit] at h
    refine forall_mem_cons.mpr ⟨starts_append h.starts (by simp), ih ?_⟩
    exact h.drop (hterm ht) (by simp)
  | case6 c d rest line he ht ih =>
    rw [linesFrom, if_neg he, if_neg ht]
    exact ih (by simpa using h)

/-! ## Runs -/

/-- A plan with its seed text, as a session makes them of two inputs, or of three with a base. -/
inductive Seeded (left right : Bytes) : (base : Option Bytes) → MergePlan → Bytes → Prop
  | twoWay {limits lib edits w w' expired v v' seed plan} (hro : limits.rangesOnly = false)
    (hd : (diff limits lib left right).run w = .ok (edits, w'))
    (hseed : seed = .unresolved ∨ seed = .left ∨ seed = .right)
    (hp : (twoWayPlan expired left right edits seed).run v = .ok (plan, v')) :
    Seeded left right none plan (if seed = .right then right else left)
  | threeWay {limits lib base merged w w' expired v v' plan}
    (hm : (merge limits lib base left right).run w = .ok (merged, w'))
    (hp : (threeWayPlan expired base left right merged).run v = .ok (plan, v')) :
    Seeded left right (some base) plan merged.text

theorem Seeded.good {ok : Bytes → Nat → Prop} {P : Line → Prop} {left right text : Bytes}
    {base : Option Bytes} {plan : MergePlan} (h : Seeded left right base plan text)
    (ha : Admits ok P) (hP : ∀ input ∈ base.toList ++ [left, right], ∀ x ∈ lines input, P x) :
    PlanFor ok left right plan ∧ Good ok plan plan.initial text := by
  cases h with
  | twoWay hro hd hseed hp =>
    have hb := ((diff_yields _ _ _ _).of_ok hd).1.1
    exact (twoWayPlan_good ha (hP left (by simp)) (hP right (by simp))
      (SideScript.of_diff hro hb rfl rfl) _ hseed).of_ok hp
  | @threeWay limits lib base merged w w' expired v v' plan hm hp =>
    refine (threeWayPlan_good expired (ha.mono fun x hx => ?_)
      ((merge_yields limits lib base left right).of_ok hm).1).of_ok hp
    rcases hx with hx | hx | hx
    · exact hP base (by simp) x hx
    · exact hP left (by simp) x hx
    · exact hP right (by simp) x hx

/-- An insertion finds at most one odd run of mapped ranges at its position. -/
def TieSafeAction (e : Editor) : Action → Prop
  | .change position removed inserted => TieSafe e.model.state position removed inserted.length
  | _ => True

/-- Typing removes up to the end of a character and inserts whole ones. -/
def OnCharacters (e : Editor) : Action → Prop
  | .change position removed inserted =>
    boundary e.text (position + removed) = true ∧ StartsCharacter inserted
  | _ => True

/-- Positions are not asked for anything. -/
def anywhere (_ : Bytes) (_ : Nat) : Prop := True

theorem admits_anywhere : Admits anywhere fun _ => True where
  cut _ _ _ _ := trivial
  insert _ _ _ _ _ _ _ := ⟨fun _ _ _ => trivial, fun _ _ _ _ => trivial⟩

/-- In every run from a session's plan whose insertions are tie-safe, the mapped ranges are in
order, apart, inside the text and true to their decisions; a decision replaces no byte of another
block; typing keeps the invariant only if it is tie-safe; and if typing respects characters, the
work reached is accepted whenever its text can be saved at all. -/
theorem mergeEditor_safe_runs {left right text : Bytes} {base : Option Bytes} {plan : MergePlan}
    (h : Seeded left right base plan text) (revision : Nat) :
    (∀ e, Reaches left right TieSafeAction (.start plan revision text) e →
      Good anywhere e.model.plan e.model.state e.text ∧
      (∀ id expected choice edit, e.model.prepare id expected choice = .ok edit →
        ∀ i t, e.model.state[i]? = some t → t.mapped = true → i ≠ id - 1 →
          t.end_ ≤ edit.begin_ ∨ edit.end_ ≤ t.begin_) ∧
      ∀ position removed inserted next e',
        e.act left right next (.change position removed inserted) = .ok e' →
        (Good anywhere e'.model.plan e'.model.state e'.text ↔
          TieSafe e.model.state position removed inserted.length)) ∧
    ∀ decodes : Bytes → Bool, (∀ text, decodes text = true → Characters text) →
      (∀ input ∈ base.toList ++ [left, right], decodes input = true) →
      ∀ e, Reaches left right (fun e a => TieSafeAction e a ∧ OnCharacters e a)
          (.start plan revision text) e →
        Storable decodes e.model.state e.text →
        ∀ limits, Yields limits.Outside (validate limits decodes e.model.plan e.model.state e.text)
          fun _ => True := by
  have hstart : ∀ {ok : Bytes → Nat → Prop}, Good ok plan plan.initial text →
      GoodEditor ok (.start plan revision text) := fun hg =>
    (GoodEditor.remember (.new plan revision) rfl hg fun _ hx => by cases hx).2
  refine ⟨fun e he => ?_, fun decodes hdec hinputs e he hst limits => ?_⟩
  · obtain ⟨hplan, hgood⟩ := h.good admits_anywhere fun _ _ _ _ => trivial
    have hsafe : ∀ e action, TieSafeAction e action → Safe anywhere e action := by
      intro e action ha
      cases action with
      | change => exact ⟨ha, fun _ => ⟨fun _ _ _ => trivial, fun _ _ _ _ => trivial⟩⟩
      | _ => trivial
    have hcur := (he.good hsafe hplan (hstart hgood)).2.current
    refine ⟨hcur, fun id expected choice edit hedit i t ht htm hne => ?_,
      fun position removed inserted next e' ha => ?_⟩
    · obtain ⟨s, b, hs, hb, hm, -, -, -, -, hbegin, hend, -⟩ := prepare_ok hedit
      rw [hbegin, hend]
      obtain ⟨hi, rfl⟩ := List.getElem?_eq_some_iff.mp ht
      obtain ⟨hj, rfl⟩ := List.getElem?_eq_some_iff.mp hs
      have hpair := pairwise_iff_getElem.mp hcur.apart
      rcases Nat.lt_or_gt_of_ne hne with hlt | hgt
      · exact .inl (hpair _ _ hi hj hlt htm hm)
      · exact .inr (hpair _ _ hj hi hgt hm htm)
    · simp only [Editor.act, Outcome.bind_eq_ok, Outcome.failIf_eq_ok, Outcome.pure_eq_ok] at ha
      obtain ⟨-, hin, rfl⟩ := ha
      exact hcur.change_iff (by omega) ⟨fun _ _ _ => trivial, fun _ _ _ _ => trivial⟩
  · obtain ⟨hplan, hgood⟩ := h.good admits_boundary fun input hi x hx =>
      linesFrom_starts input [] (hdec input (hinputs input hi)) x hx
    have hsafe : ∀ e action, TieSafeAction e action ∧ OnCharacters e action →
        Safe (fun text p => boundary text p = true) e action := by
      intro e action ha
      cases action with
      | change => exact ⟨ha.1, fun hin => keeps_boundary hin ha.2.1 ha.2.2⟩
      | _ => trivial
    exact validate_yields (he.good hsafe hplan (hstart hgood)).2.current hst

/-! ## A tie -/

/-- `a 1 b 2 c 3 d`, a line each. -/
def tieLeft : Bytes := [97, 10, 49, 10, 98, 10, 50, 10, 99, 10, 51, 10, 100, 10]

/-- `a X b Y c Z d`, a line each. -/
def tieRight : Bytes := [97, 10, 88, 10, 98, 10, 89, 10, 99, 10, 90, 10, 100, 10]

/-- Each side changed the lines at 2, 6 and 10. -/
def tiePlan : MergePlan where
  blocks := [⟨1, 2, 2, 0, 1, 1, 0, [49, 10], [88, 10], [], false⟩,
    ⟨2, 6, 6, 0, 3, 3, 0, [50, 10], [89, 10], [], false⟩,
    ⟨3, 10, 10, 0, 5, 5, 0, [51, 10], [90, 10], [], false⟩]
  initial := [⟨2, 4, .unresolved, true⟩, ⟨6, 8, .unresolved, true⟩, ⟨10, 12, .unresolved, true⟩]

theorem tie_seeded : Seeded tieLeft tieRight none tiePlan tieLeft := by
  have hd : (diff .unlimited plainLibrary tieLeft tieRight).run {} =
      .ok ([⟨1, 2, 1, 2, [88, 10]⟩, ⟨3, 4, 3, 4, [89, 10]⟩, ⟨5, 6, 5, 6, [90, 10]⟩], ⟨34, 35⟩) := by
    decide +kernel
  have hp : (twoWayPlan (fun _ => false) tieLeft tieRight
      [⟨1, 2, 1, 2, [88, 10]⟩, ⟨3, 4, 3, 4, [89, 10]⟩, ⟨5, 6, 5, 6, [90, 10]⟩] .unresolved).run {} =
      .ok (tiePlan, ⟨0, 12⟩) := by
    decide +kernel
  exact .twoWay rfl hd (.inl rfl) hp

/-- Seven-bit text. -/
def plainText (text : Bytes) : Bool := text.all (· < 128)

theorem characters_of_plainText {text : Bytes} (h : plainText text = true) : Characters text := by
  intro i c hc hcont
  have hlt : c < 128 := by simpa using all_eq_true.mp h c (mem_of_getElem? hc)
  have heq : c.toNat &&& 192 = 128 := by
    simp only [isContinuation, beq_iff_eq] at hcont
    simpa using congrArg UInt8.toNat hcont
  have hle : 128 ≤ c.toNat := heq ▸ Nat.and_le_left
  exact absurd (UInt8.lt_iff_toNat_lt.mp hlt) (Nat.not_lt.mpr hle)

/-- The first block is left out. -/
def tieOmitted : Editor := .remember
  ⟨tiePlan, [⟨2, 2, .omit, true⟩, ⟨4, 6, .unresolved, true⟩, ⟨8, 10, .unresolved, true⟩], 2, false⟩
  [97, 10, 98, 10, 50, 10, 99, 10, 51, 10, 100, 10] (Editor.start tiePlan 1 tieLeft).history

theorem mergeEditor_safe_runs_omitted :
    Good anywhere tieOmitted.model.plan tieOmitted.model.state tieOmitted.text ∧
    Yields (Budget.Outside .unlimited)
      (validate .unlimited plainText tieOmitted.model.plan tieOmitted.model.state tieOmitted.text)
      fun _ => True := by
  have ha : (Editor.start tiePlan 1 tieLeft).act tieLeft tieRight 2 (.choose 1 1 .omit) =
    .ok tieOmitted := by decide +kernel
  obtain ⟨hrun, hsave⟩ := mergeEditor_safe_runs tie_seeded 1
  have hsafe : TieSafeAction (.start tiePlan 1 tieLeft) (.choose 1 1 .omit) := trivial
  have hst : Storable plainText tieOmitted.model.state tieOmitted.text := by
    refine ⟨?_, ?_, ?_, ?_⟩ <;> decide
  refine ⟨(hrun _ (.act .start hsafe ha)).1, ?_⟩
  exact hsave plainText (fun _ => characters_of_plainText) (by decide) _
    (.act .start ⟨hsafe, trivial⟩ ha) hst .unlimited

/-- The lines from the second block to the front of the third are deleted, so that the second is
unmapped, the first is left out and a `q` is typed where all three meet: the first and the third
are not neighbours and both grow. -/
theorem mergeEditor_tie : ∃ e, Seeded tieLeft tieRight none tiePlan tieLeft ∧
    Reaches tieLeft tieRight (fun _ _ => True) (.start tiePlan 1 tieLeft) e ∧
    e.text = [97, 10, 113, 51, 10, 100, 10] ∧
    e.model.state = [⟨2, 3, .unresolved, true⟩, ⟨4, 4, .unresolved, false⟩,
      ⟨2, 5, .unresolved, true⟩] ∧
    ¬ e.model.state.Pairwise Apart ∧
    (validate .unlimited plainText e.model.plan e.model.state e.text).run {} =
      .error ⟨"InvalidWorkRange"⟩ := by
  let e₁ : Editor := .remember
    ⟨tiePlan, [⟨2, 4, .unresolved, true⟩, ⟨4, 4, .unresolved, false⟩, ⟨4, 6, .unresolved, true⟩],
      2, false⟩ [97, 10, 49, 10, 51, 10, 100, 10] (Editor.start tiePlan 1 tieLeft).history
  let e₂ : Editor := .remember
    ⟨tiePlan, [⟨2, 2, .omit, true⟩, ⟨4, 4, .unresolved, false⟩, ⟨2, 4, .unresolved, true⟩],
      3, false⟩ [97, 10, 51, 10, 100, 10] e₁.history
  let e₃ : Editor := .remember
    ⟨tiePlan, [⟨2, 3, .unresolved, true⟩, ⟨4, 4, .unresolved, false⟩, ⟨2, 5, .unresolved, true⟩],
      4, false⟩ [97, 10, 113, 51, 10, 100, 10] e₂.history
  have h₁ : (Editor.start tiePlan 1 tieLeft).act tieLeft tieRight 2 (.change 4 6 []) = .ok e₁ := by
    decide +kernel
  have h₂ : e₁.act tieLeft tieRight 3 (.choose 1 2 .omit) = .ok e₂ := by decide +kernel
  have h₃ : e₂.act tieLeft tieRight 4 (.change 2 0 [113]) = .ok e₃ := by decide +kernel
  refine ⟨e₃, tie_seeded, ?_, rfl, rfl, ?_, by decide +kernel⟩
  · exact .act (.act (.act .start trivial h₁) trivial h₂) trivial h₃
  · have hneg : ¬ [(⟨2, 3, .unresolved, true⟩ : BlockState), ⟨4, 4, .unresolved, false⟩,
        ⟨2, 5, .unresolved, true⟩].Pairwise Apart := by
      unfold Apart; decide
    exact hneg

end Hc.Compare
