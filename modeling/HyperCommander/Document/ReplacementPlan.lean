import HyperCommander.Document.TextMap
import HyperCommander.Lib.StableSort

/-!
# Replacing the hits of a search (`textSearchMatcher.cpp`)

A `ReplacementPlan` owns the text it was made for. It sorts the hits, refuses those that overlap,
repeat one another or cut a CRLF or a pair of surrogates, and joins what lies between them with
their expansions.

* `Rewrites`: named ranges of a text are replaced and everything else is kept.
* `planLoop_spec`: what one pass over sorted hits makes.
* `search_maps_back`: ranges of the normalised text lead back to the original text, and plans
  replace exactly the given ranges.
-/

namespace Hc.Document.Search

open List Unicode

/-- `Match`, without its line and column. -/
structure Match where
  range : Range
  captures : List Range
deriving DecidableEq, Repr

/-- `Replacement::Part`. -/
structure Part where
  text : Units
  group : Int
deriving DecidableEq, Repr

/-- A parsed `Replacement`. -/
structure Replacement where
  parts : List Part
  error : String
deriving DecidableEq, Repr

/-- `replace("\r\n", "\n")`. -/
def replaceCrLf : Units → Units
  | [] => []
  | [u] => [u]
  | u :: v :: text => if u = cr ∧ v = lf then lf :: replaceCrLf text
    else u :: replaceCrLf (v :: text)

/-- The text of a part with the line ends of the document. -/
def withNewlines (text newline : Units) : Units :=
  let literal := (replaceCrLf text).map fun u => if u = cr then lf else u
  if newline ≠ [lf] then literal.flatMap fun u => if u = lf then newline else [u] else literal

/-- What one part of the replacement adds for a hit. -/
def Part.expand (part : Part) (original : Units) (hit : Match) (newline : Units) : Option Units :=
  if part.group < 0 then some (withNewlines part.text newline)
  else
    match hit.captures[part.group.toNat]? with
    | none => none
    | some capture =>
      if capture.start = -1 ∧ capture.length = 0 then some []
      else if capture.Valid original.length then some (capture.of original)
      else none

/-- `Replacement::Expand`. -/
def Replacement.expand (replace : Replacement) (original : Units) (hit : Match) (newline : Units) :
    Option Units :=
  if replace.error ≠ "" ∨ ¬hit.range.Valid original.length then none
  else if newline ≠ [lf] ∧ newline ≠ [cr, lf] ∧ newline ≠ [cr] then none
  else (replace.parts.mapM fun (part : Part) => part.expand original hit newline).map List.flatten

/-- `ReplacementPlan`. -/
structure ReplacementPlan where
  before : Units
  after : Units
  error : String
deriving DecidableEq, Repr

/-- Where a hit may begin or end. -/
def boundary (before : Units) (offset : Int) : Bool :=
  if offset ≤ 0 ∨ offset ≥ before.length then true
  else
    let u := before.getD (offset.toNat - 1) 0
    let v := before.getD offset.toNat 0
    !(isHigh u && isLow v) && !(u == cr && v == lf)

/-- The order of the hits. -/
def less (a b : Match) : Bool :=
  if a.range.start ≠ b.range.start then a.range.start < b.range.start
  else a.range.length < b.range.length

/-- The part of a text from `start` up to `stop`. -/
def between (text : Units) (start stop : Int) : Units := Range.of ⟨start, stop - start⟩ text

/-- The loop over the sorted hits; `stop` is where the last one ended. -/
def planLoop (before : Units) (replace : Replacement) (newline : Units) (stop : Int)
    (previous : Range) (prepared : Units) : List Match → Except String Units
  | [] => .ok (prepared ++ before.drop stop.toNat)
  | hit :: hits =>
    let span := hit.range
    if ¬span.Valid before.length ∨ span.start < stop ∨
        (span.start = previous.start ∧ span.length = previous.length) ∨
        boundary before span.start = false ∨ boundary before (span.start + span.length) = false then
      .error "치환 범위가 겹치거나 원문 경계와 일치하지 않습니다."
    else
      match replace.expand before hit newline with
      | none => .error "치환문을 확장할 수 없습니다."
      | some expanded =>
        planLoop before replace newline (span.start + span.length) span
          (prepared ++ between before stop span.start ++ expanded) hits

/-- `ReplacementPlan::ReplacementPlan`. -/
def ReplacementPlan.make (original : Units) (hits : List Match) (replace : Replacement)
    (newline : Units) : ReplacementPlan :=
  if replace.error ≠ "" then { before := original, after := [], error := replace.error }
  else
    match planLoop original replace newline 0 {} []
        (hits.insertionSort fun a b => less b a = false) with
    | .error message => { before := original, after := [], error := message }
    | .ok prepared => { before := original, after := prepared, error := "" }

/-- `ReplacementPlan::ApplyTo`. -/
def ReplacementPlan.applyTo (plan : ReplacementPlan) (current : Units) : Option Units :=
  if plan.error ≠ "" ∨ current ≠ plan.before then none else some plan.after

/-! ### What a plan is for -/

/-- From an offset on, the ranges are replaced by the texts beside them, and everything else is
kept. -/
inductive Rewrites : Int → List (Range × Units) → Units → Units → Prop
  | keep {offset : Int} (rest : Units) : Rewrites offset [] rest rest
  | replace {offset : Int} {range : Range} {edits : List (Range × Units)} {new before after : Units}
      (kept old : Units) (hstart : range.start = offset + kept.length)
      (hlength : range.length = old.length) (h : Rewrites range.stop edits before after) :
      Rewrites offset ((range, new) :: edits) (kept ++ (old ++ before)) (kept ++ (new ++ after))

/-- Two ranges have no unit in common, and are not the same. -/
def Range.Apart (a b : Range) : Prop := (a.stop ≤ b.start ∨ b.stop ≤ a.start) ∧ a ≠ b

/-- The plan replaces the ranges of the hits by their expansions. -/
def Replaces (plan : ReplacementPlan) (original : Units) (hits : List Match) (replace : Replacement)
    (newline : Units) : Prop :=
  hits.Pairwise (fun a b => a.range.Apart b.range) ∧
    ∃ sorted expansions, sorted.Perm hits ∧
      List.Forall₂ (fun hit new => replace.expand original hit newline = some new)
        sorted expansions ∧
      Rewrites 0 ((sorted.map Match.range).zip expansions) original plan.after

section Plan

variable {original newline : Units} {replace : Replacement} {hits : List Match} {stop : Int}
  {previous : Range} {prepared made : Units}

theorem Range.Apart.symm {a b : Range} (h : a.Apart b) : b.Apart a := ⟨h.1.symm, h.2.symm⟩

theorem drop_cut (q : Units) {i j n : Nat} (h : i ≤ j) :
    q.drop i = (q.drop i).take (j - i) ++ ((q.drop j).take n ++ q.drop (j + n)) := by
  rw [← drop_drop, take_append_drop]
  conv_rhs => rw [show j = i + (j - i) by omega, ← drop_drop]
  simp

theorem planLoop_error {message : String}
    (h : planLoop original replace newline stop previous prepared hits = .error message) :
    message ≠ "" := by
  induction hits generalizing stop previous prepared with
  | nil => cases h
  | cons hit hits ih =>
    rw [planLoop] at h
    split at h
    · cases h
      decide
    · split at h
      · cases h
        decide
      · exact ih h

/-- One pass over hits: the ranges lie one after the other, and what lies between them is kept. -/
theorem planLoop_spec (h0 : 0 ≤ stop) (hstop : stop ≤ original.length) (hp : 0 ≤ previous.length)
    (hprev : previous.stop ≤ stop)
    (h : planLoop original replace newline stop previous prepared hits = .ok made) :
    ∃ expansions after, made = prepared ++ after ∧
      List.Forall₂ (fun hit new => replace.expand original hit newline = some new) hits expansions ∧
      Rewrites stop ((hits.map Match.range).zip expansions) (original.drop stop.toNat) after ∧
      (∀ hit ∈ hits, stop ≤ hit.range.start ∧ 0 ≤ hit.range.length ∧ hit.range ≠ previous) ∧
      hits.Pairwise (fun a b => a.range.stop ≤ b.range.start ∧ a.range ≠ b.range) := by
  induction hits generalizing stop previous prepared with
  | nil =>
    rw [planLoop] at h
    cases h
    exact ⟨[], _, rfl, .nil, .keep _, by simp, .nil⟩
  | cons hit hits ih =>
    rw [planLoop] at h
    split at h
    · cases h
    rename_i hgood
    simp only [not_or, not_not, not_lt] at hgood
    obtain ⟨⟨v0, v1, v2, v3⟩, hle, hsame, -, -⟩ := hgood
    split at h
    · cases h
    rename_i expanded hexp
    have hnext : 0 ≤ hit.range.start + hit.range.length := by omega
    obtain ⟨expansions, after, rfl, hall, hrew, hmem, hpair⟩ :=
      ih hnext (by omega) v1 (le_refl _) h
    refine ⟨expanded :: expansions,
      between original stop hit.range.start ++ (expanded ++ after), by simp,
      .cons hexp hall, ?_, ?_, pairwise_cons.2 ⟨?_, hpair⟩⟩
    · -- the rest of the text is what is kept, the range, and what follows it
      have hcut : original.drop stop.toNat = between original stop hit.range.start ++
          (hit.range.of original ++ original.drop (hit.range.start + hit.range.length).toNat) := by
        rw [show (hit.range.start + hit.range.length).toNat =
          hit.range.start.toNat + hit.range.length.toNat by omega]
        rw [between, Range.of, Range.of]
        rw [show (hit.range.start - stop).toNat = hit.range.start.toNat - stop.toNat by omega]
        exact drop_cut original (by omega)
      rw [hcut]
      refine .replace _ _ ?_ ?_ hrew
      · simp [between, Range.of]
        omega
      · simp [Range.of]
        omega
    · intro other hm
      rcases mem_cons.1 hm with rfl | hm
      · exact ⟨hle, v1, fun he => hsame (by simp [he])⟩
      · obtain ⟨h1, h2, -⟩ := hmem other hm
        refine ⟨by omega, h2, fun he => hsame ?_⟩
        -- nothing but the range before fits between it and itself
        subst he
        unfold Range.stop at hprev
        omega
    · intro other hm
      obtain ⟨h1, -, h3⟩ := hmem other hm
      exact ⟨h1, Ne.symm h3⟩

/-- A plan without an error replaces the ranges of its hits by their expansions; one with an error
has no result. -/
theorem make_spec (original : Units) (hits : List Match) (replace : Replacement) (newline : Units) :
    ((ReplacementPlan.make original hits replace newline).error ≠ "" ∧
        (ReplacementPlan.make original hits replace newline).after = []) ∨
      (ReplacementPlan.make original hits replace newline).error = "" ∧
        Replaces (ReplacementPlan.make original hits replace newline) original hits
          replace newline := by
  unfold ReplacementPlan.make
  split
  · rename_i he
    exact .inl ⟨he, rfl⟩
  · split
    · rename_i message hloop
      exact .inl ⟨planLoop_error hloop, rfl⟩
    · rename_i prepared hloop
      refine .inr ⟨rfl, ?_⟩
      obtain ⟨expansions, after, rfl, hall, hrew, -, hpair⟩ :=
        planLoop_spec (le_refl 0) (by omega) (by decide) (by decide) hloop
      have hperm := perm_insertionSort (fun a b => less b a = false) hits
      refine ⟨?_, _, expansions, hperm, hall, hrew⟩
      refine (hperm.pairwise_iff fun h => h.symm).1 (hpair.imp ?_)
      rintro a b ⟨h1, h2⟩
      exact ⟨.inl h1, h2⟩

theorem applyTo_eq_some_iff {plan : ReplacementPlan} {current result : Units} :
    plan.applyTo current = some result ↔
      plan.error = "" ∧ current = plan.before ∧ result = plan.after := by
  unfold ReplacementPlan.applyTo
  split
  · rename_i h
    refine iff_of_false (by simp) ?_
    rintro ⟨h1, h2, -⟩
    exact h.elim (fun he => he h1) fun hc => hc h2
  · rename_i h
    simp only [not_or, not_not] at h
    simp [h, eq_comm]

theorem make_before (original : Units) (hits : List Match) (replace : Replacement)
    (newline : Units) :
    (ReplacementPlan.make original hits replace newline).before = original := by
  unfold ReplacementPlan.make
  split
  · rfl
  · split <;> rfl

/-- Ranges of the normalised text lead back to ranges of the text that they are the normal form of,
lines and columns are counted from line starts, and a plan fails without a result or replaces
exactly its ranges. -/
theorem search_maps_back (text : Units) :
    (TextMap.build text).normalized = unify text ∧
      (∀ v : Range, v.Valid (unify text).length →
        ((TextMap.build text).source v).Valid text.length ∧
          unify (((TextMap.build text).source v).of text) = v.of (unify text) ∧
          OnBoundary text ((TextMap.build text).source v).start ∧
          OnBoundary text ((TextMap.build text).source v).stop) ∧
      (∀ v w : Range, v.Valid (unify text).length → w.Valid (unify text).length → v.stop = w.start →
        ((TextMap.build text).source v).stop = ((TextMap.build text).source w).start) ∧
      (∀ p : Int, 0 ≤ p → p ≤ (unify text).length →
        StandsAt (unify text) p ((TextMap.build text).line p) ((TextMap.build text).column p)) ∧
      ∀ (hits : List Match) (replace : Replacement) (newline : Units),
        let plan := ReplacementPlan.make text hits replace newline
        (plan.error ≠ "" ∧ plan.after = [] ∧ ∀ current, plan.applyTo current = none) ∨
          plan.error = "" ∧ Replaces plan text hits replace newline ∧
            ∀ current result, plan.applyTo current = some result ↔
              current = text ∧ result = plan.after := by
  refine ⟨by rw [build_eq], fun v hv => source_spec hv, fun v w hv hw h => source_adjacent hv hw h,
    fun p h0 hp => line_spec h0 hp, fun hits replace newline => ?_⟩
  rcases make_spec text hits replace newline with ⟨he, ha⟩ | ⟨he, hr⟩
  · refine .inl ⟨he, ha, fun current => ?_⟩
    rw [ReplacementPlan.applyTo, if_pos (.inl he)]
  · refine .inr ⟨he, hr, fun current result => ?_⟩
    rw [applyTo_eq_some_iff, make_before]
    simp [he]

end Plan

end Hc.Document.Search
