import HyperCommander.Compare.MergeWork

/-!
# What the merge editor keeps

* `Good`: the mapped ranges are in order, apart and inside the text, and every decided one holds
  the text its decision promises.
* `Good.choose` and `Good.change_iff`: decisions keep this; typing keeps it exactly when it is
  `TieSafe`. `TextChanged` unmaps ranges that grow over each other only in pairs of neighbours, so
  what is left of a run of such ranges depends on its parity (`oddRuns`).

All of it is relative to a property `ok` of positions that edits do not spoil, which the saved work
needs for its character boundaries.
-/

namespace Hc.Compare

open List Slice MergeModel Outcome

/-! ## The invariant -/

/-- An edit does not spoil the positions outside it. -/
def Keeps (ok : Bytes → Nat → Prop) (text : Bytes) (position removed : Nat) (inserted : Bytes) :
    Prop :=
  (∀ p ≤ position, ok text p → ok (splice text position removed inserted) p) ∧
  ∀ p, position + removed ≤ p → p ≤ text.length → ok text p →
    ok (splice text position removed inserted) (p - removed + inserted.length)

/-- What the state of one block says. -/
structure Fits (ok : Bytes → Nat → Prop) (hasBase : Bool) (text : Bytes) (s : BlockState)
    (block : MergeBlock) : Prop where
  range : s.mapped = true → s.begin_ ≤ s.end_ ∧ s.end_ ≤ text.length
  ends : s.mapped = true → ok text s.begin_ ∧ ok text s.end_
  covers : s.mapped = true →
    ∀ bytes ∈ promised block s.resolution, slice text s.begin_ s.end_ = bytes
  unmapped : s.mapped = false → s.resolution = .unresolved ∨ s.resolution = .manual
  base : s.resolution = .base → hasBase = true

/-- Mapped ranges in block order do not overlap. -/
def Apart (s t : BlockState) : Prop := s.mapped = true → t.mapped = true → s.end_ ≤ t.begin_

/-- The invariant of the merge editor. -/
structure Good (ok : Bytes → Nat → Prop) (plan : MergePlan) (states : List BlockState)
    (text : Bytes) : Prop where
  blocks : List.Forall₂ (Fits ok plan.hasBase text) states plan.blocks
  apart : states.Pairwise Apart

theorem shift_eq {value removed inserted : Nat} (h : removed ≤ value) :
    shift value removed inserted = value - removed + inserted := by
  unfold shift; split <;> omega

/-! ## One block under an edit -/

section Change

variable {ok : Bytes → Nat → Prop} {hasBase : Bool} {text inserted : Bytes}
  {position removed n : Nat} {s t : BlockState} {block : MergeBlock}

/-- What becomes of a mapped range: it ends before the edit, lies behind it, grows with it, or is
no longer known. -/
inductive Fate (position removed n : Nat) (s : BlockState) : BlockState → Prop
  | before (h : s.end_ ≤ position) (hne : ¬ (position = s.begin_ ∧ s.begin_ = s.end_)) :
    Fate position removed n s s
  | behind (h : position + removed ≤ s.begin_) (hne : ¬ (removed = 0 ∧ position = s.begin_)) :
    Fate position removed n s
      { s with begin_ := s.begin_ - removed + n, end_ := s.end_ - removed + n }
  | grown (h : s.begin_ ≤ position) (h' : position + removed ≤ s.end_)
    (hne : s.end_ ≤ position → s.begin_ = position ∧ s.end_ = position) :
    Fate position removed n s { s with resolution := .unresolved, end_ := s.end_ - removed + n }
  | lost {u : BlockState} (h0 : 0 < removed) (h : u.mapped = false)
      (h' : u.resolution = .unresolved) :
    Fate position removed n s u

theorem changeBlock_fate (position removed n : Nat) (hm : s.mapped = true)
    (hr : s.begin_ ≤ s.end_) :
    Fate position removed n s (changeBlock position removed n s) := by
  unfold changeBlock
  rw [if_neg (by simp [hm])]
  split
  · rename_i h
    rw [shift_eq (by omega), shift_eq (by omega)]
    exact .behind h.1 h.2
  split
  · rename_i h
    exact .before h.1 h.2
  split
  · rename_i h
    rw [shift_eq (by omega)]
    exact .grown h.1 h.2 (by omega)
  · exact .lost (by omega) rfl rfl

theorem changeBlock_of_unmapped (h : s.mapped = false) : changeBlock position removed n s = s := by
  rw [changeBlock, if_pos (by simp [h])]

/-- No block is mapped by an edit. -/
theorem mapped_of_changeBlock (h : (changeBlock position removed n s).mapped = true) :
    s.mapped = true := by
  rcases hm : s.mapped with _ | _
  · rw [changeBlock_of_unmapped hm, hm] at h
    cases h
  · rfl

theorem Fits.change (h : Fits ok hasBase text s block) (hin : position + removed ≤ text.length)
    (hk : Keeps ok text position removed inserted) :
    Fits ok hasBase (splice text position removed inserted)
      (changeBlock position removed inserted.length s) block := by
  rcases hm : s.mapped with _ | _
  · rw [changeBlock_of_unmapped hm]
    exact ⟨by simp [hm], by simp [hm], by simp [hm], h.unmapped, h.base⟩
  obtain ⟨hr, hl⟩ := h.range hm
  obtain ⟨hb, he⟩ := h.ends hm
  have hlen := length_splice (s := inserted) hin
  generalize hu : changeBlock position removed inserted.length s = u
  have hf := changeBlock_fate position removed inserted.length hm hr
  rw [hu] at hf
  cases hf with
  | before h' hne =>
    refine ⟨fun _ => ⟨hr, by omega⟩, fun _ => ⟨hk.1 _ (by omega) hb, hk.1 _ h' he⟩,
      fun _ bytes hp => ?_, h.unmapped, h.base⟩
    rw [slice_splice_before h' (by omega)]
    exact h.covers hm bytes hp
  | behind h' hne =>
    refine ⟨fun _ => ⟨by simp only; omega, by simp only; omega⟩,
      fun _ => ⟨hk.2 _ h' (by omega) hb, hk.2 _ (by omega) hl he⟩, fun _ bytes hp => ?_,
      h.unmapped, h.base⟩
    rw [slice_splice_after h' (by omega)]
    exact h.covers hm bytes hp
  | grown h1 h2 hne =>
    refine ⟨fun _ => ⟨by simp only; omega, by simp only; omega⟩,
      fun _ => ⟨hk.1 _ h1 hb, hk.2 _ h2 hl he⟩, (fun _ bytes hp => by cases hp),
      fun _ => .inl rfl, nofun⟩
  | lost h0 h1 h2 =>
    exact ⟨by simp [h1], by simp [h1], by simp [h1], fun _ => .inl h2, by simp [h2]⟩

/-- The range starts at the edit and is not empty. -/
def tied (position : Nat) (s : BlockState) : Bool :=
  s.mapped && (s.begin_ == position && position < s.end_)

/-- The mapped range starts at the edit. -/
def startsAt (position : Nat) (s : BlockState) : Bool := s.mapped && s.begin_ == position

theorem tied_iff : tied position s ↔ s.mapped = true ∧ s.begin_ = position ∧ position < s.end_ := by
  simp [tied]

/-- After an insertion the tied ranges are those that started at it. -/
theorem tied_changeBlock (hr : s.mapped = true → s.begin_ ≤ s.end_) (hn : 0 < n) :
    tied position (changeBlock position 0 n s) = startsAt position s := by
  rcases hm : s.mapped with _ | _
  · rw [changeBlock_of_unmapped hm]; simp [tied, startsAt, hm]
  have hr := hr hm
  have hf := changeBlock_fate position 0 n hm hr
  rw [Bool.eq_iff_iff, tied_iff]
  generalize changeBlock position 0 n s = u at hf
  simp only [startsAt, hm, Bool.true_and, beq_iff_eq]
  cases hf with
  | before h hne => omega
  | behind h hne => simp only; omega
  | grown h1 h2 hne => simp only [hm, true_and]; omega
  | lost h0 h1 h2 => omega

theorem unresolved_of_tied (hr : s.mapped = true → s.begin_ ≤ s.end_) (hn : 0 < n)
    (h : tied position (changeBlock position 0 n s)) :
    (changeBlock position 0 n s).resolution = .unresolved := by
  rcases hm : s.mapped with _ | _
  · rw [changeBlock_of_unmapped hm, tied_iff, hm] at h
    cases h.1
  have hf := changeBlock_fate position 0 n hm (hr hm)
  rw [tied_iff] at h
  generalize changeBlock position 0 n s = u at hf h
  cases hf with
  | before h1 hne => omega
  | behind h1 hne => simp only at h; omega
  | grown h1 h2 hne => rfl
  | lost h0 h1 h2 => exact h2

/-- Two ranges that were apart stay apart, unless an insertion grows both. -/
theorem Apart.change (position removed n : Nat) (h : Apart s t)
    (hs : s.mapped = true → s.begin_ ≤ s.end_) (ht : t.mapped = true → t.begin_ ≤ t.end_)
    (hm : (changeBlock position removed n s).mapped = true)
    (hm' : (changeBlock position removed n t).mapped = true) :
    (changeBlock position removed n s).end_ ≤ (changeBlock position removed n t).begin_ ∨
      (removed = 0 ∧ 0 < n) ∧ startsAt position s = true ∧ startsAt position t = true := by
  have hsm := mapped_of_changeBlock hm
  have htm := mapped_of_changeBlock hm'
  have hs := hs hsm
  have ht := ht htm
  have hst := h hsm htm
  have hf := changeBlock_fate position removed n hsm hs
  have hf' := changeBlock_fate position removed n htm ht
  simp only [startsAt, hsm, htm, Bool.true_and, beq_iff_eq]
  generalize changeBlock position removed n s = u at hf hm
  generalize changeBlock position removed n t = v at hf' hm'
  cases hf with
  | lost h0 h1 h2 => rw [h1] at hm; cases hm
  | before h1 hne =>
    left
    cases hf' with
    | lost h0 h1 h2 => rw [h1] at hm'; cases hm'
    | before => exact hst
    | behind => simp only; omega
    | grown => exact hst
  | behind h1 hne =>
    left
    cases hf' with
    | lost h0 h1 h2 => rw [h1] at hm'; cases hm'
    | before | behind | grown => simp only; omega
  | grown h1 h2 hne =>
    cases hf' with
    | lost h0 h1 h2 => rw [h1] at hm'; cases hm'
    | before | behind | grown => simp only; omega

end Change

/-! ## Neighbours that grow over each other -/

/-- The runs of odd length among the elements with `p`; `odd` is the parity of the run that is
open. -/
def oddRuns {α : Type} (p : α → Bool) : (odd : Bool) → List α → Nat
  | odd, [] => if odd then 1 else 0
  | odd, x :: xs =>
    if p x then oddRuns p (!odd) xs else (if odd then 1 else 0) + oddRuns p false xs

/-- Ranges that are apart, or both grew from the same position. -/
def ApartOrTied (position : Nat) (s t : BlockState) : Prop :=
  s.mapped = true → t.mapped = true → s.end_ ≤ t.begin_ ∨ tied position s ∧ tied position t

section Ties

variable {position : Nat} {s : BlockState} {rest : List BlockState}

theorem tied_unmapped : tied position { s with mapped := false } = false := rfl

theorem pairwise_unmapped (h : (s :: rest).Pairwise (ApartOrTied position)) :
    ({ s with mapped := false } :: rest).Pairwise (ApartOrTied position) :=
  pairwise_cons.mpr ⟨(fun _ _ hm => by cases hm), (pairwise_cons.mp h).2⟩

/-- Two neighbours are unmapped exactly when both are tied. -/
theorem overlap_iff {t : BlockState} (h : ApartOrTied position s t) :
    (s.mapped && (t.mapped && s.end_ > t.begin_)) = true ↔ tied position s ∧ tied position t := by
  simp only [Bool.and_eq_true, decide_eq_true_eq]
  constructor
  · rintro ⟨h1, h2, h3⟩
    exact (h h1 h2).resolve_left (by omega)
  · rintro ⟨h1, h2⟩
    rw [tied_iff] at h1 h2
    exact ⟨h1.1, h2.1, by omega⟩

/-- Only tied ranges are unmapped. -/
def KeptOrTied (position : Nat) (t u : BlockState) : Prop :=
  u = t ∨ tied position t ∧ u = { t with mapped := false }

theorem unmapFrom_forall₂ (h : (s :: rest).Pairwise (ApartOrTied position)) :
    List.Forall₂ (KeptOrTied position) (s :: rest) (unmapFrom s rest) := by
  induction rest generalizing s with
  | nil => exact .cons (.inl rfl) .nil
  | cons t rest ih =>
    obtain ⟨h1, h2⟩ := pairwise_cons.mp h
    rw [unmapFrom]
    split
    · rename_i hov
      obtain ⟨hs, ht⟩ := (overlap_iff (h1 t (by simp))).mp hov
      refine .cons (.inr ⟨hs, rfl⟩) ?_
      obtain ⟨u, us, hu, htail, heq⟩ := forall₂_cons_left_iff.mp (ih (pairwise_unmapped h2))
      rw [heq]
      refine .cons (.inr ⟨ht, ?_⟩) htail
      rcases hu with hu | hu
      · exact hu
      · rw [tied_unmapped] at hu; cases hu.1
    · exact .cons (.inl rfl) (ih h2)

/-- What is left of the tied ranges: one for each odd run. -/
theorem countP_unmapFrom (h : (s :: rest).Pairwise (ApartOrTied position)) :
    (unmapFrom s rest).countP (tied position) = oddRuns (tied position) false (s :: rest) := by
  induction rest generalizing s with
  | nil => cases hs : tied position s <;> simp [unmapFrom, oddRuns, hs]
  | cons t rest ih =>
    obtain ⟨h1, h2⟩ := pairwise_cons.mp h
    have hov := overlap_iff (h1 t (by simp))
    rw [unmapFrom]
    by_cases hboth : tied position s ∧ tied position t
    · rw [if_pos (hov.mpr hboth), countP_cons_of_neg (by simp [tied_unmapped]),
        ih (pairwise_unmapped h2)]
      simp [oddRuns, hboth.1, hboth.2, tied_unmapped]
    · rw [if_neg (mt hov.mp hboth), countP_cons, ih h2]
      cases hs : tied position s
      · simp [oddRuns, hs]
      · have ht : tied position t = false := by simpa [hs] using hboth
        simp [oddRuns, hs, ht]; omega

/-- The second loop changes nothing if and only if no two neighbours overlap. -/
theorem unmapFrom_eq_iff (s : BlockState) (rest : List BlockState) :
    unmapFrom s rest = s :: rest ↔ (s :: rest).IsChain Apart := by
  induction rest generalizing s with
  | nil => exact iff_of_true rfl (.singleton s)
  | cons t rest ih =>
    rw [unmapFrom, isChain_cons_cons]
    split
    · rename_i h
      simp only [Bool.and_eq_true, decide_eq_true_eq] at h
      refine iff_of_false (fun heq => ?_) fun hapart => ?_
      · have hs := congrArg BlockState.mapped (cons.inj heq).1
        rw [h.1] at hs
        cases hs
      · have := hapart.1 h.1 h.2.1
        omega
    · rename_i h
      simp only [Bool.and_eq_true, decide_eq_true_eq] at h
      have hapart : Apart s t := fun hs ht => Nat.not_lt.mp fun hlt => h ⟨hs, ht, hlt⟩
      rw [cons_inj_right, ih]
      exact (and_iff_right hapart).symm

theorem unmapTies_eq_iff {states : List BlockState} :
    unmapTies states = states ↔ states.IsChain Apart := by
  cases states with
  | nil => exact iff_of_true rfl .nil
  | cons s rest => exact unmapFrom_eq_iff s rest

/-- Ranges are apart if and only if at most one tied range is left. -/
theorem pairwise_apart_iff {states : List BlockState} (h : states.Pairwise (ApartOrTied position)) :
    states.Pairwise Apart ↔ states.countP (tied position) ≤ 1 := by
  induction states with
  | nil => simp
  | cons s rest ih =>
    obtain ⟨h1, h2⟩ := pairwise_cons.mp h
    rw [pairwise_cons, ih h2, countP_cons]
    by_cases hs : tied position s
    · rw [if_pos hs]
      -- A second tied range starts before the end of this one.
      have hnone : (∀ t ∈ rest, Apart s t) ↔ rest.countP (tied position) = 0 := by
        rw [countP_eq_zero]
        constructor
        · intro hall t ht htie
          have h3 := tied_iff.mp hs
          have h4 := tied_iff.mp htie
          have := hall t ht h3.1 h4.1
          omega
        · intro hall t ht hm hm'
          exact (h1 t ht hm hm').resolve_right fun hb => hall t ht hb.2
      rw [hnone]
      omega
    · rw [if_neg hs]
      exact ⟨fun h => by omega, fun h => ⟨fun t ht hm hm' =>
        (h1 t ht hm hm').resolve_right fun hb => hs hb.1, by omega⟩⟩

theorem KeptOrTied.pairwise {ts us : List BlockState} (h : List.Forall₂ (KeptOrTied position) ts us)
    (hp : ts.Pairwise (ApartOrTied position)) : us.Pairwise (ApartOrTied position) := by
  have hmem : ∀ {ts us : List BlockState}, List.Forall₂ (KeptOrTied position) ts us → ∀ u ∈ us,
      u.mapped = true → u ∈ ts := by
    intro ts us h
    induction h with
    | nil => intro u hu; cases hu
    | cons htu _ ih =>
      intro u hu hm
      rcases mem_cons.mp hu with rfl | hu
      · rcases htu with rfl | ⟨-, rfl⟩
        · exact mem_cons_self ..
        · cases hm
      · exact mem_cons_of_mem _ (ih u hu hm)
  induction h with
  | nil => exact .nil
  | cons htu hrest ih =>
    obtain ⟨h1, h2⟩ := pairwise_cons.mp hp
    refine pairwise_cons.mpr ⟨fun v hv hm hm' => ?_, ih h2⟩
    rcases htu with rfl | ⟨-, rfl⟩
    · exact h1 v (hmem hrest v hv hm') hm hm'
    · cases hm

/-- What the second loop of `TextChanged` leaves of ranges that are apart or tied. -/
theorem unmapTies_spec {states : List BlockState} (h : states.Pairwise (ApartOrTied position)) :
    List.Forall₂ (KeptOrTied position) states (unmapTies states) ∧
    ((unmapTies states).Pairwise Apart ↔ oddRuns (tied position) false states ≤ 1) := by
  cases states with
  | nil => exact ⟨.nil, by simp [unmapTies, oddRuns]⟩
  | cons s rest =>
    have hall := unmapFrom_forall₂ h
    refine ⟨hall, ?_⟩
    rw [unmapTies, pairwise_apart_iff (KeptOrTied.pairwise hall h), countP_unmapFrom h]

theorem oddRuns_map {α β : Type} {p : β → Bool} {q : α → Bool} {f : α → β} {xs : List α}
    (h : ∀ x ∈ xs, p (f x) = q x) (odd : Bool) : oddRuns p odd (xs.map f) = oddRuns q odd xs := by
  induction xs generalizing odd with
  | nil => rfl
  | cons x xs ih =>
    rw [map_cons, oddRuns, oddRuns, h x (by simp), ih fun y hy => h y (by simp [hy]),
      ih fun y hy => h y (by simp [hy])]

end Ties

/-! ## Typing -/

/-- Where an edit only inserts, the mapped ranges that start at it form at most one run of
neighbours of odd length. -/
def TieSafe (states : List BlockState) (position removed inserted : Nat) : Prop :=
  removed = 0 → 0 < inserted → oddRuns (startsAt position) false states ≤ 1

instance {states : List BlockState} {position removed inserted : Nat} :
    Decidable (TieSafe states position removed inserted) :=
  inferInstanceAs (Decidable (_ → _ → _))

section Operations

variable {ok : Bytes → Nat → Prop} {plan : MergePlan} {states : List BlockState}
  {text inserted : Bytes} {position removed : Nat}

theorem Good.range (h : Good ok plan states text) {s : BlockState} (hs : s ∈ states)
    (hm : s.mapped = true) : s.begin_ ≤ s.end_ ∧ s.end_ ≤ text.length := by
  obtain ⟨i, hi, rfl⟩ := mem_iff_getElem.mp hs
  have hfit := h.blocks.get hi (by rw [← h.blocks.length_eq]; exact hi)
  exact hfit.range hm

/-- After `TextChanged` every block still fits. They do not overlap if and only if the edit is
safe. -/
theorem Good.change_iff (h : Good ok plan states text) (hin : position + removed ≤ text.length)
    (hk : Keeps ok text position removed inserted) :
    Good ok plan (unmapTies (states.map (changeBlock position removed inserted.length)))
      (splice text position removed inserted) ↔
      TieSafe states position removed inserted.length := by
  have hrange : ∀ s ∈ states, s.mapped = true → s.begin_ ≤ s.end_ := fun s hs hm =>
    (h.range hs hm).1
  have hfit : List.Forall₂ (Fits ok plan.hasBase (splice text position removed inserted))
      (states.map (changeBlock position removed inserted.length)) plan.blocks :=
    forall₂_map_left_iff.mpr (h.blocks.imp fun s b hs => hs.change hin hk)
  have hapart := h.apart.imp_of_mem fun {s t} hs ht hst hm hm' =>
    hst.change position removed inserted.length (hrange s hs) (hrange t ht) hm hm'
  generalize hmap : states.map (changeBlock position removed inserted.length) = us at hfit
  by_cases hins : removed = 0 ∧ 0 < inserted.length
  · obtain ⟨rfl, hn⟩ := hins
    have htied : us.Pairwise (ApartOrTied position) := by
      rw [← hmap, pairwise_map]
      refine hapart.imp_of_mem fun {s t} hs ht hst hm hm' => (hst hm hm').imp_right fun hb => ?_
      rw [tied_changeBlock (hrange s hs) hn, tied_changeBlock (hrange t ht) hn]
      exact hb.2
    have hsafe : TieSafe states position 0 inserted.length ↔
        oddRuns (tied position) false us ≤ 1 := by
      rw [← hmap, oddRuns_map (fun s hs => tied_changeBlock (hrange s hs) hn) false]
      exact ⟨fun hs => hs rfl hn, fun hs _ _ => hs⟩
    obtain ⟨hkept, hiff⟩ := unmapTies_spec htied
    rw [hsafe, ← hiff]
    refine ⟨fun hg => hg.apart, fun ha => ⟨?_, ha⟩⟩
    -- Ranges that are unmapped here were made unresolved by the insertion.
    have hunres : ∀ u ∈ us, tied position u → u.resolution = .unresolved := by
      intro u hu ht
      rw [← hmap] at hu
      obtain ⟨s, hs, rfl⟩ := mem_map.mp hu
      exact unresolved_of_tied (hrange s hs) hn ht
    clear hmap hiff ha htied hsafe
    generalize unmapTies us = vs at hkept
    generalize plan.blocks = blocks at hfit
    induction hkept generalizing blocks with
    | nil => exact hfit
    | @cons u v us vs huv _ ih =>
      obtain ⟨b, bs, hub, hrest, rfl⟩ := forall₂_cons_left_iff.mp hfit
      refine .cons ?_ (ih (fun w hw => hunres w (by simp [hw])) bs hrest)
      rcases huv with rfl | ⟨ht, rfl⟩
      · exact hub
      · exact ⟨by simp, by simp, by simp, fun _ => .inl (hunres u (by simp) ht), hub.base⟩
  · have hpair : us.Pairwise Apart := by
      rw [← hmap, pairwise_map]
      exact hapart.imp fun {s t} hst hm hm' => (hst hm hm').resolve_right fun hb => hins hb.1
    rw [unmapTies_eq_iff.mpr hpair.isChain]
    exact iff_of_true ⟨hfit, hpair⟩ fun h0 hn => absurd ⟨h0, hn⟩ hins

/-! ## Decisions -/

variable {id i : Nat} {b : MergeBlock}

theorem index_ok {m : MergeModel} {p : BlockState × MergeBlock} (h : m.index id = .ok p) :
    m.state[id - 1]? = some p.1 ∧ m.plan.blocks[id - 1]? = some p.2 := by
  unfold index at h
  split at h
  · rename_i s b hs hb
    simp only [bind_eq_ok, failIf_eq_ok, pure_eq_ok] at h
    obtain ⟨-, -, rfl⟩ := h
    exact ⟨hs, hb⟩
  · cases h

/-- What `Prepare` found out about the block. -/
theorem prepare_ok {m : MergeModel} {revision : Nat} {choice : Resolution} {edit : BlockEdit}
    (h : m.prepare id revision choice = .ok edit) :
    ∃ s b, m.state[id - 1]? = some s ∧ m.plan.blocks[id - 1]? = some b ∧ s.mapped = true ∧
      (choice = .base → m.plan.hasBase = true) ∧ choice ≠ .unresolved ∧
      choiceText b choice = .ok edit.replacement ∧ edit.id = id ∧ edit.begin_ = s.begin_ ∧
      edit.end_ = s.end_ ∧ edit.resolution = choice := by
  simp only [prepare, bind_eq_ok, failIf_eq_ok, pure_eq_ok] at h
  obtain ⟨-, -, p, hp, -, hm, -, hc, bytes, hb, rfl⟩ := h
  obtain ⟨h1, h2⟩ := index_ok hp
  refine ⟨p.1, p.2, h1, h2, by simpa using hm, fun hbase => ?_,
    fun hu => hc (.inl hu), hb, rfl, rfl,
    rfl, rfl⟩
  rcases hh : m.plan.hasBase with _ | _
  · exact absurd (.inr ⟨hbase, hh⟩) hc
  · rfl

theorem promised_of_choiceText {choice : Resolution} {bytes expected : Bytes}
    (h : choiceText b choice = .ok bytes) (hp : expected ∈ promised b choice) :
    bytes = expected := by
  cases choice <;> simp_all [choiceText, promised]

theorem list_split {α : Type} {xs : List α} {x : α} (h : xs[i]? = some x) :
    xs = xs.take i ++ x :: xs.drop (i + 1) := by
  obtain ⟨hi, rfl⟩ := List.getElem?_eq_some_iff.mp h
  rw [cons_getElem_drop_succ, take_append_drop]

theorem Good.cons_of_split (h : Good ok plan states text) {s : BlockState}
    (hs : states[i]? = some s) (hb : plan.blocks[i]? = some b) :
    List.Forall₂ (Fits ok plan.hasBase text) (states.take i) (plan.blocks.take i) ∧
    Fits ok plan.hasBase text s b ∧
    List.Forall₂ (Fits ok plan.hasBase text) (states.drop (i + 1)) (plan.blocks.drop (i + 1)) ∧
    (∀ t ∈ states.take i, Apart t s) ∧ (∀ t ∈ states.drop (i + 1), Apart s t) := by
  obtain ⟨hi, rfl⟩ := List.getElem?_eq_some_iff.mp hs
  obtain ⟨hi', rfl⟩ := List.getElem?_eq_some_iff.mp hb
  have hdrop := forall₂_drop i h.blocks
  rw [← cons_getElem_drop_succ (h := hi), ← cons_getElem_drop_succ (h := hi')] at hdrop
  have hap := h.apart
  rw [list_split hs] at hap
  obtain ⟨-, h2, h3⟩ := pairwise_append.mp hap
  obtain ⟨hb, hrest⟩ := forall₂_cons.mp hdrop
  exact ⟨forall₂_take i h.blocks, hb, hrest, fun t ht => h3 t ht _ (mem_cons_self ..),
    fun t ht => (pairwise_cons.mp h2).1 t ht⟩

/-- A range before another one keeps what it says when that one is replaced. -/
theorem Fits.before {hasBase : Bool} {s : BlockState}
    (h : Fits ok hasBase text s b) (hs : s.mapped = true → s.end_ ≤ position)
    (hin : position + removed ≤ text.length) (hk : Keeps ok text position removed inserted) :
    Fits ok hasBase (splice text position removed inserted) s b := by
  have hlen := length_splice (s := inserted) hin
  refine ⟨fun hm => ?_, fun hm => ?_, fun hm bytes hp => ?_, h.unmapped, h.base⟩
  · have := h.range hm
    have := hs hm
    exact ⟨(h.range hm).1, by omega⟩
  · have := h.range hm
    have := hs hm
    exact ⟨hk.1 _ (by omega) (h.ends hm).1, hk.1 _ (by omega) (h.ends hm).2⟩
  · rw [slice_splice_before (hs hm) (by omega)]
    exact h.covers hm bytes hp

/-- A range behind another one moves when that one is replaced. -/
theorem Fits.behind {hasBase : Bool} {s : BlockState}
    (h : Fits ok hasBase text s b) (hs : s.mapped = true → position + removed ≤ s.begin_)
    (hin : position + removed ≤ text.length) (hk : Keeps ok text position removed inserted) :
    Fits ok hasBase (splice text position removed inserted)
      (shiftBlock removed inserted.length s) b := by
  have hlen := length_splice (s := inserted) hin
  unfold shiftBlock
  rcases hm : s.mapped with _ | _
  · exact ⟨by simp [hm], by simp [hm], by simp [hm], h.unmapped, h.base⟩
  have hr := h.range hm
  have he := h.ends hm
  have hb := hs hm
  rw [if_pos rfl, shift_eq (by omega), shift_eq (by omega)]
  refine ⟨fun _ => ⟨by simp only; omega, by simp only; omega⟩,
    fun _ => ⟨hk.2 _ hb (by omega) he.1, hk.2 _ (by omega) hr.2 he.2⟩, fun _ bytes hp => ?_,
    nofun, h.base⟩
  rw [slice_splice_after hb (by omega)]
  exact h.covers hm bytes hp

theorem pairwise_shiftBlock {rest : List BlockState} {n from_ : Nat} (h : rest.Pairwise Apart)
    (hr : ∀ s ∈ rest, s.mapped = true → from_ + removed ≤ s.begin_ ∧ s.begin_ ≤ s.end_) :
    (rest.map (shiftBlock removed n)).Pairwise Apart ∧
    ∀ t ∈ rest.map (shiftBlock removed n), t.mapped = true → from_ + n ≤ t.begin_ := by
  constructor
  · refine pairwise_map.mpr (h.imp_of_mem fun {s t} hs ht hst hm hm' => ?_)
    rcases hsm : s.mapped with _ | _
    · simp [shiftBlock, hsm] at hm
    rcases htm : t.mapped with _ | _
    · simp [shiftBlock, htm] at hm'
    have h1 := hr s hs hsm
    have h3 := hst hsm htm
    simp only [shiftBlock, hsm, htm, if_true]
    rw [shift_eq (by omega), shift_eq (by omega)]
    omega
  · intro t ht hm
    obtain ⟨s, hs, rfl⟩ := mem_map.mp ht
    rcases hsm : s.mapped with _ | _
    · simp [shiftBlock, hsm] at hm
    have h1 := hr s hs hsm
    simp only [shiftBlock, hsm, if_true]
    rw [shift_eq (by omega)]
    omega

/-- A decision, with its text put in place of the range of the block. -/
theorem Good.choose (h : Good ok plan states text) {s : BlockState} {edit : BlockEdit}
    (hs : states[i]? = some s) (hb : plan.blocks[i]? = some b) (hm : s.mapped = true)
    (hbase : edit.resolution = .base → plan.hasBase = true)
    (htext : choiceText b edit.resolution = .ok edit.replacement)
    (hk : edit.resolution ≠ .manual → Keeps ok text s.begin_ (s.end_ - s.begin_) edit.replacement) :
    Good ok plan (applyAt states i edit) (if edit.resolution = .manual then text
      else splice text s.begin_ (s.end_ - s.begin_) edit.replacement) := by
  obtain ⟨hfront, hfit, hback, hA, hB⟩ := h.cons_of_split hs hb
  obtain ⟨hr, hl⟩ := hfit.range hm
  have hblocks := list_split hb
  have hap := h.apart
  rw [list_split hs] at hap
  obtain ⟨hap1, hap2, hap3⟩ := pairwise_append.mp hap
  obtain ⟨hap4, hap5⟩ := pairwise_cons.mp hap2
  have hi : i < states.length := (List.getElem?_eq_some_iff.mp hs).1
  unfold applyAt
  rw [hs]
  simp only
  by_cases hman : edit.resolution = .manual
  · rw [if_pos hman, if_pos hman, set_eq_take_append_cons_drop, if_pos hi]
    refine ⟨?_, pairwise_append.mpr ⟨hap1, pairwise_cons.mpr ⟨hap4, hap5⟩, ?_⟩⟩
    · rw [hblocks]
      refine rel_append hfront (.cons ⟨hfit.range, hfit.ends, fun _ bytes hp => ?_, ?_, ?_⟩ hback)
      · cases hp
      · exact fun _ => .inr rfl
      · exact nofun
    · intro t ht u hu
      rcases mem_cons.mp hu with rfl | hu
      · exact hA t ht
      · exact hap3 t ht u (mem_cons_of_mem _ hu)
  · rw [if_neg hman, if_neg hman]
    have hk := hk hman
    have hin : s.begin_ + (s.end_ - s.begin_) ≤ text.length := by omega
    have hlen := length_splice (s := edit.replacement) hin
    have hrest : ∀ t ∈ states.drop (i + 1), t.mapped = true →
        s.begin_ + (s.end_ - s.begin_) ≤ t.begin_ ∧ t.begin_ ≤ t.end_ := fun t ht htm =>
      ⟨by have := hB t ht hm htm; omega, (h.range (mem_of_mem_drop ht) htm).1⟩
    obtain ⟨hsh1, hsh2⟩ := pairwise_shiftBlock (n := edit.replacement.length) hap5 hrest
    refine ⟨?_, pairwise_append.mpr ⟨hap1, pairwise_cons.mpr ⟨?_, hsh1⟩, ?_⟩⟩
    · rw [hblocks]
      refine rel_append ?_ (.cons ⟨fun _ => ⟨by simp only; omega, by simp only; omega⟩,
        fun _ => ⟨hk.1 _ (Nat.le_refl _) (hfit.ends hm).1, ?_⟩, fun _ bytes hp => ?_, ?_, hbase⟩ ?_)
      · rw [forall₂_iff_zip] at hfront ⊢
        refine ⟨hfront.1, fun {t c} htc => (hfront.2 htc).before (fun htm => ?_) hin hk⟩
        exact hA t (of_mem_zip htc).1 htm hm
      · have := hk.2 s.end_ (by omega) hl (hfit.ends hm).2
        rwa [show s.end_ - (s.end_ - s.begin_) + edit.replacement.length =
          s.begin_ + edit.replacement.length by omega] at this
      · simp only at hp ⊢
        rw [slice_splice_self (by omega)]
        exact promised_of_choiceText htext hp
      · intro hmm; simp only at hmm; rw [hm] at hmm; cases hmm
      · rw [forall₂_map_left_iff, forall₂_iff_zip]
        rw [forall₂_iff_zip] at hback
        exact ⟨hback.1, fun {t c} htc => (hback.2 htc).behind
          (fun htm => (hrest t (of_mem_zip htc).1 htm).1) hin hk⟩
    · intro t ht _ htm
      exact hsh2 t ht htm
    · intro t ht u hu
      rcases mem_cons.mp hu with rfl | hu
      · exact fun htm _ => hA t ht htm hm
      · intro htm hum
        have h1 := hsh2 u hu hum
        have h2 := hA t ht htm hm
        omega

end Operations

end Hc.Compare
