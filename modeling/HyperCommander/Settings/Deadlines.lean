import HyperCommander.Settings.FileColorRules

/-!
# Deadlines of cached styles

`validUntilUtcMs_` is the earliest later time at which a built-in condition with a relative date
changes.

* `within_of_nextChange`: a relative date keeps its value until its next change.
* `deadline_spec`: the deadline is later than the reference time, and not later than any such
  change.
* `evaluateWith_congr`: an evaluation sees the reference time only through its conditions.
* `deadline_sound`: when the deadline can be relied upon.
-/

namespace Hc.Settings

open Option List Unicode Columns

/-! ### One relative date -/

/-- When the test of a relative date changes next. -/
def nextChange (instant reference : Int64) (number : UInt64) : Option Int64 :=
  (change instant reference number).filter fun v => v > reference

section Change

variable {instant reference later v : Int64} {number : UInt64}

theorem lt_of_nextChange (h : nextChange instant reference number = some v) :
    reference.toInt < v.toInt := by
  obtain ⟨-, hv⟩ := filter_eq_some_iff.1 h
  simpa [Int64.lt_iff_toInt_lt] using hv

/-- There is an instant after the last one of the span. -/
theorem room_iff :
    number < Int64.maxValue.toUInt64 - instant.toUInt64 ↔
    instant.toInt + number.toNat + 1 < 2 ^ 63 := by
  have h1 := toInt_cases instant
  have h2 : Int64.maxValue.toUInt64.toNat = 2 ^ 63 - 1 := by decide
  rw [UInt64.lt_iff_toNat_lt, UInt64.toNat_sub, h2]
  omega

theorem toInt_after (h : instant.toInt + number.toNat + 1 < 2 ^ 63) :
    (instant.toUInt64 + number + 1).toInt64.toInt = instant.toInt + number.toNat + 1 := by
  have h1 := toInt_cases instant
  have h2 := toInt_cases (instant.toUInt64 + number + 1).toInt64
  rw [UInt64.toUInt64_toInt64, UInt64.toNat_add, UInt64.toNat_add] at h2
  have h4 : (1 : UInt64).toNat = 1 := rfl
  omega

/-- What `change` computes, in exact numbers. -/
theorem change_eq_some (h : change instant reference number = some v) :
    (reference.toInt < instant.toInt ∧ v = instant) ∨
      (instant.toInt ≤ reference.toInt ∧ v.toInt = instant.toInt + number.toNat + 1) := by
  unfold change at h
  split at h
  · rename_i hlt
    cases h
    exact .inl ⟨Int64.lt_iff_toInt_lt.1 hlt, rfl⟩
  · rename_i hle
    split at h
    · rename_i hroom
      cases h
      refine .inr ⟨?_, toInt_after (room_iff.1 hroom)⟩
      rw [gt_iff_lt, Int64.lt_iff_toInt_lt] at hle
      omega
    · cases h

theorem change_eq_none (h : change instant reference number = none) :
    instant.toInt ≤ reference.toInt ∧
    ∀ later : Int64, later.toInt - instant.toInt ≤ number.toNat := by
  unfold change at h
  split at h
  · cases h
  · rename_i hle
    split at h
    · cases h
    · rename_i hroom
      rw [gt_iff_lt, Int64.lt_iff_toInt_lt] at hle
      rw [room_iff] at hroom
      refine ⟨by omega, fun later => ?_⟩
      have := toInt_cases later
      omega

/-- A relative date keeps its value until its next change. -/
theorem within_of_nextChange (hle : reference.toInt ≤ later.toInt)
    (h : ∀ v, nextChange instant reference number = some v → later.toInt < v.toInt) :
    within instant reference number = within instant later number := by
  rw [Bool.eq_iff_iff, within_iff, within_iff]
  cases hc : change instant reference number with
  | none =>
    obtain ⟨h1, h2⟩ := change_eq_none hc
    have := h2 later
    omega
  | some v =>
    by_cases hv : v > reference
    · have := h v (by rw [nextChange, hc, filter_some, if_pos (by simpa using hv)])
      rcases change_eq_some hc with ⟨h1, rfl⟩ | ⟨h1, h2⟩ <;> omega
    · rw [gt_iff_lt, Int64.lt_iff_toInt_lt] at hv
      rcases change_eq_some hc with ⟨h1, rfl⟩ | ⟨h1, h2⟩ <;> omega

/-- At its next change a relative date has the other value. -/
theorem within_ne_of_nextChange (h : nextChange instant reference number = some v) :
    within instant v number ≠ within instant reference number := by
  have hlt := lt_of_nextChange h
  obtain ⟨hc, -⟩ := filter_eq_some_iff.1 h
  rw [ne_eq, Bool.eq_iff_iff, within_iff, within_iff]
  rcases change_eq_some hc with ⟨h1, rfl⟩ | ⟨h1, h2⟩ <;> omega

end Change

/-! ### The earliest of them -/

/-- The next change of a built-in condition with a relative date. -/
def Condition.next (c : Condition) (input : FileRuleInput) : Option Int64 :=
  if c.relativeDate then
    input.modifiedUtcMs.bind fun modified => nextChange modified input.referenceUtcMs c.number
  else none

/-- One of the changes is at or before `w`. -/
def Covers (until_ : Option Int64) (w : Int64) : Prop := ∃ v, until_ = some v ∧ v.toInt ≤ w.toInt

section Deadline

variable {rules : FileColorRules} {input : FileRuleInput} {reference v w : Int64}
  {until_ changed : Option Int64}

theorem earlier_spec (h : ∀ v, until_ = some v → reference.toInt < v.toInt)
    (changed : Option Int64) :
    (∀ v, earlier reference until_ changed = some v → reference.toInt < v.toInt) ∧
      (∀ w, Covers until_ w → Covers (earlier reference until_ changed) w) ∧
      ∀ w, changed.filter (fun v => v > reference) = some w →
        Covers (earlier reference until_ changed) w := by
  cases changed with
  | none => exact ⟨h, fun _ hw => hw, fun _ hw => by cases hw⟩
  | some u =>
    unfold earlier
    dsimp only
    split
    · rename_i hu
      rw [Bool.and_eq_true, decide_eq_true_eq, gt_iff_lt, Int64.lt_iff_toInt_lt] at hu
      obtain ⟨hlt, hall⟩ := hu
      refine ⟨?_, ?_, ?_⟩
      · intro v hv
        cases hv
        exact hlt
      · rintro w ⟨v, rfl, hvw⟩
        refine ⟨u, rfl, ?_⟩
        have : u.toInt < v.toInt := by simpa [Int64.lt_iff_toInt_lt] using hall
        omega
      · intro w hw
        obtain ⟨rfl, -⟩ : u = w ∧ _ := by simpa using hw
        exact ⟨u, rfl, le_refl _⟩
    · rename_i hu
      refine ⟨h, fun _ hw => hw, fun w hw => ?_⟩
      obtain ⟨rfl, hlt⟩ : u = w ∧ reference < w := by simpa using hw
      -- it is later than a deadline that is there already
      cases until_ with
      | none => simp [hlt] at hu
      | some v =>
        refine ⟨v, rfl, ?_⟩
        simp only [hlt, decide_true, Bool.true_and, all_some, decide_eq_true_eq,
          Int64.lt_iff_toInt_lt] at hu
        omega

/-- The loop over conditions keeps what is known about the deadline so far. -/
theorem foldl_earlier {modified : Int64} (hm : input.modifiedUtcMs = some modified)
    (cs : List Condition) (h : ∀ v, until_ = some v → input.referenceUtcMs.toInt < v.toInt) :
    let out := cs.foldl (fun until_ c =>
      if c.relativeDate then
        earlier input.referenceUtcMs until_ (change modified input.referenceUtcMs c.number)
      else until_) until_
    (∀ v, out = some v → input.referenceUtcMs.toInt < v.toInt) ∧
      (∀ w, Covers until_ w → Covers out w) ∧ ∀ c ∈ cs, ∀ w, c.next input = some w →
      Covers out w := by
  induction cs generalizing until_ with
  | nil => exact ⟨h, fun _ hw => hw, by simp⟩
  | cons c cs ih =>
    dsimp only [foldl_cons]
    by_cases hc : c.relativeDate = true
    · rw [if_pos hc]
      obtain ⟨h1, h2, h3⟩ :=
        earlier_spec h (change modified input.referenceUtcMs c.number)
      obtain ⟨i1, i2, i3⟩ := ih h1
      refine ⟨i1, fun w hw => i2 w (h2 w hw), fun c' hc' w hw => ?_⟩
      rcases mem_cons.1 hc' with rfl | hc'
      · rw [Condition.next, if_pos hc, hm, bind_some] at hw
        exact i2 w (h3 w hw)
      · exact i3 c' hc' w hw
    · rw [if_neg hc]
      obtain ⟨i1, i2, i3⟩ := ih h
      refine ⟨i1, i2, fun c' hc' w hw => ?_⟩
      rcases mem_cons.1 hc' with rfl | hc'
      · rw [Condition.next, if_neg hc] at hw
        cases hw
      · exact i3 c' hc' w hw

/-- The deadline is later than the reference time, and no next change comes before it. -/
theorem deadline_spec (rules : FileColorRules) (input : FileRuleInput) :
    (∀ v, deadline rules input = some v → input.referenceUtcMs.toInt < v.toInt) ∧
      ∀ g ∈ rules.groups, ∀ c ∈ g.conditions, ∀ w, c.next input = some w →
        Covers (deadline rules input) w := by
  unfold deadline
  cases hm : input.modifiedUtcMs with
  | none => simp [Condition.next, hm]
  | some modified =>
    dsimp only
    split
    · obtain ⟨h1, -, h3⟩ := foldl_earlier hm (rules.groups.flatMap Group.conditions)
        (fun v (h : none = some v) => by cases h)
      exact ⟨h1, fun g hg c hc w hw => h3 c (mem_flatMap.2 ⟨g, hg, hc⟩) w hw⟩
    · rename_i hflag
      refine ⟨fun _ h => (by cases h), fun g hg c hc w hw => ?_⟩
      unfold Condition.next at hw
      split at hw
      · exact absurd (rules.relative_of_mem g hg c hc ‹_›) hflag
      · cases hw

end Deadline

/-! ### The rest of an evaluation -/

/-- Two inputs with the same values in the conditions of a rule. -/
def Condition.Agrees (qt : Qt) (c : Condition) (input input' : FileRuleInput) : Prop :=
  (∀ ext isFolder, conditionHit qt c input ext isFolder = conditionHit qt c input' ext isFolder) ∧
    (c.type = .fieldValue →
      c.field.evaluate qt.toEngine (input.fields.getD c.slot (.missing .pending))
        input.referenceUtcMs =
        c.field.evaluate qt.toEngine (input'.fields.getD c.slot (.missing .pending))
          input'.referenceUtcMs)

section Congr

variable {qt : Qt} {rules : FileColorRules} {input input' : FileRuleInput} {ext : Units}
  {isFolder all : Bool}

theorem hitOf_congr {c : Condition} (h : c.Agrees qt input input')
    (cached : Option CachedExtension) :
    hitOf qt input ext isFolder c cached = hitOf qt input' ext isFolder c cached := by
  unfold hitOf
  rw [h.1 ext isFolder]

theorem step_congr {c : Condition} (h : c.Agrees qt input input') (s : Scan) :
    s.step qt all input ext isFolder c = s.step qt all input' ext isFolder c := by
  unfold Scan.step
  split
  · rename_i hc
    rw [h.2 hc]
  · rw [hitOf_congr h]

theorem run_congr {cs : List Condition} (h : ∀ c ∈ cs, c.Agrees qt input input') (s : Scan) :
    Scan.run qt all input ext isFolder s cs = Scan.run qt all input' ext isFolder s cs := by
  induction cs generalizing s with
  | nil => rfl
  | cons c cs ih =>
    rw [Scan.run, Scan.run, step_congr (h c (by simp))]
    split
    · rfl
    · exact ih (fun c hc => h c (by simp [hc])) _

theorem decideGroups_congr {merge : Bool} {groups : List Group}
    (h : ∀ g ∈ groups, ∀ c ∈ g.conditions, c.Agrees qt input input') (index : Nat) (d : Decision) :
    decideGroups qt merge input ext isFolder index groups d =
      decideGroups qt merge input' ext isFolder index groups d := by
  induction groups generalizing index d with
  | nil => rfl
  | cons g groups ih =>
    have ih' := fun index d => ih (fun g hg => h g (by simp [hg])) index d
    rw [decideGroups, decideGroups, run_congr (h g (by simp))]
    simp only [ih']

end Congr

/-- The same input at another reference time. -/
def FileRuleInput.at_ (input : FileRuleInput) (later : Int64) : FileRuleInput :=
  { input with referenceUtcMs := later }

theorem decideCached_congr {qt : Qt} {rules : FileColorRules} {input : FileRuleInput}
    {later : Int64}
    (h : ∀ g ∈ rules.groups, ∀ c ∈ g.conditions, c.Agrees qt input (input.at_ later))
    (cached : Option CachedExtension) :
    decideCached qt rules input cached = decideCached qt rules (input.at_ later) cached := by
  unfold decideCached
  cases cached with
  | none => exact decideGroups_congr h 0 _
  | some entry =>
    simp only [decideGroups_congr h]
    rfl

/-- The result with another deadline. -/
def FileRuleResult.lasting (r : FileRuleResult) (until_ : Option Int64) : FileRuleResult :=
  { r with validUntilUtcMs := until_ }

@[simp] theorem lasting_lasting (r : FileRuleResult) (u v : Option Int64) :
    (r.lasting u).lasting v = r.lasting v := rfl

@[simp] theorem lasting_until (r : FileRuleResult) (u : Option Int64) :
    (r.lasting u).validUntilUtcMs = u := rfl

@[simp] theorem at_dark (input : FileRuleInput) (later : Int64) :
    (input.at_ later).dark = input.dark := rfl

section Until

variable {qt : Qt} {rules : FileColorRules} {dark diagnostics style : Bool} {until_ : Option Int64}

theorem addStyle_until (r : FileRuleResult) (g : Group) :
    addStyle dark diagnostics (r.lasting until_) g =
      (addStyle dark diagnostics r g).lasting until_ := by
  unfold addStyle FileRuleResult.lasting
  dsimp only
  split_ifs <;> rfl

theorem addFont_until (r : FileRuleResult) (fontOwners : List String) (g : Group) :
    addFont diagnostics (r.lasting until_) fontOwners g =
      (addFont diagnostics r fontOwners g).lasting until_ := by
  unfold addFont FileRuleResult.lasting
  dsimp only
  split_ifs <;> rfl

theorem styleOf_until (groups : List Group) (fontOwners : List String) (matched : List Nat)
    (r : FileRuleResult) :
    styleOf dark diagnostics groups fontOwners matched (r.lasting until_) =
      (styleOf dark diagnostics groups fontOwners matched r).lasting until_ := by
  induction matched generalizing fontOwners r with
  | nil => rfl
  | cons index matched ih =>
    rw [styleOf, styleOf]
    split
    · rfl
    · dsimp only
      rw [addStyle_until, addFont_until, ih]

/-- The deadline is carried through unchanged, and nothing else depends on it. -/
theorem finish_until (until_ : Option Int64) (d : Decision) :
    finish qt rules dark diagnostics style until_ d =
      (finish qt rules dark diagnostics style none d).lasting until_ := by
  unfold finish
  split
  · split_ifs <;> rfl
  · split
    · rfl
    · exact styleOf_until rules.groups [] d.matched
        { matched := !d.matched.isEmpty, error := d.error }

end Until

section Evaluate

variable {qt : Qt} {rules : FileColorRules} {input : FileRuleInput} {later : Int64}
  {cached : Option CachedExtension} {diagnostics style : Bool}

/-- An input that is evaluated at all. -/
def Evaluated (rules : FileColorRules) (input : FileRuleInput) : Prop :=
  input.name ≠ text ".." ∧ rules.groups ≠ []

theorem evaluated_at : Evaluated rules (input.at_ later) ↔ Evaluated rules input := Iff.rfl

theorem evaluateWith_of_not (h : ¬Evaluated rules input) :
    evaluateWith qt rules input cached diagnostics style = ({}, cached) := by
  rw [evaluateWith, if_pos]
  rw [Bool.or_eq_true, decide_eq_true_eq, List.isEmpty_iff]
  by_contra hn
  exact h (not_or.1 hn)

theorem evaluateWith_of (h : Evaluated rules input) :
    evaluateWith qt rules input cached diagnostics style =
      ((finish qt rules input.dark diagnostics style none
        (decideCached qt rules input cached)).lasting
        (deadline rules input), (decideCached qt rules input cached).cached) := by
  rw [evaluateWith, if_neg (by simpa [Evaluated] using h)]
  dsimp only
  rw [finish_until (deadline rules input)]

/-- The reference time is seen only through the conditions and the deadline. -/
theorem evaluateWith_congr
    (h : ∀ g ∈ rules.groups, ∀ c ∈ g.conditions, c.Agrees qt input (input.at_ later)) :
    (evaluateWith qt rules (input.at_ later) cached diagnostics style).1.lasting none =
      (evaluateWith qt rules input cached diagnostics style).1.lasting none := by
  by_cases he : Evaluated rules input
  · have he' : Evaluated rules (input.at_ later) := evaluated_at.2 he
    rw [evaluateWith_of he, evaluateWith_of he', ← decideCached_congr h, lasting_lasting,
      lasting_lasting,
      at_dark]
  · have he' : ¬Evaluated rules (input.at_ later) := fun h => he (evaluated_at.1 h)
    rw [evaluateWith_of_not he, evaluateWith_of_not he']

end Evaluate

/-! ### The deadline of a result -/

/-- The deadline of a result can be relied upon: until then, or forever, the result stays the
same. -/
def SoundDeadline (qt : Qt) (rules : FileColorRules) (input : FileRuleInput)
    (cached : Option CachedExtension) (diagnostics style : Bool) : Prop :=
  let r := (evaluateWith qt rules input cached diagnostics style).1
  (r.validUntilUtcMs = none → ∀ later, input.referenceUtcMs ≤ later →
      (evaluateWith qt rules (input.at_ later) cached diagnostics style).1.lasting none =
        r.lasting none) ∧
    ∀ v, r.validUntilUtcMs = some v → v > input.referenceUtcMs ∧
      ∀ later, input.referenceUtcMs ≤ later → later < v →
        (evaluateWith qt rules (input.at_ later) cached diagnostics style).1.lasting none =
          r.lasting none

/-- The next change of a relative date over a column field. -/
def Condition.nextField (c : Condition) (input : FileRuleInput) : Option Int64 :=
  if c.type = .fieldValue ∧ c.field.relative = true then
    match input.fields.getD c.slot (.missing .pending) with
    | .ready payload =>
      payload.instant.bind fun instant => nextChange instant input.referenceUtcMs c.field.span
    | .missing _ => none
  else none

/-- Every relative date over a column field changes only when a built-in one has changed. -/
def FieldsCovered (rules : FileColorRules) (input : FileRuleInput) : Prop :=
  ∀ g ∈ rules.groups, ∀ c ∈ g.conditions, ∀ w, c.nextField input = some w →
    ∃ g' ∈ rules.groups, ∃ c' ∈ g'.conditions, Covers (c'.next input) w

section Sound

variable {qt : Qt} {rules : FileColorRules} {input : FileRuleInput} {later : Int64}

/-- A condition keeps its value until its next change. -/
theorem agrees_of_next {c : Condition} (hle : input.referenceUtcMs.toInt ≤ later.toInt)
    (hop : c.type = .modified → c.op = .before ∨ c.op = .after ∨ c.op = .within)
    (h1 : ∀ w, c.next input = some w → later.toInt < w.toInt)
    (h2 : ∀ w, c.nextField input = some w → later.toInt < w.toInt) :
    c.Agrees qt input (input.at_ later) := by
  constructor
  · intro ext isFolder
    unfold conditionHit
    cases ht : c.type <;> try rfl
    dsimp only [FileRuleInput.at_]
    cases hm : input.modifiedUtcMs with
    | none => rfl
    | some modified =>
      dsimp only
      split
      · rfl
      · split
        · rfl
        · rename_i hbefore hafter
          have hrel : c.relativeDate = true := by
            simpa [Condition.relativeDate, ht, hbefore, hafter] using hop ht
          rw [within_of_nextChange hle fun v hv => h1 v ?_]
          rw [Condition.next, if_pos hrel, hm, bind_some, hv]
  · intro ht
    refine c.field.evaluate_congr qt.toEngine _ fun hrel payload instant hv hi => ?_
    refine within_of_nextChange hle fun v hnext => h2 v ?_
    rw [Condition.nextField, if_pos ⟨ht, hrel⟩, hv]
    dsimp only
    rw [hi, bind_some, hnext]

theorem agrees_of_deadline (hc : FieldsCovered rules input)
    (hle : input.referenceUtcMs.toInt ≤ later.toInt)
    (h : ∀ v, deadline rules input = some v → later.toInt < v.toInt) :
    ∀ g ∈ rules.groups, ∀ c ∈ g.conditions, c.Agrees qt input (input.at_ later) := by
  obtain ⟨-, hcover⟩ := deadline_spec rules input
  intro g hg c hm
  refine agrees_of_next hle (rules.modified_op g hg c hm) (fun w hw => ?_) fun w hw => ?_
  · obtain ⟨v, hv, hvw⟩ := hcover g hg c hm w hw
    have := h v hv
    omega
  · obtain ⟨g', hg', c', hm', u, hu, huw⟩ := hc g hg c hm w hw
    obtain ⟨v, hv, hvu⟩ := hcover g' hg' c' hm' u hu
    have := h v hv
    omega

/-- Where relative dates over column fields change no earlier than built-in ones, the deadline is
sound. -/
theorem sound_of_covered (h : ¬Evaluated rules input ∨ FieldsCovered rules input)
    (cached : Option CachedExtension) (diagnostics style : Bool) :
    SoundDeadline qt rules input cached diagnostics style := by
  by_cases he : Evaluated rules input
  · have hcov := h.resolve_left (not_not.2 he)
    have hsame : ∀ later : Int64, input.referenceUtcMs ≤ later →
        (∀ v, deadline rules input = some v → later.toInt < v.toInt) →
        (evaluateWith qt rules (input.at_ later) cached diagnostics style).1.lasting none =
          (evaluateWith qt rules input cached diagnostics style).1.lasting none :=
            fun later hle hlt =>
      evaluateWith_congr (agrees_of_deadline hcov (Int64.le_iff_toInt_le.1 hle) hlt)
    have huntil : (evaluateWith qt rules input cached diagnostics style).1.validUntilUtcMs =
        deadline rules input := by
      rw [evaluateWith_of he, lasting_until]
    refine ⟨fun hnone later hle => hsame later hle ?_,
      fun v hv => ⟨?_, fun later hle hlt => hsame later hle ?_⟩⟩
    · intro v hv
      rw [← huntil, hnone] at hv
      cases hv
    · exact Int64.lt_iff_toInt_lt.2 ((deadline_spec rules input).1 v (huntil ▸ hv))
    · intro u hu
      rw [← huntil, hv] at hu
      cases hu
      exact Int64.lt_iff_toInt_lt.1 hlt
  · have hnot : ∀ later, ¬Evaluated rules (input.at_ later) := fun later h => he (evaluated_at.1 h)
    unfold SoundDeadline
    rw [evaluateWith_of_not he]
    refine ⟨fun _ later _ => ?_, fun v hv => by cases hv⟩
    rw [evaluateWith_of_not (hnot later)]

/-! ### Rules with one condition -/

theorem addStyle_matched (dark diagnostics : Bool) (r : FileRuleResult) (g : Group) :
    (addStyle dark diagnostics r g).matched = r.matched := by
  unfold addStyle
  dsimp only
  split_ifs <;> rfl

theorem addFont_matched (diagnostics : Bool) (r : FileRuleResult) (fontOwners : List String)
    (g : Group) :
    (addFont diagnostics r fontOwners g).matched = r.matched := by
  unfold addFont
  dsimp only
  split_ifs <;> rfl

theorem styleOf_matched (dark diagnostics : Bool) (groups : List Group) (fontOwners : List String)
    (matched : List Nat) (r : FileRuleResult) :
    (styleOf dark diagnostics groups fontOwners matched r).matched = r.matched := by
  induction matched generalizing fontOwners r with
  | nil => rfl
  | cons index matched ih =>
    rw [styleOf]
    split
    · rfl
    · dsimp only
      rw [ih, addFont_matched, addStyle_matched]

theorem finish_matched {dark diagnostics style : Bool} {until_ : Option Int64} {d : Decision}
    (h : d.pending = false) :
    (finish qt rules dark diagnostics style until_ d).matched = !d.matched.isEmpty := by
  unfold finish
  simp only [h, Bool.false_eq_true, if_false]
  split
  · rfl
  · rw [styleOf_matched]

/-- A group of one condition over a field matches when the condition is true. -/
theorem matched_single {g : Group} {c : Condition} {hit : Bool} (hg : rules.groups = [g])
    (hc : g.conditions = [c]) (ht : c.type = .fieldValue)
    (hv : c.field.evaluate qt.toEngine (input.fields.getD c.slot (.missing .pending))
      input.referenceUtcMs = .of hit) (he : Evaluated rules input) (diagnostics style : Bool) :
    (evaluateWith qt rules input none diagnostics style).1.matched = hit := by
  have hdecide : decideCached qt rules input none =
      { matched := if hit then [0] else [], cached := none } := by
    unfold decideCached
    dsimp only
    rw [hg, decideGroups, hc]
    simp only [Scan.run, Scan.step, if_pos ht, hv]
    cases g.all <;> cases hit <;> simp [Truth.of, Scan.settle, Decision.after, decideGroups]
  rw [evaluateWith_of he, hdecide]
  show (finish qt rules input.dark diagnostics style none _).matched = hit
  rw [finish_matched rfl]
  cases hit <;> rfl

/-- Without a built-in relative date there is no deadline. -/
theorem deadline_eq_none (h : ∀ g ∈ rules.groups, ∀ c ∈ g.conditions, c.relativeDate = false) :
    deadline rules input = none := by
  have hskip : ∀ (modified : Int64) (cs : List Condition), (∀ c ∈ cs, c.relativeDate = false) →
      cs.foldl (fun until_ c =>
        if c.relativeDate then
          earlier input.referenceUtcMs until_ (change modified input.referenceUtcMs c.number)
        else until_) none = none := by
    intro modified cs hcs
    induction cs with
    | nil => rfl
    | cons c cs ih =>
      rw [foldl_cons, if_neg (by simp [hcs c])]
      exact ih fun c' hc' => hcs c' (by simp [hc'])
  unfold deadline
  cases input.modifiedUtcMs with
  | none => rfl
  | some modified =>
    dsimp only
    split
    · refine hskip modified _ fun c hc => ?_
      obtain ⟨g, hg, hm⟩ := mem_flatMap.1 hc
      exact h g hg c hm
    · rfl

/-- With one condition alone, a relative date over a field is never covered, and the result changes
with it. -/
theorem covered_of_sound {g : Group} {c : Condition} (hg : rules.groups = [g])
    (hc : g.conditions = [c]) {diagnostics style : Bool}
    (h : SoundDeadline qt rules input none diagnostics style) (he : Evaluated rules input) :
    FieldsCovered rules input := by
  intro g' hg' c' hc' w hw
  obtain rfl : g' = g := by simpa [hg] using hg'
  obtain rfl : c' = c := by simpa [hc] using hc'
  exfalso
  unfold Condition.nextField at hw
  split at hw
  · rename_i hfield
    split at hw
    · rename_i payload hv
      obtain ⟨instant, hi, hnext⟩ := bind_eq_some_iff.1 hw
      have hval : ∀ reference, c'.field.evaluate qt.toEngine
          (input.fields.getD c'.slot (.missing .pending)) reference =
            .of (within instant reference c'.field.span) := fun reference => by
        rw [hv]
        exact c'.field.evaluate_relative qt.toEngine hfield.2 hi reference
      have hnone : deadline rules input = none := by
        refine deadline_eq_none fun g'' hg'' c'' hc'' => ?_
        obtain rfl : g'' = g' := by simpa [hg] using hg''
        obtain rfl : c'' = c' := by simpa [hc] using hc''
        simp [Condition.relativeDate, hfield.1]
      have huntil :
          (evaluateWith qt rules input none diagnostics style).1.validUntilUtcMs = none := by
        rw [evaluateWith_of he, lasting_until, hnone]
      have hsame := h.1 huntil w
        (Int64.le_iff_toInt_le.2 (le_of_lt (lt_of_nextChange hnext)))
      have hbefore := matched_single hg hc hfield.1 (hval _) he diagnostics style
      have hafter := matched_single hg hc hfield.1 (hval w)
        (evaluated_at.2 he : Evaluated rules (input.at_ w)) diagnostics style
      refine within_ne_of_nextChange hnext ?_
      rw [← hbefore, ← hafter]
      have hmatched := congrArg FileRuleResult.matched hsame
      exact hmatched
    · cases hw
  · cases hw

end Sound

/-- A deadline is sound when relative dates over column fields change no earlier than built-in ones;
for rules of a single condition it is sound only then. -/
theorem deadline_sound (qt : Qt) (rules : FileColorRules) (input : FileRuleInput)
    (diagnostics style : Bool) :
    (¬Evaluated rules input ∨ FieldsCovered rules input → ∀ cached,
        SoundDeadline qt rules input cached diagnostics style) ∧
      ((∃ g c, rules.groups = [g] ∧ g.conditions = [c]) →
        (SoundDeadline qt rules input none diagnostics style ↔
          ¬Evaluated rules input ∨ FieldsCovered rules input)) := by
  refine ⟨fun h cached => sound_of_covered h cached diagnostics style, ?_⟩
  rintro ⟨g, c, hg, hc⟩
  refine ⟨fun h => ?_, fun h => sound_of_covered h none diagnostics style⟩
  by_cases he : Evaluated rules input
  · exact .inr (covered_of_sound hg hc h he)
  · exact .inl he

/-! ### A column field -/

/-- A library that compares texts unit by unit. -/
def plainQt : Qt where
  toDouble x := (((x : Rat) : WithTop Rat) : Double)
  rawText _ := []
  equalFolded a b := a == b
  containsFolded a b := a.tails.any fun tail => b.isPrefixOf tail
  matchPattern a b := some (a == b)
  casing := { toCaseFolded := id, toLower := id, toUpper := id }
  toLower := id
  normalizedC := id
  rightToLeft _ := false
  colorName _ := []

/-- "Within one minute", over a column with times. -/
def lastMinute : Condition where
  type := .fieldValue
  op := .within
  field := { field := text "file.created", type := .timestamp, op := .within, span := 60000 }

/-- One group with that condition. -/
def lastMinuteRules : FileColorRules where
  groups := [{
    label := text "recent", all := true, conditions := [lastMinute]
    foreground := fun _ => some 0xff0000, background := fun _ => none, font := [] }]
  extensionOnly := false
  relative_of_mem := by simp [lastMinute, Condition.relativeDate]
  modified_op := by simp [lastMinute]

/-- A file that was created at the reference time. -/
def freshFile : FileRuleInput where
  name := text "a"
  referenceUtcMs := 0
  fields := [.ready (.timestamp (some 0))]

/-- The file has no deadline, and another style one minute and one millisecond later. -/
theorem deadline_missing : ¬SoundDeadline plainQt lastMinuteRules freshFile none false true := by
  intro h
  have hsame := h.1 (by decide +kernel) 60001 (by decide)
  have hmatched := congrArg FileRuleResult.matched hsame
  revert hmatched
  decide +kernel

end Hc.Settings
