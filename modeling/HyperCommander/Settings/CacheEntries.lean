import HyperCommander.Settings.Deadlines
import HyperCommander.Settings.ExtensionCache

/-!
# What a cache entry may hold

* `EntryOk`: the entry of a suffix holds what its conditions and groups give for every input with
  it.
* `decideGroups_cached`: with such an entry the groups give what they give without one.
* `evaluateWith_cached`: an evaluation with such an entry is the one without, and leaves such an
  entry.
-/

namespace Hc.Settings

open List Unicode Columns

/-- The conditions with a place in the cache are of extensions, and every place belongs to one of
them. -/
def Indexed (cs : List Condition) (size : Nat) : Prop :=
  ∀ c ∈ cs, ∀ index, c.cacheIndex = some index →
    c.type = .extension ∧ index < size ∧ ∀ c' ∈ cs, c'.cacheIndex = some index → c' = c

/-- The stored values are those of the conditions. -/
def ConditionsOk (qt : Qt) (cs : List Condition) (size : Nat) (ext : Units) (isFolder : Bool)
    (entry : CachedExtension) : Prop :=
  entry.conditions.length = size ∧
    ∀ c ∈ cs, ∀ index hit, c.cacheIndex = some index → entry.conditions.getD index none = some hit →
      ∀ input, conditionHit qt c input ext isFolder = hit

section Conditions

variable {qt : Qt} {cs : List Condition} {size : Nat} {input input' : FileRuleInput} {ext : Units}
  {isFolder all : Bool} {entry : CachedExtension} {c : Condition}

/-- A condition on the extension or the kind sees nothing else of the input. -/
theorem conditionHit_ofExtension (h : c.ofExtension = true) (input input' : FileRuleInput) :
    conditionHit qt c input ext isFolder = conditionHit qt c input' ext isFolder := by
  have ht : c.type = .extension ∨ c.type = .folder := by simpa [Condition.ofExtension] using h
  unfold conditionHit
  rcases ht with ht | ht <;> rw [ht]

theorem agrees_ofExtension (h : c.ofExtension = true) (input input' : FileRuleInput) :
    c.Agrees qt input input' := by
  refine ⟨fun ext isFolder => conditionHit_ofExtension h input input', fun ht => ?_⟩
  simp [Condition.ofExtension, ht] at h

/-- A value that is looked up is the one that would be computed. -/
theorem hitOf_cached (hi : Indexed cs size) (hc : c ∈ cs)
    (ho : ConditionsOk qt cs size ext isFolder entry) (input : FileRuleInput) :
    ∃ entry', hitOf qt input ext isFolder c (some entry) =
        (conditionHit qt c input ext isFolder, some entry') ∧
      ConditionsOk qt cs size ext isFolder entry' ∧ entry'.groups = entry.groups ∧
      entry'.complete = entry.complete := by
  unfold hitOf
  cases hindex : c.cacheIndex with
  | none => exact ⟨entry, rfl, ho, rfl, rfl⟩
  | some index =>
    dsimp only
    obtain ⟨hext, hlt, huniq⟩ := hi c hc index hindex
    cases hstored : entry.conditions.getD index none with
    | some hit => exact ⟨entry, by rw [ho.2 c hc index hit hindex hstored], ho, rfl, rfl⟩
    | none =>
      refine ⟨_, rfl, ⟨by simpa using ho.1, ?_⟩, rfl, rfl⟩
      intro c' hc' index' hit' hindex' hstored' input'
      by_cases he : index' = index
      · subst he
        obtain rfl := huniq c' hc' hindex'
        have hset : hit' = conditionHit qt c' input ext isFolder := by
          simpa [getD_eq_getElem?_getD, getElem?_set, ho.1, hlt, eq_comm] using hstored'
        rw [hset]
        exact conditionHit_ofExtension (by simp [Condition.ofExtension, hext]) _ _
      · refine ho.2 c' hc' index' hit' hindex' ?_ input'
        simpa [getD_eq_getElem?_getD, getElem?_set, Ne.symm he] using hstored'

/-- The same locals with another entry. -/
def Scan.withEntry (s : Scan) (cached : Option CachedExtension) : Scan := { s with cached }

@[simp] theorem withEntry_decided (s : Scan) (cached : Option CachedExtension) :
    (s.withEntry cached).decided = s.decided := rfl

theorem settle_withEntry (s : Scan) (cached : Option CachedExtension) (value : Hit) :
    (s.withEntry cached).settle all value = (s.settle all value).withEntry cached := by
  cases value <;> cases all <;> rfl

theorem wait_withEntry (s : Scan) (cached : Option CachedExtension) (cost slot : Nat) :
    (s.withEntry cached).wait cost slot = (s.wait cost slot).withEntry cached := by
  unfold Scan.wait Scan.withEntry
  dsimp only
  split_ifs <;> rfl

theorem settle_cached (s : Scan) (value : Hit) : (s.settle all value).cached = s.cached := by
  cases value <;> cases all <;> rfl

theorem wait_cached (s : Scan) (cost slot : Nat) : (s.wait cost slot).cached = s.cached := by
  unfold Scan.wait
  dsimp only
  split_ifs <;> rfl

theorem hitOf_none (c : Condition) :
    hitOf qt input ext isFolder c none = (conditionHit qt c input ext isFolder, none) := rfl

theorem step_cached (hi : Indexed cs size) (hc : c ∈ cs)
    (ho : ConditionsOk qt cs size ext isFolder entry) {s : Scan} (hs : s.cached = none)
    (all : Bool) (input : FileRuleInput) :
    ∃ entry', (s.withEntry (some entry)).step qt all input ext isFolder c =
        (s.step qt all input ext isFolder c).withEntry (some entry') ∧
      (s.step qt all input ext isFolder c).cached = none ∧
      ConditionsOk qt cs size ext isFolder entry' ∧ entry'.groups = entry.groups ∧
      entry'.complete = entry.complete := by
  unfold Scan.step
  split
  · split
    · exact ⟨entry, wait_withEntry _ _ _ _, by rw [wait_cached, hs], ho, rfl, rfl⟩
    · exact ⟨entry, settle_withEntry _ _ _, by rw [settle_cached, hs], ho, rfl, rfl⟩
    · exact ⟨entry, settle_withEntry _ _ _, by rw [settle_cached, hs], ho, rfl, rfl⟩
  · obtain ⟨entry', he, ho', hg, hcomplete⟩ := hitOf_cached hi hc ho input
    refine ⟨entry', ?_, ?_, ho', hg, hcomplete⟩
    · dsimp only [Scan.withEntry]
      rw [he, hs, hitOf_none]
      exact settle_withEntry { s with cached := none } (some entry') _
    · dsimp only
      rw [settle_cached, hs, hitOf_none]

theorem run_cached (hi : Indexed cs size) {rest : List Condition} (hc : ∀ c ∈ rest, c ∈ cs)
    (ho : ConditionsOk qt cs size ext isFolder entry) {s : Scan} (hs : s.cached = none)
    (all : Bool) (input : FileRuleInput) :
    ∃ entry', Scan.run qt all input ext isFolder (s.withEntry (some entry)) rest =
        (Scan.run qt all input ext isFolder s rest).withEntry (some entry') ∧
      (Scan.run qt all input ext isFolder s rest).cached = none ∧
      ConditionsOk qt cs size ext isFolder entry' ∧ entry'.groups = entry.groups ∧
      entry'.complete = entry.complete := by
  induction rest generalizing s entry with
  | nil => exact ⟨entry, rfl, hs, ho, rfl, rfl⟩
  | cons c rest ih =>
    obtain ⟨entry', he, hnone, ho', hg, hcomplete⟩ :=
      step_cached hi (hc c (by simp)) ho hs all input
    simp only [Scan.run, he, withEntry_decided]
    split
    · exact ⟨entry', rfl, hnone, ho', hg, hcomplete⟩
    · obtain ⟨entry'', he', hnone', ho'', hg', hcomplete'⟩ :=
        ih (fun c hm => hc c (by simp [hm])) ho' hnone
      exact ⟨entry'', he', hnone', ho'', hg'.trans hg, hcomplete'.trans hcomplete⟩

/-- The same decision with another entry. -/
def Decision.withEntry (d : Decision) (cached : Option CachedExtension) : Decision :=
  { d with cached }

theorem after_withEntry (d : Decision) (cached cached' : Option CachedExtension) (merge : Bool)
    (index : Nat) (label : Units) (s : Scan) :
    (d.withEntry cached).after merge index label (s.withEntry cached') =
      ((d.after merge index label s).1.withEntry cached', (d.after merge index label s).2) := by
  unfold Decision.after Decision.withEntry Scan.withEntry
  dsimp only
  split_ifs <;> rfl

theorem after_cached (d : Decision) (merge : Bool) (index : Nat) (label : Units) (s : Scan) :
    (d.after merge index label s).1.cached = s.cached := by
  unfold Decision.after
  dsimp only
  split_ifs <;> rfl

/-- With an entry that is right, the groups give what they give without one. -/
theorem decideGroups_cached (hi : Indexed cs size) {groups : List Group}
    (hc : ∀ g ∈ groups, ∀ c ∈ g.conditions, c ∈ cs) (index : Nat)
    (ho : ConditionsOk qt cs size ext isFolder entry) {d : Decision} (hd : d.cached = none)
    (merge : Bool) (input : FileRuleInput) :
    ∃ entry', decideGroups qt merge input ext isFolder index groups (d.withEntry (some entry)) =
        (decideGroups qt merge input ext isFolder index groups d).withEntry (some entry') ∧
      ConditionsOk qt cs size ext isFolder entry' ∧ entry'.groups = entry.groups ∧
      entry'.complete = entry.complete := by
  induction groups generalizing index entry d with
  | nil => exact ⟨entry, rfl, ho, rfl, rfl⟩
  | cons g groups ih =>
    obtain ⟨entry', he, hnone, ho', hg, hcomplete⟩ :=
      run_cached hi (hc g (by simp)) ho
        (show Scan.cached { hit := g.all, cached := d.cached } = none from hd)
        g.all input
    have hstep : Scan.run qt g.all input ext isFolder
        { hit := g.all, cached := (d.withEntry (some entry)).cached } g.conditions = _ := he
    simp only [decideGroups, hstep, after_withEntry]
    generalize Scan.run qt g.all input ext isFolder { hit := g.all, cached := d.cached }
      g.conditions = s
      at hnone ⊢
    split
    · exact ⟨entry', rfl, ho', hg, hcomplete⟩
    · obtain ⟨entry'', he', ho'', hg', hcomplete'⟩ :=
        ih (fun g hg => hc g (by simp [hg])) (index + 1) ho'
        ((after_cached d _ _ _ s).trans hnone)
      exact ⟨entry'', he', ho'', hg'.trans hg, hcomplete'.trans hcomplete⟩

/-- Without conditions over fields nothing is pending. -/
theorem run_waiting {rest : List Condition} (h : ∀ c ∈ rest, c.ofExtension = true) {s : Scan}
    (hs : s.waiting = 0) (qt : Qt) (all : Bool) (input : FileRuleInput) (ext : Units)
    (isFolder : Bool) : (Scan.run qt all input ext isFolder s rest).waiting = 0 := by
  have hsettle : ∀ (s : Scan) (value : Hit), (s.settle all value).waiting = s.waiting := by
    intro s value
    cases value <;> cases all <;> rfl
  induction rest generalizing s with
  | nil => exact hs
  | cons c rest ih =>
    have hstep : (s.step qt all input ext isFolder c).waiting = 0 := by
      have ht : c.type ≠ .fieldValue := by
        intro ht
        have := h c (by simp)
        simp [Condition.ofExtension, ht] at this
      unfold Scan.step
      rw [if_neg ht]
      exact (hsettle _ _).trans hs
    rw [Scan.run]
    split
    · exact hstep
    · exact ih (fun c hc => h c (by simp [hc])) hstep

theorem decideGroups_pending {merge : Bool} {groups : List Group}
    (h : ∀ g ∈ groups, ∀ c ∈ g.conditions, c.ofExtension = true) (index : Nat) (d : Decision) :
    (decideGroups qt merge input ext isFolder index groups d).pending = d.pending := by
  induction groups generalizing index d with
  | nil => rfl
  | cons g groups ih =>
    have hwait := run_waiting (h g (by simp))
      (rfl : ({ hit := g.all, cached := d.cached } : Scan).waiting = 0) qt g.all input ext isFolder
    have hafter : ∀ s : Scan, s.waiting = 0 →
        (d.after merge index g.label s).1.pending = d.pending := by
      intro s hs
      unfold Decision.after
      simp only [hs, bne_self_eq_false, Bool.and_false, Bool.false_eq_true, if_false]
      split_ifs <;> rfl
    rw [decideGroups]
    split
    · exact hafter _ hwait
    · rw [ih (fun g hg => h g (by simp [hg])), hafter _ hwait]

end Conditions

/-! ### Entries -/

/-- The suffix that an evaluation looks at. -/
def extOf (rules : FileColorRules) (input : FileRuleInput) : Units :=
  if rules.needsExtension then suffix input.name else []

def isFolderOf (input : FileRuleInput) : Bool := input.attributes &&& 0x10 != 0

/-- All conditions of the rules. -/
def FileColorRules.conditions (rules : FileColorRules) : List Condition :=
  rules.groups.flatMap Group.conditions

/-- The places in the cache and the flag of rules that look at the extension only. -/
structure WellIndexed (rules : FileColorRules) : Prop where
  indexed : Indexed rules.conditions rules.cacheConditions
  extensionOnly : rules.extensionOnly = true →
    ∀ g ∈ rules.groups, ∀ c ∈ g.conditions, c.ofExtension = true

/-- The entry of a suffix holds what its conditions and its groups give for every input with it. -/
structure EntryOk (qt : Qt) (rules : FileColorRules) (ext : Units) (isFolder : Bool)
    (entry : CachedExtension) : Prop where
  conditions : ConditionsOk qt rules.conditions rules.cacheConditions ext isFolder entry
  complete : rules.extensionOnly = true → entry.complete = true → ∀ input,
    let d := decideGroups qt rules.merge input ext isFolder 0 rules.groups { cached := none }
    d.matched = entry.groups ∧ d.error = [] ∧ d.pending = false

section Entries

variable {qt : Qt} {rules : FileColorRules} {input : FileRuleInput} {ext : Units} {isFolder : Bool}
  {entry : CachedExtension} {diagnostics style : Bool}

theorem mem_conditions {g : Group} {c : Condition} (hg : g ∈ rules.groups) (hc : c ∈ g.conditions) :
    c ∈ rules.conditions := mem_flatMap.2 ⟨g, hg, hc⟩

/-- A new entry. -/
theorem entryOk_new (qt : Qt) (rules : FileColorRules) (ext : Units) (isFolder : Bool) :
    EntryOk qt rules ext isFolder { conditions := List.replicate rules.cacheConditions none } := by
  refine ⟨⟨by simp, ?_⟩, fun _ h => by cases h⟩
  intro c _ index hit _ hstored
  rw [getD_eq_getElem?_getD, getElem?_replicate] at hstored
  split at hstored <;> cases hstored

/-- What the groups give does not change with the entry. -/
theorem finish_congr {d d' : Decision} {dark : Bool} {until_ : Option Int64}
    (hm : d'.matched = d.matched) (hp : d'.pending = d.pending)
    (hn : d.pending = true → d'.needed = d.needed) (he : d'.error = d.error) :
    finish qt rules dark diagnostics style until_ d' =
      finish qt rules dark diagnostics style until_ d := by
  unfold finish
  rw [hm, hp, he]
  cases h : d.pending with
  | false => rfl
  | true => rw [hn h]

/-- An evaluation with an entry that is right is the one without, and leaves an entry that is
right. -/
theorem evaluateWith_cached (hw : WellIndexed rules)
    (ho : EntryOk qt rules (extOf rules input) (isFolderOf input) entry)
    (diagnostics style : Bool) :
    ∃ entry', evaluateWith qt rules input (some entry) diagnostics style =
        ((evaluateWith qt rules input none diagnostics style).1, some entry') ∧
      EntryOk qt rules (extOf rules input) (isFolderOf input) entry' := by
  by_cases hev : Evaluated rules input
  · rw [evaluateWith_of hev, evaluateWith_of hev]
    have hplain : decideCached qt rules input none =
      decideGroups qt rules.merge input (extOf rules input)
        (isFolderOf input) 0 rules.groups { cached := none } := rfl
    by_cases hcomplete : (rules.extensionOnly && entry.complete) = true
    · have hdone : decideCached qt rules input (some entry) =
          { matched := entry.groups, cached := some entry } := by
        unfold decideCached
        dsimp only
        rw [if_pos hcomplete]
      rw [Bool.and_eq_true] at hcomplete
      obtain ⟨hm, he, hp⟩ := ho.complete hcomplete.1 hcomplete.2 input
      rw [← hplain] at hm he hp
      refine ⟨entry, ?_, ho⟩
      rw [hdone, finish_congr (d := decideCached qt rules input none) hm.symm hp.symm
        (fun h => by rw [hp] at h; cases h) he.symm]
    · obtain ⟨entry', he, ho', hgroups, hcomp⟩ := decideGroups_cached hw.indexed
        (fun g (hg : g ∈ rules.groups) c hc => mem_conditions hg hc) 0 ho.conditions
        (rfl : ({ cached := none } : Decision).cached = none) rules.merge input
      rw [← hplain] at he
      have hd : decideCached qt rules input (some entry) =
          if rules.extensionOnly && (decideCached qt rules input none).error.isEmpty then
            (decideCached qt rules input none).withEntry
              (some { entry' with
                groups := (decideCached qt rules input none).matched, complete := true })
          else (decideCached qt rules input none).withEntry (some entry') := by
        unfold decideCached
        dsimp only
        rw [if_neg hcomplete]
        exact congrArg (fun d : Decision => if rules.extensionOnly && d.error.isEmpty then
          { d with
            cached := d.cached.map fun e => { e with groups := d.matched, complete := true } }
          else d) he
      have hfinish : ∀ cached, finish qt rules input.dark diagnostics style none
          ((decideCached qt rules input none).withEntry cached) =
            finish qt rules input.dark diagnostics style none (decideCached qt rules input none) :=
        fun cached => finish_congr rfl rfl (fun _ => rfl) rfl
      by_cases hstore :
          (rules.extensionOnly && (decideCached qt rules input none).error.isEmpty) = true
      · rw [if_pos hstore] at hd
        rw [Bool.and_eq_true, List.isEmpty_iff] at hstore
        refine ⟨{ entry' with
            groups := (decideCached qt rules input none).matched, complete := true },
          by rw [hd, hfinish]; rfl, ho', fun honly _ input' => ?_⟩
        have hsame :
            decideGroups qt rules.merge input' (extOf rules input) (isFolderOf input) 0
                rules.groups { cached := none } =
              decideGroups qt rules.merge input (extOf rules input) (isFolderOf input) 0
                rules.groups { cached := none } :=
          decideGroups_congr (fun g hg c hc =>
            agrees_ofExtension (hw.extensionOnly honly g hg c hc) input' input) 0 _
        rw [hsame, ← hplain]
        refine ⟨rfl, hstore.2, ?_⟩
        rw [hplain]
        exact decideGroups_pending (hw.extensionOnly honly) 0 _
      · rw [if_neg hstore] at hd
        refine ⟨entry', by rw [hd, hfinish]; rfl, ho', fun honly hcomp' => ?_⟩
        rw [hcomp] at hcomp'
        exact absurd (by simp [honly, hcomp']) hcomplete
  · refine ⟨entry, ?_, ho⟩
    rw [evaluateWith_of_not hev, evaluateWith_of_not hev]

end Entries

end Hc.Settings
