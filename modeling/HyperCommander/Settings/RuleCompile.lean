import HyperCommander.Settings.CacheEntries

/-!
# What compiled rules share

* `wellIndexed_of_compileRules`: each extension condition gets a place of its own in the cache.
* `alike_of_compileRules`: documents that differ in names and colours only compile to rules with the
  same conditions at the same places.
* `EntryOk.of_alike`: an entry for such rules is one for the others.
-/

namespace Hc.Settings

open List Unicode Columns Outcome

/-! ### Places in the cache -/

/-- The places of some conditions are distinct and lie from `lo` up to `hi`. -/
structure Placed (lo : Nat) (cs : List Condition) (hi : Nat) : Prop where
  le : lo ≤ hi
  bounds : ∀ c ∈ cs, ∀ i, c.cacheIndex = some i → c.type = .extension ∧ lo ≤ i ∧ i < hi
  unique : ∀ c ∈ cs, ∀ c' ∈ cs, ∀ i, c.cacheIndex = some i → c'.cacheIndex = some i → c' = c

namespace Placed

variable {lo mid hi : Nat} {cs cs' : List Condition} {c : Condition}

theorem nil (lo : Nat) : Placed lo [] lo := ⟨le_rfl, by simp, by simp⟩

/-- A condition without a place. -/
theorem single_none (h : c.cacheIndex = none) : Placed lo [c] lo :=
  ⟨le_rfl, by simp [h], by simp [h]⟩

/-- A condition that takes the next place. -/
theorem single (ht : c.type = .extension) (h : c.cacheIndex = some lo) :
    Placed lo [c] (lo + 1) := by
  refine ⟨by omega, ?_, by simp⟩
  simp only [mem_singleton, forall_eq, h, Option.some.injEq]
  rintro i rfl
  exact ⟨ht, le_rfl, by omega⟩

theorem append (h : Placed lo cs mid) (h' : Placed mid cs' hi) : Placed lo (cs ++ cs') hi := by
  have hle := h.le
  have hle' := h'.le
  refine ⟨by omega, fun c hc i hi => ?_, fun c hc c' hc' i hi hi' => ?_⟩
  · rcases mem_append.1 hc with hc | hc
    · obtain ⟨ht, _, _⟩ := h.bounds c hc i hi
      exact ⟨ht, by omega, by omega⟩
    · obtain ⟨ht, _, _⟩ := h'.bounds c hc i hi
      exact ⟨ht, by omega, by omega⟩
  · rcases mem_append.1 hc with hc | hc <;> rcases mem_append.1 hc' with hc' | hc'
    · exact h.unique c hc c' hc' i hi hi'
    · have := (h.bounds c hc i hi).2
      have := (h'.bounds c' hc' i hi').2
      omega
    · have := (h'.bounds c hc i hi).2
      have := (h.bounds c' hc' i hi').2
      omega
    · exact h'.unique c hc c' hc' i hi hi'

/-- The order does not matter. -/
theorem of_mem (h : Placed lo cs hi) (hm : ∀ c, c ∈ cs' → c ∈ cs) : Placed lo cs' hi :=
  ⟨h.le, fun c hc => h.bounds c (hm c hc), fun c hc c' hc' => h.unique c (hm c hc) c' (hm c' hc')⟩

theorem indexed (h : Placed lo cs hi) : Indexed cs hi := by
  intro c hc i hi
  obtain ⟨ht, _, hlt⟩ := h.bounds c hc i hi
  exact ⟨ht, hlt, fun c' hc' hi' => h.unique c hc c' hc' i hi hi'⟩

end Placed

section Compile

variable {q : Loader} {document document' : Json} {version : Int} {label label' : Units}
  {position position' : Nat} {slots slots' : Slots}

variable {condition object : Json} {rest objects : List Json} {revision : Nat}
  {last last' : Slots}

theorem placed_of_compileCondition {item : Condition}
    (h : compileCondition q document version label position slots condition = .ok (item, slots')) :
    Placed slots.cacheConditions [item] slots'.cacheConditions := by
  unfold compileCondition at h
  dsimp only at h
  split at h
  · split at h
    · cases h
      exact .single_none rfl
    · obtain ⟨globs, _, h⟩ := bind_eq_ok.1 h
      obtain ⟨_, _, h⟩ := bind_eq_ok.1 h
      split at h
      · rename_i ht
        cases h
        exact .single ht rfl
      · cases h
        exact .single_none rfl
  · cases h

theorem placed_of_compileConditions {items : List Condition}
    (h : compileConditions q document version label position slots rest = .ok (items, slots')) :
    Placed slots.cacheConditions items slots'.cacheConditions := by
  induction rest generalizing position slots items with
  | nil =>
    cases h
    exact .nil _
  | cons c rest ih =>
    obtain ⟨⟨item, mid⟩, hc, h⟩ := bind_eq_ok.1 h
    obtain ⟨⟨items', last⟩, hrest, h⟩ := bind_eq_ok.1 h
    cases h
    exact (placed_of_compileCondition hc).append (ih hrest)

theorem placed_of_compileGroup {g : Group}
    (h : compileGroup q document version slots object = .ok (g, slots')) :
    Placed slots.cacheConditions g.conditions slots'.cacheConditions := by
  obtain ⟨⟨conditions, last⟩, hc, h⟩ := bind_eq_ok.1 h
  cases h
  exact (placed_of_compileConditions hc).of_mem fun c hm => (mem_insertionSort _).1 hm

theorem placed_of_compileGroups {groups : List Group}
    (h : compileGroups q document version slots objects = .ok (groups, slots')) :
    Placed slots.cacheConditions (groups.flatMap Group.conditions) slots'.cacheConditions := by
  induction objects generalizing slots groups with
  | nil =>
    cases h
    exact .nil _
  | cons object rest ih =>
    rw [compileGroups] at h
    split at h
    · obtain ⟨⟨g, mid⟩, hg, h⟩ := bind_eq_ok.1 h
      obtain ⟨⟨groups', last⟩, hrest, h⟩ := bind_eq_ok.1 h
      cases h
      exact (placed_of_compileGroup hg).append (ih hrest)
    · dsimp only at h
      split at h
      · cases h
      · exact ih h

/-- What `compileRules` returns are the rules of the compiled groups. -/
theorem compileRules_eq_ok {rules : FileColorRules}
    (h : compileRules q document revision = .ok rules) :
    ∃ groups slots hop, compileGroups q document (document.get "version").toInt {}
        (document.get "groups").toArray = .ok (groups, slots) ∧
      rules = rulesOf q document revision groups slots hop := by
  obtain ⟨⟨groups, slots⟩, hg, h⟩ := bind_eq_ok.1 h
  dsimp only at h
  split at h
  · rename_i hop
    cases h
    exact ⟨groups, slots, hop, hg, rfl⟩
  · cases h

/-- Compiled rules have their places in order. -/
theorem wellIndexed_of_compileRules {rules : FileColorRules}
    (h : compileRules q document revision = .ok rules) : WellIndexed rules := by
  obtain ⟨groups, slots, hop, hg, rfl⟩ := compileRules_eq_ok h
  refine ⟨(placed_of_compileGroups hg).indexed, fun honly g hmem c hc => ?_⟩
  exact all_eq_true.1 (all_eq_true.1 honly g hmem) c hc

/-! ### Documents that differ in names and colours -/

theorem compileGlobs_congr {strict : Bool} {patterns : List Json}
    {globs : List (Option Text.FileNameGlob)}
    (h : compileGlobs q strict label position patterns = .ok globs) :
    compileGlobs q strict label' position' patterns = .ok globs := by
  induction patterns generalizing globs with
  | nil => exact h
  | cons p patterns ih =>
    rw [compileGlobs] at h ⊢
    cases hp : Text.compile q.casing p.toText with
    | ok glob =>
      rw [hp] at h
      cases hrest : compileGlobs q strict label position patterns with
      | error e => rw [hrest] at h; cases h
      | ok rest => rw [hrest] at h; rw [ih hrest]; exact h
    | error message =>
      rw [hp] at h
      dsimp only at h ⊢
      split at h
      · cases h
      · rename_i hs
        rw [if_neg hs]
        cases hrest : compileGlobs q strict label position patterns with
        | error e => rw [hrest] at h; cases h
        | ok rest => rw [hrest] at h; rw [ih hrest]; exact h

/-- A condition compiles to the same whatever its group is called. -/
theorem compileCondition_congr {r : Condition × Slots}
    (h : compileCondition q document version label position slots condition = .ok r) :
    compileCondition q document' version label' position' slots condition = .ok r := by
  unfold compileCondition at h ⊢
  dsimp only at h ⊢
  split at h
  · split at h
    · rename_i ht
      rw [if_pos ht]
      exact h
    · rename_i ht
      rw [if_neg ht]
      obtain ⟨globs, hglobs, h⟩ := bind_eq_ok.1 h
      obtain ⟨_, hregex, h⟩ := bind_eq_ok.1 h
      refine bind_eq_ok.2 ⟨globs, ?_, bind_eq_ok.2 ⟨(), ?_, h⟩⟩
      · unfold globsOf at hglobs ⊢
        split
        · rename_i htext
          rw [if_pos htext] at hglobs
          exact compileGlobs_congr hglobs
        · rename_i htext
          rw [if_neg htext] at hglobs
          exact hglobs
      · exact failIf_eq_ok.2 (failIf_eq_ok.1 hregex)
  · cases h

theorem compileConditions_congr {r : List Condition × Slots}
    (h : compileConditions q document version label position slots rest = .ok r) :
    compileConditions q document' version label' position' slots rest = .ok r := by
  induction rest generalizing position position' slots r with
  | nil => exact h
  | cons c rest ih =>
    obtain ⟨⟨item, mid⟩, hc, h⟩ := bind_eq_ok.1 h
    obtain ⟨⟨items, last⟩, hrest, h⟩ := bind_eq_ok.1 h
    exact bind_eq_ok.2 ⟨_, compileCondition_congr hc, bind_eq_ok.2 ⟨_, ih hrest, h⟩⟩

/-- The part of a group that decides. -/
def Group.test (g : Group) : Bool × List Condition := (g.all, g.conditions)

/-- A key that conditions depend on. -/
theorem get_congr {a b : Json} (h : a.without shownKeys = b.without shownKeys) (key : String)
    (hk : ∀ k ∈ shownKeys, text key ≠ text k) : a.get key = b.get key := by
  rw [← Json.get_without hk, h, Json.get_without hk]

theorem compileGroup_congr {object' : Json} {g g' : Group}
    (h : object.without shownKeys = object'.without shownKeys)
    (hg : compileGroup q document version slots object = .ok (g, last))
    (hg' : compileGroup q document' version slots object' = .ok (g', last')) :
    g'.test = g.test ∧ last' = last := by
  obtain ⟨⟨conditions, mid⟩, hc, hg⟩ := bind_eq_ok.1 hg
  obtain ⟨⟨conditions', mid'⟩, hc', hg'⟩ := bind_eq_ok.1 hg'
  rw [← get_congr h "conditions" (by decide)] at hc'
  have hsame := (compileConditions_congr hc).symm.trans hc'
  cases hsame
  cases hg
  cases hg'
  refine ⟨?_, rfl⟩
  simp only [Group.test, get_congr h "join" (by decide)]

theorem compileGroups_congr {objects' : List Json} {groups groups' : List Group}
    (h : objects.map (Json.without · shownKeys) = objects'.map (Json.without · shownKeys))
    (hg : compileGroups q document version slots objects = .ok (groups, last))
    (hg' : compileGroups q document' version slots objects' = .ok (groups', last')) :
    groups'.map Group.test = groups.map Group.test ∧ last' = last := by
  induction objects generalizing slots objects' groups groups' last last' with
  | nil =>
    obtain rfl : objects' = [] := by simpa using h.symm
    cases hg
    cases hg'
    exact ⟨rfl, rfl⟩
  | cons object rest ih =>
    obtain ⟨object', rest', rfl⟩ : ∃ object' rest', objects' = object' :: rest' := by
      cases objects' with
      | nil => cases h
      | cons object' rest' => exact ⟨_, _, rfl⟩
    obtain ⟨hobject, hrest⟩ := cons.inj h
    rw [compileGroups] at hg hg'
    rw [get_congr hobject "enabled" (by decide)] at hg
    split at hg
    · rename_i henabled
      rw [if_pos henabled] at hg'
      obtain ⟨⟨g, mid⟩, hc, hg⟩ := bind_eq_ok.1 hg
      obtain ⟨⟨g', mid'⟩, hc', hg'⟩ := bind_eq_ok.1 hg'
      obtain ⟨htest, rfl⟩ := compileGroup_congr hobject hc hc'
      obtain ⟨⟨gs, end_⟩, hcs, hg⟩ := bind_eq_ok.1 hg
      obtain ⟨⟨gs', end'⟩, hcs', hg'⟩ := bind_eq_ok.1 hg'
      obtain ⟨htests, hlast⟩ := ih hrest hcs hcs'
      cases hg
      cases hg'
      exact ⟨by simp [htest, htests], hlast⟩
    · rename_i henabled
      rw [if_neg henabled] at hg'
      dsimp only at hg hg'
      split at hg
      · cases hg
      · split at hg'
        · cases hg'
        · exact ih hrest hg hg'

/-- Rules with the same conditions at the same places. -/
structure AlikeRules (rules rules' : FileColorRules) : Prop where
  tests : rules'.groups.map Group.test = rules.groups.map Group.test
  merge : rules'.merge = rules.merge
  needsExtension : rules'.needsExtension = rules.needsExtension
  extensionOnly : rules'.extensionOnly = rules.extensionOnly
  cacheConditions : rules'.cacheConditions = rules.cacheConditions

/-- Documents that differ in names and colours only compile to rules that are alike. -/
theorem alike_of_compileRules {revision' : Nat} {rules rules' : FileColorRules}
    (h : conditionDocument document = conditionDocument document')
    (hr : compileRules q document revision = .ok rules)
    (hr' : compileRules q document' revision' = .ok rules') : AlikeRules rules rules' := by
  have hget : ∀ key, text key ≠ text "groups" → document.get key = document'.get key := by
    intro key hk
    have := congrArg (fun d => d.get key) h
    simpa only [conditionDocument, Json.get_set hk] using this
  have hgroups : (document.get "groups").toArray.map (Json.without · shownKeys) =
      (document'.get "groups").toArray.map (Json.without · shownKeys) := by
    have := congrArg (fun d => (d.get "groups").toArray) h
    simpa only [conditionDocument, Json.get_set_self, Json.toArray] using this
  obtain ⟨groups, slots, hop, hg, rfl⟩ := compileRules_eq_ok hr
  obtain ⟨groups', slots', hop', hg', rfl⟩ := compileRules_eq_ok hr'
  rw [hget "version" (by decide)] at hg
  obtain ⟨htests, rfl⟩ := compileGroups_congr hgroups hg hg'
  have hany : ∀ f : List Condition → Bool, (groups'.any fun g => f g.conditions) =
      groups.any fun g => f g.conditions := by
    intro f
    have := congrArg (fun tests => tests.any fun t => f t.2) htests
    rw [any_map, any_map] at this
    exact this
  have hall : (groups'.all fun g => g.conditions.all Condition.ofExtension) =
      groups.all fun g => g.conditions.all Condition.ofExtension := by
    have := congrArg (fun tests => tests.all fun t => t.2.all Condition.ofExtension) htests
    rw [all_map, all_map] at this
    exact this
  refine ⟨htests, ?_, hany fun cs => cs.any fun c => c.type == .extension || c.type == .link,
    hall, rfl⟩
  simp only [rulesOf, hget "mode" (by decide)]

end Compile

/-! ### Entries of rules that are alike -/

section Alike

variable {qt : Qt} {rules rules' : FileColorRules} {input : FileRuleInput} {ext : Units}
  {isFolder merge : Bool} {entry : CachedExtension}

/-- Decisions that differ in the text of the error only. -/
structure Decision.Alike (d d' : Decision) : Prop where
  matched : d'.matched = d.matched
  pending : d'.pending = d.pending
  error : d'.error = [] ↔ d.error = []
  cached : d'.cached = d.cached

theorem failedText_ne (label : Units) : failedText label ≠ [] := by
  intro h
  have := (append_eq_nil_iff.1 h).2
  revert this
  decide

theorem Decision.Alike.after {d d' : Decision} (h : d.Alike d') (merge : Bool) (index : Nat)
    (label label' : Units) (s : Scan) :
    (d.after merge index label s).1.Alike (d'.after merge index label' s).1 ∧
      (d'.after merge index label' s).2 = (d.after merge index label s).2 := by
  obtain ⟨hm, hp, he, hc⟩ := h
  unfold Decision.after
  dsimp only
  split_ifs with hwait hfail herr herr' herr' hhit
  · exact ⟨⟨hm, rfl, he, rfl⟩, rfl⟩
  · exact ⟨⟨hm, hp, by simp [failedText_ne], rfl⟩, rfl⟩
  · exact absurd (he.2 herr) herr'
  · exact absurd (he.1 herr') herr
  · exact ⟨⟨hm, hp, he, rfl⟩, rfl⟩
  · exact ⟨⟨by simp [hm], hp, he, rfl⟩, rfl⟩
  · exact ⟨⟨hm, hp, he, rfl⟩, rfl⟩

theorem decideGroups_alike {groups groups' : List Group}
    (h : groups'.map Group.test = groups.map Group.test) (index : Nat) {d d' : Decision}
    (hd : d.Alike d') (qt : Qt) (merge : Bool) (input : FileRuleInput) (ext : Units)
    (isFolder : Bool) :
    (decideGroups qt merge input ext isFolder index groups d).Alike
      (decideGroups qt merge input ext isFolder index groups' d') := by
  induction groups generalizing groups' index d d' with
  | nil =>
    obtain rfl : groups' = [] := by simpa using h
    exact hd
  | cons g groups ih =>
    obtain ⟨g', rest', rfl⟩ : ∃ g' rest', groups' = g' :: rest' := by
      cases groups' with
      | nil => cases h
      | cons g' rest' => exact ⟨_, _, rfl⟩
    obtain ⟨htest, hrest⟩ := cons.inj h
    obtain ⟨hall, hconditions⟩ := Prod.mk.inj htest
    rw [decideGroups, decideGroups, hall, hconditions, hd.cached]
    generalize Scan.run qt g.all input ext isFolder { hit := g.all, cached := d.cached }
      g.conditions = s
    obtain ⟨hafter, hend⟩ := hd.after merge index g.label g'.label s
    rw [hend]
    split
    · exact hafter
    · exact ih hrest (index + 1) hafter

theorem AlikeRules.conditions_eq (h : AlikeRules rules rules') :
    rules'.conditions = rules.conditions := by
  have := congrArg (flatMap Prod.snd) h.tests
  rw [flatMap_map, flatMap_map] at this
  exact this

/-- Names and colours do not matter for an entry. -/
theorem EntryOk.of_alike (ho : EntryOk qt rules ext isFolder entry) (h : AlikeRules rules rules') :
    EntryOk qt rules' ext isFolder entry := by
  refine ⟨?_, fun honly hcomplete input => ?_⟩
  · rw [h.conditions_eq, h.cacheConditions]
    exact ho.conditions
  · obtain ⟨hm, he, hp⟩ := ho.complete (h.extensionOnly ▸ honly) hcomplete input
    have halike := decideGroups_alike h.tests 0
      (⟨rfl, rfl, Iff.rfl, rfl⟩ : Decision.Alike { cached := none } { cached := none })
      qt rules.merge input ext isFolder
    rw [h.merge]
    exact ⟨halike.matched.trans hm, halike.error.2 he, halike.pending.trans hp⟩

theorem AlikeRules.entryCost_eq (h : AlikeRules rules rules') (key : Units) :
    entryCost rules' key = entryCost rules key := by
  have hlength : rules'.groups.length = rules.groups.length := by
    simpa using congrArg length h.tests
  rw [entryCost, entryCost, h.cacheConditions, hlength]

end Alike

end Hc.Settings
