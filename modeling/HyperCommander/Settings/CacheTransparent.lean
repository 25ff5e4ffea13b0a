import HyperCommander.Settings.RuleCompile

/-!
# The cache of extensions is transparent (`UniqueLibs/settings/fileColorRules.hpp`)

* `Faithful.step`: every call keeps each entry right for whatever the remembered document compiles
  to.
* `cache_transparent`: an evaluation with the context gives what the current rules give without
  one, exactly if a new entry for the key would fit into the cache.
* `fits_of_length`: it does for every name that is not as long as the cache.
-/

namespace Hc.Settings

open List Unicode Columns

/-- An evaluation with the context of a state gives what one without a context gives. -/
def Transparent (q : Loader) (s : CacheState) (input : FileRuleInput)
    (diagnostics style : Bool) : Prop :=
  ∃ context, evaluateIn q.toQt s.loaded.rules input s.context diagnostics style =
    some (evaluate q.toQt s.loaded.rules input diagnostics style, context)

/-- The input is not evaluated at all, is not looked up, or has a key that a new entry fits into the
cache with. -/
def Fits (rules : FileColorRules) (input : FileRuleInput) : Prop :=
  input.name = text ".." ∨ rules.groups = [] ∨ rules.cacheConditions = 0 ∨
    entryCost rules (cacheKey rules input) ≤ maxCost

/-- The key of a suffix and a kind. -/
def keyOf (ext : Units) (isFolder : Bool) : Units := (if isFolder then 0x44 else 0x46) :: ext

theorem cacheKey_eq (rules : FileColorRules) (input : FileRuleInput) :
    cacheKey rules input = keyOf (extOf rules input) (isFolderOf input) := rfl

theorem keyOf_injective {ext ext' : Units} {isFolder isFolder' : Bool}
    (h : keyOf ext isFolder = keyOf ext' isFolder') : ext = ext' ∧ isFolder = isFolder' := by
  obtain ⟨hkind, hext⟩ := cons.inj h
  refine ⟨hext, ?_⟩
  cases isFolder <;> cases isFolder' <;> first | rfl | (revert hkind; decide)

/-! ### Nodes -/

/-- A node has an entry that is right for its key, and fitted when it was made. -/
structure NodeOk (qt : Qt) (rules : FileColorRules) (node : CacheNode) : Prop where
  entry : ∀ ext isFolder, node.key = keyOf ext isFolder → EntryOk qt rules ext isFolder node.entry
  cost : entryCost rules node.key ≤ maxCost

section Nodes

variable {qt : Qt} {rules rules' : FileColorRules} {input : FileRuleInput}
  {context : EvaluationContext} {node : CacheNode} {diagnostics style : Bool}

theorem NodeOk.of_alike (h : NodeOk qt rules node) (ha : AlikeRules rules rules') :
    NodeOk qt rules' node :=
  ⟨fun ext isFolder hk => (h.entry ext isFolder hk).of_alike ha,
    by rw [ha.entryCost_eq]; exact h.cost⟩

theorem mem_of_mem_trim {room : Nat} {nodes : List CacheNode} (h : node ∈ trim room nodes) :
    node ∈ nodes := by
  induction nodes generalizing room with
  | nil => exact h
  | cons n nodes ih =>
    rw [trim] at h
    split at h
    · rcases mem_cons.1 h with rfl | h
      · exact mem_cons_self
      · exact mem_cons_of_mem _ (ih h)
    · cases h

/-- The nodes that a lookup for the rules sees. -/
def EvaluationContext.nodesFor (context : EvaluationContext) (rules : FileColorRules) :
    List CacheNode :=
  if context.revision = some rules.revision then context.extensions else []

/-- A lookup gives a node that is right, and keeps only nodes that were there; it fails only if the
new entry does not fit. -/
theorem openEntry_spec (hnodes : ∀ n ∈ context.nodesFor rules, NodeOk qt rules n) (key : Units) :
    (entryCost rules key ≤ maxCost ∧
      ∃ node after, openEntry rules key context = some (node, after) ∧
      node.key = key ∧ NodeOk qt rules node ∧ after.revision = some rules.revision ∧
      ∀ n ∈ after.extensions, NodeOk qt rules n) ∨
    (entryCost rules key > maxCost ∧ openEntry rules key context = none) := by
  have hopen : ∃ c : EvaluationContext, c.revision = some rules.revision ∧
      c.extensions = context.nodesFor rules ∧ (if context.revision ≠ some rules.revision then
        { context with extensions := [], revision := some rules.revision } else context) = c := by
    unfold EvaluationContext.nodesFor
    by_cases hr : context.revision = some rules.revision
    · exact ⟨context, hr, by rw [if_pos hr], by rw [if_neg (not_not.2 hr)]⟩
    · exact ⟨_, rfl, by rw [if_neg hr], if_pos hr⟩
  obtain ⟨c, hrevision, hext, hc⟩ := hopen
  have hothers : ∀ n ∈ c.extensions.filter fun node => node.key ≠ key, NodeOk qt rules n :=
    fun n hn => hnodes n (hext ▸ (mem_filter.1 hn).1)
  unfold openEntry
  simp only [hc]
  cases hfind : c.extensions.find? fun node => node.key = key with
  | some node =>
    have hkey : node.key = key := by simpa using find?_some hfind
    have hnode := hnodes node (hext ▸ mem_of_find?_eq_some hfind)
    exact .inl ⟨hkey ▸ hnode.cost, node, _, rfl, hkey, hnode, hrevision, hothers⟩
  | none =>
    split_ifs with hcost
    · exact .inr ⟨hcost, rfl⟩
    · have hle : entryCost rules key ≤ maxCost := not_lt.1 hcost
      refine .inl ⟨hle, _, _, rfl, rfl,
        ⟨fun ext isFolder _ => entryOk_new qt rules ext isFolder, hle⟩,
        hrevision, fun n hn => hothers n (mem_of_mem_trim hn)⟩

/-- An evaluation gives what one without a context gives, and leaves nodes that are right; it fails
only if the new entry does not fit. -/
theorem evaluateIn_spec (hw : WellIndexed rules)
    (hnodes : ∀ n ∈ context.nodesFor rules, NodeOk qt rules n) (input : FileRuleInput)
    (diagnostics style : Bool) :
    (Fits rules input ∧ ∃ after, evaluateIn qt rules input context diagnostics style =
        some (evaluate qt rules input diagnostics style, after) ∧
      (after = context ∨ after.revision = some rules.revision ∧
        ∀ n ∈ after.extensions, NodeOk qt rules n)) ∨
    (¬Fits rules input ∧ evaluateIn qt rules input context diagnostics style = none) := by
  unfold evaluateIn
  by_cases hskip : (input.name = text ".." || rules.groups.isEmpty) = true
  · rw [if_pos hskip]
    have hno : ¬Evaluated rules input := by
      rw [Bool.or_eq_true, decide_eq_true_eq, List.isEmpty_iff] at hskip
      rintro ⟨hname, hgroups⟩
      exact hskip.elim hname hgroups
    refine .inl ⟨?_, context, by rw [evaluate, evaluateWith_of_not hno], .inl rfl⟩
    rw [Bool.or_eq_true, decide_eq_true_eq, List.isEmpty_iff] at hskip
    exact hskip.elim .inl fun h => .inr (.inl h)
  · rw [if_neg hskip]
    rw [Bool.or_eq_true, decide_eq_true_eq, List.isEmpty_iff, not_or] at hskip
    by_cases hnone : rules.cacheConditions = 0
    · rw [if_pos hnone]
      exact .inl ⟨.inr (.inr (.inl hnone)), context, rfl, .inl rfl⟩
    · rw [if_neg hnone]
      rcases openEntry_spec hnodes (cacheKey rules input) with
        ⟨hcost, node, after, hopen, hkey, hnode, hrevision, hafter⟩ | ⟨hcost, hopen⟩
      · obtain ⟨entry', hdone, hentry⟩ := evaluateWith_cached hw
          (hnode.entry _ _ (hkey.trans (cacheKey_eq rules input))) diagnostics style
        rw [hopen]
        dsimp only
        rw [hdone]
        refine .inl ⟨.inr (.inr (.inr hcost)), _, rfl, .inr ⟨hrevision, ?_⟩⟩
        intro n hn
        rcases mem_cons.1 hn with rfl | hn
        · refine ⟨fun ext isFolder hk => ?_, hkey ▸ hcost⟩
          obtain ⟨rfl, rfl⟩ := keyOf_injective
            (hk.symm.trans (hkey.trans (cacheKey_eq rules input)))
          exact hentry
        · exact hafter n hn
      · rw [hopen]
        refine .inr ⟨?_, rfl⟩
        rintro (h | h | h | h)
        · exact hskip.1 h
        · exact hskip.2 h
        · exact hnone h
        · exact absurd hcost (not_lt.2 h)

end Nodes

/-! ### Calls -/

/-- Between two calls: the rules are those of the remembered document, and each entry that the
revision keeps is right for whatever that document can compile to. -/
structure Faithful (q : Loader) (s : CacheState) : Prop where
  fresh : s.loaded.rules.revision < s.loaded.fresh
  seen : ∀ revision, s.context.revision = some revision → revision < s.loaded.fresh
  rules : s.loaded.rules.groups = [] ∨ ∃ document revision,
    conditionDocument document = s.loaded.document ∧
    compileRules q document revision = .ok s.loaded.rules
  nodes : ∀ document revision rules, conditionDocument document = s.loaded.document →
    compileRules q document revision = .ok rules →
      ∀ n ∈ s.context.nodesFor s.loaded.rules, NodeOk q.toQt rules n

section Calls

variable {q : Loader} {s s' : CacheState} {diagnostics style : Bool} {input : FileRuleInput}

theorem faithful_start (q : Loader) : Faithful q {} := by
  refine ⟨by decide, fun _ h => ?_, .inl rfl, fun _ _ _ _ _ n hn => ?_⟩
  · cases h
  · cases hn

/-- The rules after `Load`: what the document compiles to, or no groups. -/
theorem load_spec (r : LoadedRules) (document : Json) :
    (r.load q document).2.document = conditionDocument document ∧
      ((r.load q document).2.rules.groups = [] ∨ ∃ revision,
        compileRules q document revision = .ok (r.load q document).2.rules) ∧
      (r.document = conditionDocument document ∧
        (r.load q document).2.rules.revision = r.rules.revision ∧
          (r.load q document).2.fresh = r.fresh ∨
        (r.load q document).2.rules.revision = r.fresh ∧
          (r.load q document).2.fresh = r.fresh + 1) := by
  have hrevision : ∀ {revision rules}, compileRules q document revision = .ok rules →
      rules.revision = revision := by
    intro revision rules h
    obtain ⟨groups, slots, hop, _, rfl⟩ := compileRules_eq_ok h
    rfl
  have hsame : ∀ {revision fresh}, (revision = if r.document.beq (conditionDocument document) then
        r.rules.revision else r.fresh) →
      (fresh = if r.document.beq (conditionDocument document) then r.fresh else r.fresh + 1) →
      r.document = conditionDocument document ∧ revision = r.rules.revision ∧ fresh = r.fresh ∨
        revision = r.fresh ∧ fresh = r.fresh + 1 := by
    intro revision fresh hr hf
    by_cases h : r.document.beq (conditionDocument document) = true
    · rw [if_pos h] at hr hf
      exact .inl ⟨(Json.beq_iff _ _).1 h, hr, hf⟩
    · rw [if_neg h] at hr hf
      exact .inr ⟨hr, hf⟩
  unfold LoadedRules.load
  dsimp only
  split
  · exact ⟨rfl, .inl rfl, hsame rfl rfl⟩
  · split
    · exact ⟨rfl, .inl rfl, hsame rfl rfl⟩
    · rename_i rules hrules
      exact ⟨rfl, .inr ⟨_, hrules⟩, hsame (hrevision hrules) rfl⟩

theorem Faithful.load (h : Faithful q s) (document : Json) :
    Faithful q { s with loaded := (s.loaded.load q document).2 } := by
  obtain ⟨hdocument, hrules, hrevision⟩ := load_spec (q := q) s.loaded document
  generalize (s.loaded.load q document).2 = loaded at hdocument hrules hrevision ⊢
  have hcompiled : loaded.rules.groups = [] ∨ ∃ document revision,
      conditionDocument document = loaded.document ∧
      compileRules q document revision = .ok loaded.rules := by
    refine hrules.imp_right ?_
    rintro ⟨revision, hr⟩
    exact ⟨document, revision, hdocument.symm, hr⟩
  rcases hrevision with ⟨hsame, hr, hf⟩ | ⟨hr, hf⟩
  · -- the entries stay, and so does what they are entries of
    have hnodes : s.context.nodesFor loaded.rules = s.context.nodesFor s.loaded.rules := by
      rw [EvaluationContext.nodesFor, EvaluationContext.nodesFor, hr]
    refine ⟨?_, ?_, hcompiled, ?_⟩
    · dsimp only
      rw [hr, hf]
      exact h.fresh
    · dsimp only
      rw [hf]
      exact h.seen
    · intro document' revision rules hd
      rw [hnodes]
      exact h.nodes document' revision rules (hd.trans (hdocument.trans hsame.symm))
  · refine ⟨?_, ?_, hcompiled, ?_⟩
    · dsimp only
      omega
    · intro revision hc
      have := h.seen revision hc
      dsimp only
      omega
    · intro _ _ _ _ _ n hn
      have hstale : s.context.revision ≠ some loaded.rules.revision := by
        intro hc
        have := h.seen _ hc
        omega
      rw [EvaluationContext.nodesFor, if_neg hstale] at hn
      cases hn

/-- The nodes that a lookup sees are right for the current rules. -/
theorem Faithful.current (h : Faithful q s) (hg : s.loaded.rules.groups ≠ []) :
    WellIndexed s.loaded.rules ∧ ∀ n ∈ s.context.nodesFor s.loaded.rules,
      NodeOk q.toQt s.loaded.rules n := by
  obtain ⟨document, revision, hdocument, hr⟩ := h.rules.resolve_left hg
  exact ⟨wellIndexed_of_compileRules hr, h.nodes document revision _ hdocument hr⟩

theorem Faithful.evaluateIn (h : Faithful q s) (input : FileRuleInput) (diagnostics style : Bool) :
    (Fits s.loaded.rules input ∧ ∃ after,
        Settings.evaluateIn q.toQt s.loaded.rules input s.context diagnostics style =
          some (evaluate q.toQt s.loaded.rules input diagnostics style, after) ∧
        Faithful q { s with context := after }) ∨
    (¬Fits s.loaded.rules input ∧
      Settings.evaluateIn q.toQt s.loaded.rules input s.context diagnostics style = none) := by
  by_cases hg : s.loaded.rules.groups = []
  · have hno : ¬Evaluated s.loaded.rules input := fun hev => hev.2 hg
    refine .inl ⟨.inr (.inl hg), s.context, ?_, h⟩
    rw [Settings.evaluateIn, if_pos (by simp [hg]), evaluate, evaluateWith_of_not hno]
  · obtain ⟨hw, hnodes⟩ := h.current hg
    rcases evaluateIn_spec hw hnodes input diagnostics style with
      ⟨hfits, after, hdone, hafter⟩ | hfails
    · refine .inl ⟨hfits, after, hdone, ?_⟩
      rcases hafter with rfl | ⟨hrevision, hafter⟩
      · exact h
      · obtain ⟨document, revision, hdocument, hr⟩ := h.rules.resolve_left hg
        refine ⟨h.fresh, fun r hs => ?_, h.rules, fun document' revision' rules' hd' hr' n hn => ?_⟩
        · obtain rfl : s.loaded.rules.revision = r := Option.some.inj (hrevision.symm.trans hs)
          exact h.fresh
        · refine NodeOk.of_alike (hafter n ?_)
            (alike_of_compileRules (hdocument.trans hd'.symm) hr hr')
          have hn' : n ∈ after.nodesFor s.loaded.rules := hn
          rwa [EvaluationContext.nodesFor, if_pos hrevision] at hn'
    · exact .inr hfails

/-- Every call keeps the entries right. -/
theorem Faithful.step {call : Call} {result : Option FileRuleResult} (h : Faithful q s)
    (hs : s.step q call = some (result, s')) : Faithful q s' := by
  cases call with
  | load document =>
    cases hs
    exact h.load document
  | evaluate input diagnostics style =>
    rcases h.evaluateIn input diagnostics style with ⟨_, after, hdone, hafter⟩ | ⟨_, hdone⟩
    · rw [CacheState.step, hdone] at hs
      cases hs
      exact hafter
    · rw [CacheState.step, hdone] at hs
      cases hs

theorem Reached.faithful (h : Reached q s) : Faithful q s := by
  induction h with
  | start => exact faithful_start q
  | step _ hs ih => exact ih.step hs

end Calls

/-- In every state that calls lead to, an evaluation with the context gives what the current rules
give without one, exactly if the input fits. -/
theorem cache_transparent (q : Loader) (s : CacheState) (input : FileRuleInput)
    (diagnostics style : Bool) (h : Reached q s) :
    Transparent q s input diagnostics style ↔ Fits s.loaded.rules input := by
  rcases h.faithful.evaluateIn input diagnostics style with ⟨hfits, after, hdone, _⟩ |
    ⟨hfits, hnone⟩
  · exact ⟨fun _ => hfits, fun _ => ⟨after, hdone⟩⟩
  · refine ⟨?_, fun hf => absurd hf hfits⟩
    rintro ⟨after, hdone⟩
    rw [hnone] at hdone
    cases hdone

/-! ### Short names -/

theorem length_suffix_le (name : Units) : (suffix name).length ≤ name.length := by
  unfold suffix
  dsimp only
  split
  · split
    · exact Nat.zero_le _
    · rw [length_reverse]
      exact (takeWhile_sublist _).length_le.trans_eq length_reverse
  · exact Nat.zero_le _

/-- Every name fits that is not as long as the whole cache. -/
theorem fits_of_length {rules : FileColorRules} {input : FileRuleInput}
    (h : sizeofCachedExtension + rules.cacheConditions + rules.groups.length * 4 +
      (input.name.length + 1) * 2 ≤ 4194304) : Fits rules input := by
  refine .inr (.inr (.inr ?_))
  have hkey : (cacheKey rules input).length ≤ input.name.length + 1 := by
    have hsuffix := length_suffix_le input.name
    unfold cacheKey
    rw [length_cons]
    split
    · omega
    · exact Nat.succ_le_succ (Nat.zero_le _)
  unfold entryCost toInt32 maxCost
  rw [Int.bmod_eq_of_le (by omega) (by omega)]
  omega

/-- A loader that accepts every document. -/
def plainLoader : Loader where
  toQt := plainQt
  validate _ _ := []
  compileField _ := { field := [], type := .text, op := .exists_ }
  costOf _ := 0
  isValidRegex _ := true
  splitExtensions value := [value]
  number _ := none
  utcDate _ := none
  pendingColor _ _ _ := none
  color _ _ _ := none
  enabledDefault := true

/-- "The extension is txt." -/
def txtCondition : Json :=
  .object [(text "op", .string (text "in")), (text "type", .string (text "extension")),
  (text "value", .string (text "txt"))]

/-- One group with that condition. -/
def txtDocument : Json :=
  .object [(text "groups", .array [.object [(text "conditions", .array [txtCondition])]]),
  (text "version", .double 3)]

/-- The state after that document was loaded. -/
def txtState : CacheState := { loaded := (({} : LoadedRules).load plainLoader txtDocument).2 }

theorem txtState_reached : Reached plainLoader txtState :=
  have h : CacheState.step plainLoader {} (.load txtDocument) = some (none, txtState) := rfl
  .step .start h

/-- A file with a suffix of three letters. -/
def dotted : FileRuleInput := { name := 0x2e :: List.replicate 3 0x61, referenceUtcMs := 0 }

/-- A short name is looked up. -/
theorem cache_transparent_txt : Reached plainLoader txtState ∧
    (Transparent plainLoader txtState dotted false true ↔ Fits txtState.loaded.rules dotted) ∧
    Fits txtState.loaded.rules dotted :=
  ⟨txtState_reached, cache_transparent plainLoader txtState dotted false true txtState_reached,
    fits_of_length (by decide +kernel)⟩

end Hc.Settings
