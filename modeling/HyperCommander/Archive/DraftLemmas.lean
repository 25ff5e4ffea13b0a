import HyperCommander.Archive.Draft

/-!
# What a draft becomes

* `Change.on`, `applied`: the changes on a tree of paths, subtrees moved or removed whole.
* `Missing`, `Stays`, `result`: the parents that no entry stands for, the entries that are no
  emptied implicit parents, and the tree of both.
* `applyChanges_tree`, `plan_tree`: a draft is that tree.
* `plan_materialisable`: exactly when it can be staged where names are compared without case.
-/

open List Outcome

namespace Hc.Archive

open Storage Unicode PathTree
open Operations.DurableLog (EntrySnapshot)

/-! ### The tree -/

/-- What an archive has at its paths. -/
abbrev Entries := Tree UInt8 DraftEntry

/-- A change on a tree. -/
def Change.on (t : Entries) (c : Change) : Entries :=
  match c.kind with
  | .remove => t.remove slash c.path
  | .rename => t.move slash renamedItem c.path c.target
  | _ => t.put c.path (putItem c (t c.path))

/-- Changes one after another. -/
def applied (t : Entries) (changes : List Change) : Entries := changes.foldl Change.on t

/-- A parent of a path, other than the root. -/
def Above (a p : Str) : Prop := Beneath slash a p ∧ 1 < a.length

/-- A parent that no entry stands for. -/
def Missing (t : Entries) (a : Str) : Prop := t a = none ∧ ∃ p, t p ≠ none ∧ Above a p

/-- An entry that is not an implicit parent with nothing but implicit parents beneath it. -/
def Stays (t : Entries) (p : Str) : Prop :=
  ∃ item, t p = some item ∧
    (isImplicit item = true → ∃ q other, Beneath slash p q ∧ t q = some other ∧
      isImplicit other = false)

open Classical in
/-- The entries that stay, and the parents they miss. -/
noncomputable def result (t : Entries) : Entries := fun p =>
  if Stays t p then t p else if Missing t p then some newDirectory else none

/-- Every entry lies in a directory, and names that differ in case only stand for one thing. -/
structure Materialisable (fold : Str → Units) (t : Entries) : Prop where
  distinct : ∀ p q, t p ≠ none → t q ≠ none → fold p = fold q → p = q
  file : ∀ f item p a, t f = some item → item.entry.directory = false → t p ≠ none → Above a p →
    fold a ≠ fold f
  parent : ∀ p, t p ≠ none → parentOf p = [slash] ∨
    ∃ item, t (parentOf p) = some item ∧ item.entry.directory = true

/-! ### Parents -/

section Parents

variable {a p : Str}

/-- A path of an archive: behind a slash. -/
def IsPath (p : Str) : Prop := p.head? = some slash

theorem IsPath.mem (h : IsPath p) : slash ∈ p := mem_of_mem_head? h

theorem IsPath.of_isPrefix (h : IsPath p) (ha : a <+: p) (hne : a ≠ []) : IsPath a := by
  obtain ⟨c, rest, rfl⟩ := exists_cons_of_ne_nil hne
  obtain ⟨t, rfl⟩ := ha
  exact h

/-- A parent of a path is the next one, or a parent of that. -/
theorem above_iff (h : IsPath p) :
    Above a p ↔ parentOf p ≠ [slash] ∧ (a = parentOf p ∨ Above a (parentOf p)) := by
  have hiff : Beneath slash a p ↔ Inside slash a (parent slash p) := by
    rw [beneath_iff, and_iff_right h.mem]
  have hpre := (parent_beneath h.mem).isPrefix
  unfold Above
  rw [hiff]
  by_cases hnil : parent slash p = []
  · have hup : parentOf p = [slash] := if_pos hnil
    rw [hup, hnil]
    refine ⟨fun ⟨hin, hlen⟩ => ?_, fun ⟨hne, _⟩ => absurd rfl hne⟩
    have := hin.isPrefix.length_le
    rw [length_nil] at this
    omega
  · have hup : parentOf p = parent slash p := if_neg hnil
    rw [hup]
    have hd := h.of_isPrefix hpre hnil
    constructor
    · rintro ⟨hin, hlen⟩
      have hle := hin.isPrefix.length_le
      refine ⟨fun he => ?_, ?_⟩
      · rw [he, length_singleton] at hle
        omega
      · rcases hin with he | hb
        · exact .inl he.symm
        · exact .inr ⟨hb, hlen⟩
    · rintro ⟨hne, rfl | ⟨hb, hlen⟩⟩
      · refine ⟨.inl rfl, ?_⟩
        obtain ⟨c, rest, hc⟩ := exists_cons_of_ne_nil hnil
        rw [IsPath, hc] at hd
        obtain rfl : c = slash := Option.some.inj hd
        rcases rest with _ | ⟨x, rest⟩
        · exact absurd hc hne
        · rw [hc]
          exact Nat.succ_lt_succ (Nat.succ_pos _)
      · exact ⟨.inr hb, hlen⟩

theorem isPath_parentOf (h : IsPath p) : IsPath (parentOf p) := by
  unfold parentOf
  split
  · rfl
  · exact h.of_isPrefix (parent_beneath h.mem).isPrefix ‹_›

theorem length_parentOf (h : IsPath p) (hne : parentOf p ≠ [slash]) :
    (parentOf p).length < p.length := by
  have hnil : parent slash p ≠ [] := fun hnil => hne (if_pos hnil)
  rw [parentOf, if_neg hnil]
  exact (parent_beneath h.mem).length_lt

theorem mem_ups (h : IsPath p) {n : Nat} (hn : p.length ≤ n) : a ∈ ups n p ↔ Above a p := by
  induction n generalizing p with
  | zero =>
    have hlen := length_pos_of_mem h.mem
    omega
  | succ n ih =>
    rw [ups, above_iff h]
    split
    · rename_i hup
      exact ⟨fun hm => absurd hm not_mem_nil, fun hm => absurd hup hm.1⟩
    · rename_i hup
      have hlt := length_parentOf h hup
      rw [mem_cons, ih (isPath_parentOf h) (by omega), and_iff_right hup]

end Parents

/-! ### Changes -/

section Changes

variable {letters : Letters} {limits : Limits} {context : Context} {draft draft' : Draft}
  {path p q : Str} {item : DraftEntry} {change : Change} {paths : List Str}

theorem safePath_eq_ok {maxDepth : Nat} {r : Str}
    (h : safePath letters maxDepth path = .ok r) : r = path ∧ IsPath path ∧ 2 ≤ path.length := by
  unfold safePath at h
  simp only [bind_eq_ok, failIf_eq_ok] at h
  obtain ⟨_, hc, h⟩ := h
  have hr : r = path := by
    split at h
    · cases h
    · simp only [bind_eq_ok, failIf_eq_ok, pure_eq_ok] at h
      obtain ⟨_, -, _, -, _, -, rfl⟩ := h
      rfl
  refine ⟨hr, ?_, ?_⟩
  · by_contra hne
    exact hc (.inr (.inl hne))
  · by_contra hlt
    exact hc (.inl (by omega))

theorem mem_affected :
    p ∈ affected draft path ↔ p = path ∨ (draft.find p ≠ none ∧ Beneath slash path p) := by
  rw [affected, mem_cons, mem_map]
  refine or_congr_right ⟨?_, fun ⟨hne, hb⟩ => ?_⟩
  · rintro ⟨e, he, rfl⟩
    obtain ⟨hm, hp⟩ := OrdMap.mem_range.mp he
    exact ⟨by rw [OrdMap.mem_entries.mp hm]; exact nofun, hp⟩
  · obtain ⟨item, hitem⟩ := Option.ne_none_iff_exists'.mp hne
    exact ⟨(p, item), OrdMap.mem_range.mpr ⟨OrdMap.mem_entries.mpr hitem, hb⟩, rfl⟩

/-- What is taken out, and what is left. -/
theorem detach_spec (paths : List Str) (draft : Draft) :
    (∀ p item, (p, item) ∈ (detach paths draft).1 ↔ p ∈ paths ∧ draft.find p = some item) ∧
      ∀ p, (detach paths draft).2.find p = if p ∈ paths then none else draft.find p := by
  induction paths generalizing draft with
  | nil => exact ⟨fun p item => by simp [detach], fun p => by simp [detach]⟩
  | cons path paths ih =>
    obtain ⟨h1, h2⟩ := ih (draft.erase path)
    have hrest : ∀ p, (detach (path :: paths) draft).2.find p =
        if p ∈ path :: paths then none else draft.find p := by
      intro p
      have he : (detach (path :: paths) draft).2 = (detach paths (draft.erase path)).2 := by
        rw [detach]
        split <;> rfl
      rw [he, h2, OrdMap.find_erase]
      by_cases hp : p = path
      · rw [if_pos hp, ite_self, if_pos (hp ▸ mem_cons_self)]
      · rw [if_neg hp]
        simp only [mem_cons, hp, false_or]
    refine ⟨fun p item => ?_, hrest⟩
    have hout : (p, item) ∈ (detach (path :: paths) draft).1 ↔
        (p = path ∧ draft.find path = some item) ∨
          (p, item) ∈ (detach paths (draft.erase path)).1 := by
      rw [detach]
      split
      · rename_i old hold
        rw [mem_cons, Prod.mk.injEq, hold, Option.some.injEq, eq_comm (a := item)]
      · rename_i hnone
        simp [hnone]
    rw [hout, h1, OrdMap.find_erase, mem_cons]
    by_cases hp : p = path
    · subst hp
      simp
    · simp [hp]

/-- Without its affected paths, the draft is the tree without the subtree. -/
theorem find_detach (path : Str) (draft : Draft) :
    (detach (affected draft path) draft).2.find = Tree.remove slash draft.find path := by
  funext p
  rw [(detach_spec _ _).2, Tree.remove]
  by_cases hp : p ∈ affected draft path
  · rw [if_pos hp, if_pos]
    rcases mem_affected.mp hp with rfl | ⟨-, hb⟩
    · exact .inl rfl
    · exact .inr hb
  · rw [if_neg hp]
    split
    · rename_i hin
      by_contra hne
      refine hp (mem_affected.mpr ?_)
      rcases hin with rfl | hb
      · exact .inl rfl
      · exact .inr ⟨hne, hb⟩
    · rfl

/-- What comes back stood nowhere before. -/
theorem attach_eq_ok {renamed : List (Str × DraftEntry)} (h : attach renamed draft = .ok draft') :
    (∀ e ∈ renamed, draft.find e.1 = none) ∧
      ∀ p item, draft'.find p = some item ↔ (p, item) ∈ renamed ∨ draft.find p = some item := by
  induction renamed generalizing draft with
  | nil =>
    obtain rfl := Except.ok.inj h
    exact ⟨fun e he => absurd he not_mem_nil, fun p item => by simp⟩
  | cons e renamed ih =>
    rw [attach] at h
    simp only [bind_eq_ok, failIf_eq_ok] at h
    obtain ⟨_, hfree, h⟩ := h
    obtain ⟨h1, h2⟩ := ih h
    have hnone : draft.find e.1 = none := by simpa using hfree
    have hne : ∀ e' ∈ renamed, e'.1 ≠ e.1 := by
      intro e' he' heq
      have := h1 e' he'
      rw [heq, OrdMap.find_set_self] at this
      cases this
    refine ⟨fun e' he' => ?_, fun p item => ?_⟩
    · rcases mem_cons.mp he' with rfl | he'
      · exact hnone
      · have := h1 e' he'
        rwa [OrdMap.find_set_of_ne (hne e' he')] at this
    · rw [h2, OrdMap.find_set, mem_cons, Prod.ext_iff]
      by_cases hp : p = e.1
      · subst hp
        simp only [if_true, Option.some.injEq, true_and, hnone]
        constructor
        · rintro (hm | rfl)
          · exact absurd rfl (hne (e.1, item) hm)
          · exact .inl (.inl rfl)
        · rintro ((rfl | hm) | hm)
          · exact .inr rfl
          · exact .inl hm
          · cases hm
      · rw [if_neg hp]
        simp [hp]

/-- The entries that move, under the paths they come to. -/
theorem mem_renamed {target : Str} :
    (q, item) ∈ (detach (affected draft path) draft).1.map
        (fun e => (target ++ e.1.drop path.length, renamedItem e.2)) ↔
      Inside slash target q ∧
        ∃ old, draft.find (path ++ q.drop target.length) = some old ∧ renamedItem old = item := by
  rw [mem_map]
  constructor
  · rintro ⟨⟨p, old⟩, hm, he⟩
    obtain ⟨hp, hold⟩ := ((detach_spec _ _).1 p old).mp hm
    obtain ⟨rfl, hitem⟩ := Prod.mk.inj he
    have hin : Inside slash path p := by
      rcases mem_affected.mp hp with rfl | ⟨-, hb⟩
      · exact .inl rfl
      · exact .inr hb
    obtain ⟨s, rfl⟩ := hin.isPrefix
    rw [drop_left, drop_left]
    exact ⟨inside_append.mpr (inside_append.mp hin), old, hold, hitem⟩
  · rintro ⟨hin, old, hold, hitem⟩
    obtain ⟨s, rfl⟩ := hin.isPrefix
    rw [drop_left] at hold
    refine ⟨(path ++ s, old), ((detach_spec _ _).1 _ _).mpr ⟨mem_affected.mpr ?_, hold⟩, ?_⟩
    · rcases inside_append.mp hin with rfl | hs
      · exact .inl (append_nil path)
      · exact .inr ⟨by rw [hold]; exact nofun,
          (prefix_append_right_inj path).mpr hs⟩
    · rw [drop_left, hitem]

/-- A subtree moves whole, to where nothing stands. -/
theorem find_attach {target : Str}
    (h : attach ((detach (affected draft path) draft).1.map fun e =>
      (target ++ e.1.drop path.length, renamedItem e.2))
        (detach (affected draft path) draft).2 = .ok draft') :
    draft'.find = Tree.move slash draft.find renamedItem path target ∧
      ∀ q, Inside slash target q → (draft.find (path ++ q.drop target.length)).isSome →
        Tree.remove slash draft.find path q = none := by
  obtain ⟨h1, h2⟩ := attach_eq_ok h
  rw [find_detach] at h1 h2
  have hfree : ∀ q, Inside slash target q → (draft.find (path ++ q.drop target.length)).isSome →
      Tree.remove slash draft.find path q = none := by
    intro q hin hsome
    obtain ⟨old, hold⟩ := Option.isSome_iff_exists.mp hsome
    exact h1 (q, renamedItem old) (mem_renamed.mpr ⟨hin, old, hold, rfl⟩)
  refine ⟨funext fun q => Option.ext fun item => ?_, hfree⟩
  rw [h2, mem_renamed, Tree.move]
  split
  · rename_i hm
    rw [hfree q hm.1 hm.2, Option.map_eq_some_iff]
    constructor
    · rintro (⟨-, h⟩ | h)
      · exact h
      · cases h
    · exact fun h => .inl ⟨hm.1, h⟩
  · rename_i hm
    refine ⟨fun h => h.resolve_left ?_, .inr⟩
    rintro ⟨hin, old, hold, -⟩
    exact hm ⟨hin, by rw [hold]; rfl⟩

/-- Above every entry that was not changed, a directory stands at each path but the root. -/
def Rooted (t : Entries) : Prop :=
  Tree.Rooted slash (fun a => a.length ≤ 1) (fun item => item.changed = false)
    (fun item => item.entry.directory = true) t

theorem Change.on_remove {t : Entries} {c : Change} (hk : c.kind = .remove) :
    c.on t = t.remove slash c.path := by
  rw [Change.on, hk]

theorem Change.on_rename {t : Entries} {c : Change} (hk : c.kind = .rename) :
    c.on t = t.move slash renamedItem c.path c.target := by
  rw [Change.on, hk]

theorem Change.on_put {t : Entries} {c : Change} (h₁ : c.kind ≠ .remove) (h₂ : c.kind ≠ .rename) :
    c.on t = t.put c.path (putItem c (t c.path)) := by
  unfold Change.on
  cases hk : c.kind with
  | put => rfl
  | remove => exact absurd hk h₁
  | rename => exact absurd hk h₂
  | makeDirectory => rfl

/-- A change that is accepted is the change of the tree. -/
theorem applyChange_tree (h : applyChange letters limits draft change = .ok draft') :
    draft'.find = change.on draft.find ∧ (Rooted draft.find → Rooted draft'.find) := by
  unfold applyChange at h
  simp only [bind_eq_ok] at h
  obtain ⟨_, -, h⟩ := h
  split at h
  · rename_i hk
    simp only [bind_eq_ok, pure_eq_ok] at h
    obtain ⟨_, -, rfl⟩ := h
    rw [Change.on_remove hk, find_detach]
    exact ⟨rfl, fun hr => Tree.Rooted.remove hr _⟩
  · rename_i hk
    simp only [bind_eq_ok] at h
    obtain ⟨_, -, _, -, h⟩ := h
    obtain ⟨htree, hfree⟩ := find_attach h
    rw [Change.on_rename hk, htree]
    exact ⟨rfl, fun hr => Tree.Rooted.move hr (fun b hb => by cases hb) hfree⟩
  · rename_i hremove hrename
    simp only [bind_eq_ok, pure_eq_ok] at h
    obtain ⟨_, -, _, hput, rfl⟩ := h
    have htree : (draft.set change.path (putItem change (draft.find change.path))).find =
        Tree.put draft.find change.path (putItem change (draft.find change.path)) := by
      funext q
      rw [OrdMap.find_set, Tree.put]
      by_cases hq : q = change.path
      · rw [if_pos hq, if_pos hq]
      · rw [if_neg hq, if_neg hq]
    refine ⟨?_, fun hr => ?_⟩
    · rw [htree, Change.on_put hremove hrename]
    · rw [htree]
      refine Tree.Rooted.put hr (fun hb => by cases hb) fun d hd hdir => ?_
      unfold checkPut at hput
      simp only [bind_eq_ok, failIf_eq_ok, hd] at hput
      obtain ⟨_, hput, -⟩ := hput
      exact hput (by simpa using hdir)

/-- Changes that are accepted are the changes of the tree. -/
theorem applyChanges_tree {n : Nat} {changes : List Change}
    (h : applyChanges letters limits context n changes draft = .ok draft') :
    draft'.find = applied draft.find changes ∧ (Rooted draft.find → Rooted draft'.find) := by
  induction changes generalizing n draft with
  | nil =>
    obtain rfl := Except.ok.inj h
    exact ⟨rfl, id⟩
  | cons change changes ih =>
    rw [applyChanges] at h
    split at h
    · cases h
    · simp only [bind_eq_ok] at h
      obtain ⟨draft₁, h₁, h⟩ := h
      obtain ⟨htree, hr⟩ := applyChange_tree h₁
      obtain ⟨htree', hr'⟩ := ih h
      refine ⟨?_, hr' ∘ hr⟩
      rw [htree', htree]
      rfl

end Changes

/-! ### Reading -/

section Reading

variable {letters : Letters} {limits : Limits} {reader : Reader} {root at_ : Locator}
  {draft : Draft} {s s' : Draft × List Locator} {p : Str}

/-- The root, or a directory of the draft. -/
def Known (draft : Draft) (p : Str) : Prop :=
  p = [slash] ∨ ∃ item, draft.find p = some item ∧ item.entry.directory = true

/-- What was read is unchanged and lies in a directory, and directories are to be read. -/
structure Reading (s : Draft × List Locator) : Prop where
  item : ∀ p item, s.1.find p = some item →
    item.changed = false ∧ IsPath p ∧ Known s.1 (parentOf p)
  pending : ∀ l ∈ s.2, Known s.1 (lastEntry l)

theorem Known.set (h : Known draft p) {path : Str} (hfree : draft.find path = none)
    (item : DraftEntry) : Known (draft.set path item) p := by
  refine h.imp_right fun ⟨d, hd, hdir⟩ => ⟨d, ?_, hdir⟩
  rw [OrdMap.find_set_of_ne, hd]
  rintro rfl
  rw [hfree] at hd
  cases hd

/-- An entry of a known directory. -/
theorem addEntry_reading {entry : EntrySnapshot} (hs : Reading s) (hat : Known s.1 (lastEntry at_))
    (h : addEntry letters limits reader root at_ s entry = .ok s') :
    Reading s' ∧ ∀ p, Known s.1 p → Known s'.1 p := by
  unfold addEntry at h
  simp only [bind_eq_ok, failIf_eq_ok, pure_eq_ok] at h
  obtain ⟨_, -, path, hpath, _, hparent, _, hfree, _, -, rfl⟩ := h
  obtain ⟨hp, hslash, -⟩ := safePath_eq_ok hpath
  have hfree : s.1.find path = none := by simpa using hfree
  have hup : parentOf path = lastEntry at_ := by
    by_contra hne
    exact hparent (.inl hne)
  refine ⟨⟨fun q item hq => ?_, fun l hl => ?_⟩, fun q hq => hq.set hfree _⟩
  · rw [OrdMap.find_set] at hq
    split at hq
    · rename_i he
      obtain rfl := Option.some.inj hq
      refine ⟨rfl, he ▸ hp ▸ hslash, ?_⟩
      rw [he, hup]
      exact hat.set hfree _
    · obtain ⟨h1, h2, h3⟩ := hs.item q item hq
      exact ⟨h1, h2, h3.set hfree _⟩
  · have hold : l ∈ s.2 → Known s.1 (lastEntry l) := hs.pending l
    split at hl
    · rename_i hdir
      rcases mem_cons.mp hl with rfl | hl
      · rw [← hp]
        refine .inr ⟨_, OrdMap.find_set_self, ?_⟩
        simpa using (Bool.and_eq_true_iff.mp hdir).1
      · exact (hold hl).set hfree _
    · exact (hold hl).set hfree _

theorem addEntries_reading {entries : List EntrySnapshot} (hs : Reading s)
    (hat : Known s.1 (lastEntry at_))
    (h : entries.foldlM (addEntry letters limits reader root at_) s = .ok s') :
    Reading s' ∧ ∀ p, Known s.1 p → Known s'.1 p := by
  induction entries generalizing s with
  | nil =>
    obtain rfl := Except.ok.inj h
    exact ⟨hs, fun _ => id⟩
  | cons e entries ih =>
    rw [foldlM_cons, bind_eq_ok] at h
    obtain ⟨s₁, h₁, h⟩ := h
    obtain ⟨hr, hk⟩ := addEntry_reading hs hat h₁
    obtain ⟨hr', hk'⟩ := ih hr (hk _ hat) h
    exact ⟨hr', fun p hp => hk' p (hk p hp)⟩

theorem addPages_reading {pages : List (Except Error Page)} (hs : Reading s)
    (hat : Known s.1 (lastEntry at_))
    (h : addPages letters limits reader root at_ pages s = .ok s') : Reading s' := by
  induction pages generalizing s with
  | nil => cases h
  | cons page pages ih =>
    cases page with
    | error e => cases h
    | ok page =>
      rw [addPages] at h
      simp only [bind_eq_ok] at h
      obtain ⟨_, -, s₁, h₁, h⟩ := h
      obtain ⟨hr, hk⟩ := addEntries_reading hs hat h₁
      split at h
      · obtain rfl := Except.ok.inj h
        exact hr
      · exact ih hr (hk _ hat) h

/-- In the draft of an archive every directory above an entry is there. -/
theorem snapshot_rooted {n : Nat} (hroot : lastEntry root = [slash])
    (h : snapshot letters limits reader root n = .ok draft) : Rooted draft.find := by
  have hloop : ∀ n pending d, Reading (d, pending) →
      snapshotLoop letters limits reader root n pending d = .ok draft → Reading (draft, []) := by
    intro n
    induction n with
    | zero =>
      intro pending d hr h
      cases pending with
      | nil =>
        obtain rfl := Except.ok.inj h
        exact hr
      | cons l pending => cases h
    | succ n ih =>
      intro pending d hr h
      cases pending with
      | nil =>
        obtain rfl := Except.ok.inj h
        exact hr
      | cons l pending =>
        rw [snapshotLoop] at h
        simp only [bind_eq_ok] at h
        obtain ⟨pages, -, s, h₁, h⟩ := h
        refine ih _ _ (addPages_reading (s := (d, pending)) ⟨hr.item, fun l hl => ?_⟩ ?_ h₁) h
        · exact hr.pending l (mem_cons_of_mem _ hl)
        · exact hr.pending l mem_cons_self
  have hr : Reading (draft, []) := by
    refine hloop n [root] .empty ⟨fun p item hp => ?_, fun l hl => ?_⟩ h
    · rw [OrdMap.find_empty] at hp
      cases hp
    · obtain rfl := mem_singleton.mp hl
      exact .inl hroot
  -- up from parent to parent, over the length of the path
  intro p
  induction hn : p.length using Nat.strong_induction_on generalizing p with
  | _ n ih =>
    intro item hp hold a ha htop
    obtain ⟨-, hpath, hknown⟩ := hr.item p item hp
    obtain ⟨hne, ha⟩ := (above_iff hpath).mp ⟨ha, Nat.not_le.mp htop⟩
    obtain ⟨d, hd, hdir⟩ := hknown.resolve_left hne
    rcases ha with rfl | ⟨hb, hlen⟩
    · exact ⟨d, hd, hdir⟩
    · exact ih _ (hn ▸ length_parentOf hpath hne) (parentOf p) rfl d hd (hr.item _ d hd).1 a hb htop

end Reading

/-! ### The checks -/

section Checks

variable {letters : Letters} {limits : Limits} {context : Context} {archiveSize : Nat}
  {draft : Draft} {parents parents' : List Str} {seen seen' : Seen}

theorem checkParents_eq_ok {above : List Str}
    (h : checkParents draft above parents = .ok parents') :
    (∀ up ∈ above, ∀ item, draft.find up = some item → item.entry.directory = true) ∧
      ∀ p, p ∈ parents' ↔ p ∈ parents ∨ p ∈ above ∧ draft.find p = none := by
  induction above generalizing parents with
  | nil =>
    obtain rfl := Except.ok.inj h
    exact ⟨fun _ h => absurd h not_mem_nil, fun p => by simp⟩
  | cons up above ih =>
    rw [checkParents] at h
    split at h
    · rename_i item hitem
      simp only [bind_eq_ok, failIf_eq_ok] at h
      obtain ⟨_, hdir, h⟩ := h
      obtain ⟨h1, h2⟩ := ih h
      refine ⟨fun q hq other ho => ?_, fun p => ?_⟩
      · rcases mem_cons.mp hq with rfl | hq
        · rw [hitem] at ho
          obtain rfl := Option.some.inj ho
          simpa using hdir
        · exact h1 q hq other ho
      · rw [h2, mem_cons]
        refine or_congr_right (and_congr_left fun hn => ⟨.inr, fun hm => hm.resolve_left ?_⟩)
        rintro rfl
        rw [hitem] at hn
        cases hn
    · rename_i hnone
      obtain ⟨h1, h2⟩ := ih h
      refine ⟨fun q hq other ho => ?_, fun p => ?_⟩
      · rcases mem_cons.mp hq with rfl | hq
        · rw [hnone] at ho
          cases ho
        · exact h1 q hq other ho
      · rw [h2, mem_append, mem_singleton, mem_cons]
        constructor
        · rintro ((hm | rfl) | ⟨hm, hn⟩)
          · exact .inl hm
          · exact .inr ⟨.inl rfl, hnone⟩
          · exact .inr ⟨.inr hm, hn⟩
        · rintro (hm | ⟨rfl | hm, hn⟩)
          · exact .inl (.inl hm)
          · exact .inl (.inr rfl)
          · exact .inr ⟨hm, hn⟩

theorem checkEntry_eq_ok {e : Str × DraftEntry}
    (h : checkEntry letters limits context archiveSize draft seen e = .ok seen') :
    IsPath e.1 ∧ nativeName letters e.1 ∉ seen.names ∧
      seen'.names = nativeName letters e.1 :: seen.names ∧
      (∀ a item, Above a e.1 → draft.find a = some item → item.entry.directory = true) ∧
      ∀ p, p ∈ seen'.parents ↔ p ∈ seen.parents ∨ Above p e.1 ∧ draft.find p = none := by
  unfold checkEntry at h
  simp only [bind_eq_ok, failIf_eq_ok, pure_eq_ok] at h
  obtain ⟨path, hpath, _, hname, expanded, -, parents, hparents, rfl⟩ := h
  obtain ⟨rfl, hslash, -⟩ := safePath_eq_ok hpath
  obtain ⟨h1, h2⟩ := checkParents_eq_ok hparents
  refine ⟨hslash, hname, rfl, fun a item ha => h1 a ((mem_ups hslash (Nat.le_refl _)).mpr ha) item,
    fun p => ?_⟩
  rw [h2, mem_ups hslash (Nat.le_refl _)]

/-- What the loop over the draft has seen. -/
theorem checkEntries_eq_ok {es : List (Str × DraftEntry)}
    (h : es.foldlM (checkEntry letters limits context archiveSize draft) seen = .ok seen') :
    (∀ e ∈ es, IsPath e.1 ∧
      ∀ a item, Above a e.1 → draft.find a = some item → item.entry.directory = true) ∧
      (∀ e ∈ es, nativeName letters e.1 ∉ seen.names) ∧
      (es.Pairwise fun a b => nativeName letters a.1 ≠ nativeName letters b.1) ∧
      ∀ p, p ∈ seen'.parents ↔
        p ∈ seen.parents ∨ (∃ e ∈ es, Above p e.1) ∧ draft.find p = none := by
  induction es generalizing seen with
  | nil =>
    obtain rfl := Except.ok.inj h
    exact ⟨fun _ h => absurd h not_mem_nil, fun _ h => absurd h not_mem_nil, .nil,
      fun p => by simp⟩
  | cons e es ih =>
    rw [foldlM_cons, bind_eq_ok] at h
    obtain ⟨seen₁, h₁, h⟩ := h
    obtain ⟨hpath, hname, hnames, hdir, hparents⟩ := checkEntry_eq_ok h₁
    obtain ⟨g1, g2, g3, g4⟩ := ih h
    rw [hnames] at g2
    refine ⟨fun x hx => ?_, fun x hx => ?_, pairwise_cons.mpr ⟨fun x hx heq => ?_, g3⟩,
      fun p => ?_⟩
    · rcases mem_cons.mp hx with rfl | hx
      · exact ⟨hpath, hdir⟩
      · exact g1 x hx
    · rcases mem_cons.mp hx with rfl | hx
      · exact hname
      · exact fun hm => g2 x hx (mem_cons_of_mem _ hm)
    · exact g2 x hx (heq ▸ mem_cons_self)
    · rw [g4, hparents]
      simp only [exists_mem_cons_iff, or_and_right, or_assoc]

end Checks

/-! ### What comes and what goes -/

section Finish

variable {draft : Draft} {parents : List Str}

theorem find_addParents (p : Str) : (addParents parents draft).find p =
    if draft.find p = none ∧ p ∈ parents then some newDirectory else draft.find p := by
  unfold addParents
  induction parents generalizing draft with
  | nil => simp
  | cons q parents ih =>
    rw [foldl_cons, ih]
    by_cases hq : (draft.find q).isSome
    · rw [if_pos hq]
      refine if_congr ⟨fun ⟨h, hm⟩ => ⟨h, mem_cons_of_mem _ hm⟩, fun ⟨h, hm⟩ => ⟨h, ?_⟩⟩ rfl rfl
      refine (mem_cons.mp hm).resolve_left ?_
      rintro rfl
      rw [h] at hq
      cases hq
    · have hset : (if (draft.find q).isSome then draft else draft.set q newDirectory) =
          draft.set q newDirectory := if_neg hq
      have hq : draft.find q = none := by simpa using hq
      rw [hset, OrdMap.find_set]
      by_cases hp : p = q
      · subst hp
        simp [hq]
      · simp [hp]

theorem exists_beneath {path : Str} : (∃ q, draft.find q ≠ none ∧ Beneath slash path q) ↔
    ∃ e, draft.lowerBound (path ++ [slash]) = some e ∧ path ++ [slash] <+: e.1 := by
  rw [OrdMap.lowerBound_prefix]
  refine exists_congr fun q => ?_
  rw [exists_and_right, Option.ne_none_iff_exists']
  rfl

/-- A directory with something beneath it stays. -/
theorem dropEmpty_of {path : Str} (h : ∃ q, draft.find q ≠ none ∧ Beneath slash path q) :
    dropEmpty draft path = draft := by
  obtain ⟨e, he, hp⟩ := exists_beneath.mp h
  rw [dropEmpty, he]
  exact if_pos hp

theorem dropEmpty_of_not {path : Str} (h : ¬ ∃ q, draft.find q ≠ none ∧ Beneath slash path q) :
    dropEmpty draft path = draft.erase path := by
  rw [exists_beneath] at h
  cases hl : draft.lowerBound (path ++ [slash]) with
  | none => rw [dropEmpty, hl]
  | some e =>
    rw [dropEmpty, hl]
    exact if_neg fun hp => h ⟨e, hl, hp⟩

/-- The implicit parents of a draft. -/
def implicitPaths (draft : Draft) : List Str :=
  (draft.entries.filter fun e => isImplicit e.2).map Prod.fst

theorem mem_implicitPaths {p : Str} :
    p ∈ implicitPaths draft ↔ ∃ item, draft.find p = some item ∧ isImplicit item = true := by
  rw [implicitPaths, mem_map]
  constructor
  · rintro ⟨e, he, rfl⟩
    obtain ⟨hm, hi⟩ := mem_filter.mp he
    exact ⟨e.2, OrdMap.mem_entries.mp hm, hi⟩
  · rintro ⟨item, hp, hi⟩
    exact ⟨(p, item), mem_filter.mpr ⟨OrdMap.mem_entries.mpr hp, hi⟩, rfl⟩

open Classical in
/-- The loop goes through the implicit parents from the last one up; those after it have gone if
only implicit parents were beneath them. -/
theorem find_foldl_dropEmpty {todo gone : List Str}
    (hsplit : todo.reverse ++ gone = implicitPaths draft) {d : Draft}
    (hd : ∀ p, d.find p = if p ∈ gone ∧ ¬ Stays draft.find p then none else draft.find p)
    (p : Str) :
    (todo.foldl dropEmpty d).find p =
      if p ∈ implicitPaths draft ∧ ¬ Stays draft.find p then none else draft.find p := by
  induction todo generalizing gone d with
  | nil =>
    rw [← hsplit]
    exact hd p
  | cons e todo ih =>
    rw [foldl_cons]
    rw [reverse_cons, append_assoc, singleton_append] at hsplit
    refine ih hsplit fun q => ?_
    -- what lies beneath comes later in the order, so its turn was before
    have hlater : ∀ q, Beneath slash e q → q ∈ implicitPaths draft → q ∈ gone := by
      intro q hb hq
      have hsorted : (implicitPaths draft).Pairwise (· < ·) :=
        pairwise_map.mpr (draft.sorted.filter _)
      rw [← hsplit] at hq hsorted
      have hle : e ≤ q := OrdMap.le_of_isPrefix hb.isPrefix
      rcases mem_append.mp hq with hq | hq
      · exact absurd ((pairwise_append.mp hsorted).2.2 q hq e mem_cons_self) hle.not_gt
      · refine (mem_cons.mp hq).resolve_left ?_
        rintro rfl
        exact not_beneath_self slash _ hb
    obtain ⟨item, hitem, himp⟩ : ∃ item, draft.find e = some item ∧ isImplicit item = true :=
      mem_implicitPaths.mp (hsplit ▸ mem_append_right _ mem_cons_self)
    have hchild : (∃ q, d.find q ≠ none ∧ Beneath slash e q) ↔ Stays draft.find e := by
      constructor
      · rintro ⟨q, hne, hb⟩
        refine ⟨item, hitem, fun _ => ?_⟩
        rw [hd] at hne
        obtain ⟨other, hother⟩ : ∃ other, draft.find q = some other := by
          refine Option.ne_none_iff_exists'.mp fun hn => hne ?_
          rw [hn, ite_self]
        cases hi : isImplicit other with
        | false => exact ⟨q, other, hb, hother, hi⟩
        | true =>
          have hq := hlater q hb (mem_implicitPaths.mpr ⟨other, hother, hi⟩)
          have hstays : Stays draft.find q := by
            by_contra hn
            exact hne (if_pos ⟨hq, hn⟩)
          obtain ⟨o, ho, hbelow⟩ := hstays
          rw [hother] at ho
          obtain rfl := Option.some.inj ho
          obtain ⟨r, x, hr, hx, hxi⟩ := hbelow hi
          exact ⟨r, x, hb.trans hr, hx, hxi⟩
      · rintro ⟨o, ho, hbelow⟩
        rw [hitem] at ho
        obtain rfl := Option.some.inj ho
        obtain ⟨q, other, hb, hother, hi⟩ := hbelow himp
        refine ⟨q, ?_, hb⟩
        have hstays : Stays draft.find q := ⟨other, hother, fun h => by rw [hi] at h; cases h⟩
        rw [hd, if_neg fun h => h.2 hstays, hother]
        exact nofun
    by_cases hst : Stays draft.find e
    · rw [dropEmpty_of (hchild.mpr hst), hd q]
      refine if_congr ⟨fun ⟨hm, hn⟩ => ⟨mem_cons_of_mem _ hm, hn⟩, fun ⟨hm, hn⟩ => ⟨?_, hn⟩⟩ rfl
        rfl
      refine (mem_cons.mp hm).resolve_left ?_
      rintro rfl
      exact hn hst
    · rw [dropEmpty_of_not fun h => hst (hchild.mp h), OrdMap.find_erase, hd q]
      by_cases hq : q = e
      · subst hq
        rw [if_pos rfl, if_pos ⟨mem_cons_self, hst⟩]
      · rw [if_neg hq]
        simp only [mem_cons, hq, false_or]

open Classical in
/-- The draft without its implicit parents that have nothing but such beneath them. -/
theorem find_dropImplicit (p : Str) : (dropImplicit draft).find p =
    if (∃ item, draft.find p = some item ∧ isImplicit item = true) ∧ ¬ Stays draft.find p then none
    else draft.find p := by
  have hloop : (dropImplicit draft).find p =
      if p ∈ implicitPaths draft ∧ ¬ Stays draft.find p then none else draft.find p := by
    have hall : (implicitPaths draft).reverse.reverse ++ [] = implicitPaths draft := by
      rw [reverse_reverse, append_nil]
    refine find_foldl_dropEmpty hall ?_ p
    · intro q
      rw [if_neg fun h => absurd h.1 not_mem_nil]
  rw [hloop]
  exact if_congr (and_congr_left' mem_implicitPaths) rfl rfl

end Finish

/-! ### The draft -/

section Plan

variable {letters : Letters} {limits : Limits} {context : Context} {reader : Reader}
  {root : Locator} {archiveSize n : Nat} {draft final : Draft} {changes : List Change} {t : Entries}
  {a p : Str}

/-- What the checks of `plan` say of the tree after the changes. -/
structure Checked (letters : Letters) (t : Entries) : Prop where
  rooted : Rooted t
  path : ∀ p, t p ≠ none → IsPath p
  directory : ∀ p a item, t p ≠ none → Above a p → t a = some item → item.entry.directory = true
  distinct : ∀ p q, t p ≠ none → t q ≠ none → nativeName letters p = nativeName letters q → p = q

/-- An entry above which a parent is missing is no implicit one. -/
theorem Checked.not_implicit (h : Checked letters t) (ha : t a = none) (hb : Above a p)
    {item : DraftEntry} (hp : t p = some item) : isImplicit item = false := by
  by_contra himp
  have hold : item.changed = false := by
    have himp : isImplicit item = true := by simpa using himp
    unfold isImplicit at himp
    simp only [Bool.and_eq_true, Bool.not_eq_true'] at himp
    exact himp.1.2
  obtain ⟨d, hd, -⟩ := h.rooted p item hp hold a hb.1 (Nat.not_le.mpr hb.2)
  rw [ha] at hd
  cases hd

/-- Above what is there, something is there that was before or is new, and it is a directory. -/
theorem Checked.result_above (h : Checked letters t) (hp : result t p ≠ none) (hab : Above a p) :
    ∃ item, result t a = some item ∧ item.entry.directory = true := by
  -- an entry of the tree inside `p` that is no implicit one
  obtain ⟨r, item, hr, hitem, himp⟩ : ∃ r item, Inside slash p r ∧ t r = some item ∧
      isImplicit item = false := by
    rw [result] at hp
    split at hp
    · rename_i hstays
      obtain ⟨item, hitem, hbelow⟩ := hstays
      cases hi : isImplicit item with
      | false => exact ⟨p, item, .inl rfl, hitem, hi⟩
      | true =>
        obtain ⟨q, other, hb, hother, ho⟩ := hbelow hi
        exact ⟨q, other, .inr hb, hother, ho⟩
    · split at hp
      · rename_i hmissing
        obtain ⟨hnone, r, hr, hpr⟩ := hmissing
        obtain ⟨item, hitem⟩ := Option.ne_none_iff_exists'.mp hr
        exact ⟨r, item, .inr hpr.1, hitem, h.not_implicit hnone hpr hitem⟩
      · exact absurd rfl hp
  have har : Above a r := ⟨hab.1.trans_inside hr, hab.2⟩
  have hne : t r ≠ none := by rw [hitem]; exact nofun
  rcases hta : t a with _ | d
  · have hmissing : Missing t a := ⟨hta, r, hne, har⟩
    have hstays : ¬ Stays t a := by
      rintro ⟨d, hd, -⟩
      rw [hta] at hd
      cases hd
    exact ⟨newDirectory, by rw [result, if_neg hstays, if_pos hmissing], rfl⟩
  · have hstays : Stays t a := ⟨d, hta, fun _ => ⟨r, item, har.1, hitem, himp⟩⟩
    exact ⟨d, by rw [result, if_pos hstays, hta], h.directory r a d hne har hta⟩

theorem result_ne_none : result t p ≠ none ↔ Missing t p ∨ Stays t p := by
  rw [result]
  by_cases hs : Stays t p
  · obtain ⟨item, hitem, -⟩ := id hs
    rw [if_pos hs, hitem]
    exact ⟨fun _ => .inr hs, fun _ => nofun⟩
  · rw [if_neg hs]
    by_cases hm : Missing t p
    · rw [if_pos hm]
      exact ⟨fun _ => .inl hm, fun _ => nofun⟩
    · rw [if_neg hm]
      exact ⟨fun h => absurd rfl h, fun h => (h.elim hm hs).elim⟩

/-- The tree can be staged if no missing parent is spelled like another path. -/
theorem Checked.materialisable (h : Checked letters t) :
    Materialisable (nativeName letters) (result t) ↔ ∀ a b, Missing t a → Missing t b ∨ Stays t b →
      nativeName letters a = nativeName letters b → a = b := by
  constructor
  · intro hm a b ha hb
    exact hm.distinct a b (result_ne_none.mpr (.inl ha)) (result_ne_none.mpr hb)
  · intro hc
    have hdistinct : ∀ p q, result t p ≠ none → result t q ≠ none →
        nativeName letters p = nativeName letters q → p = q := by
      intro p q hp hq heq
      rcases result_ne_none.mp hp with hp' | ⟨x, hx, -⟩
      · exact hc p q hp' (result_ne_none.mp hq) heq
      · rcases result_ne_none.mp hq with hq' | ⟨y, hy, -⟩
        · exact (hc q p hq' (result_ne_none.mp hp) heq.symm).symm
        · exact h.distinct p q (by rw [hx]; exact nofun) (by rw [hy]; exact nofun) heq
    refine ⟨hdistinct, fun f item p a hf hfile hp hab heq => ?_, fun p hp => ?_⟩
    · obtain ⟨d, hd, hdir⟩ := h.result_above hp hab
      obtain rfl := hdistinct a f (by rw [hd]; exact nofun) (by rw [hf]; exact nofun) heq
      rw [hd] at hf
      obtain rfl := Option.some.inj hf
      rw [hfile] at hdir
      cases hdir
    · have hpath : IsPath p := by
        rcases result_ne_none.mp hp with ⟨-, r, hr, hpr⟩ | ⟨x, hx, -⟩
        · exact (h.path r hr).of_isPrefix hpr.1.isPrefix (ne_nil_of_length_pos (by
            have := hpr.2
            omega))
        · exact h.path p (by rw [hx]; exact nofun)
      by_cases hup : parentOf p = [slash]
      · exact .inl hup
      · exact .inr (h.result_above hp ((above_iff hpath).mpr ⟨hup, .inl rfl⟩))

/-- A plan that is accepted gives the tree after the changes, with the parents it misses and
without its emptied implicit parents. -/
theorem plan_tree (hr : Rooted draft.find)
    (h : plan letters limits context archiveSize draft changes = .ok final) :
    Checked letters (applied draft.find changes) ∧
      final.find = result (applied draft.find changes) := by
  unfold plan at h
  simp only [bind_eq_ok, failIf_eq_ok, pure_eq_ok] at h
  obtain ⟨_, -, d, hd, seen, hseen, _, -, rfl⟩ := h
  obtain ⟨htree, hrooted⟩ := applyChanges_tree hd
  obtain ⟨hall, -, hdistinct, hparents⟩ := checkEntries_eq_ok hseen
  rw [← htree]
  have hentry : ∀ p, d.find p ≠ none → ∃ e ∈ d.entries, e.1 = p := by
    intro p hp
    obtain ⟨item, hitem⟩ := Option.ne_none_iff_exists'.mp hp
    exact ⟨(p, item), OrdMap.mem_entries.mpr hitem, rfl⟩
  have hc : Checked letters d.find := by
    refine ⟨hrooted hr, fun p hp => ?_, fun p a item hp hab => ?_, fun p q hp hq heq => ?_⟩
    · obtain ⟨e, he, rfl⟩ := hentry p hp
      exact (hall e he).1
    · obtain ⟨e, he, rfl⟩ := hentry p hp
      exact (hall e he).2 a item hab
    · obtain ⟨e, he, rfl⟩ := hentry p hp
      obtain ⟨e', he', rfl⟩ := hentry q hq
      by_contra hne
      have : Std.Symm fun a b : Str × DraftEntry =>
          nativeName letters a.1 ≠ nativeName letters b.1 := ⟨fun _ _ h => Ne.symm h⟩
      exact hdistinct.forall he he' (fun h => hne (congrArg Prod.fst h)) heq
  refine ⟨hc, funext fun p => ?_⟩
  have hmissing : d.find p = none ∧ p ∈ seen.parents ↔ Missing d.find p := by
    rw [hparents]
    refine and_congr_right fun hnone => ⟨fun hm => ?_, fun hm => .inr ⟨?_, hnone⟩⟩
    · obtain ⟨⟨e, he, hab⟩, -⟩ := hm.resolve_left not_mem_nil
      exact ⟨e.1, by rw [OrdMap.mem_entries.mp he]; exact Option.some_ne_none _, hab⟩
    · obtain ⟨r, hr, hab⟩ := hm
      obtain ⟨e, he, rfl⟩ := hentry r hr
      exact ⟨e, he, hab⟩
  have hadd : ∀ q, (addParents seen.parents d).find q ≠ none → d.find q = none →
      ∃ r item, d.find r = some item ∧ Above q r ∧ isImplicit item = false := by
    intro q hne hnone
    rw [find_addParents] at hne
    split at hne
    · rename_i hq
      obtain ⟨⟨e, he, hab⟩, -⟩ := ((hparents q).mp hq.2).resolve_left not_mem_nil
      have hitem := OrdMap.mem_entries.mp he
      exact ⟨e.1, e.2, hitem, hab, hc.not_implicit hnone hab hitem⟩
    · exact absurd hnone hne
  have hkeep : ∀ q item, d.find q = some item →
      (addParents seen.parents d).find q = some item := by
    intro q item hq
    rw [find_addParents, hq, if_neg fun hn => by cases hn.1]
  rw [find_dropImplicit]
  rcases hp : d.find p with _ | item
  · have hstays : ¬ Stays d.find p := by
      rintro ⟨x, hx, -⟩
      rw [hp] at hx
      cases hx
    rw [result, if_neg hstays]
    by_cases hm : Missing d.find p
    · have hnew : (addParents seen.parents d).find p = some newDirectory := by
        rw [find_addParents, if_pos (hmissing.mpr hm)]
      rw [hnew, if_pos hm, if_neg]
      rintro ⟨⟨x, hx, hi⟩, -⟩
      obtain rfl := Option.some.inj hx
      cases hi
    · have hnew : (addParents seen.parents d).find p = none := by
        rw [find_addParents, if_neg fun h => hm (hmissing.mp h), hp]
      rw [hnew, if_neg hm, ite_self]
  · have hstays : Stays (addParents seen.parents d).find p ↔ Stays d.find p := by
      constructor
      · rintro ⟨x, hx, hbelow⟩
        rw [hkeep p item hp] at hx
        obtain rfl := Option.some.inj hx
        refine ⟨item, hp, fun hi => ?_⟩
        obtain ⟨q, other, hb, hother, ho⟩ := hbelow hi
        rcases hq : d.find q with _ | old
        · obtain ⟨r, x, hr, hab, hx⟩ := hadd q (by rw [hother]; exact Option.some_ne_none _) hq
          exact ⟨r, x, hb.trans hab.1, hr, hx⟩
        · rw [hkeep q old hq] at hother
          obtain rfl := Option.some.inj hother
          exact ⟨q, old, hb, hq, ho⟩
      · rintro ⟨x, hx, hbelow⟩
        refine ⟨x, hkeep p x hx, fun hi => ?_⟩
        obtain ⟨q, other, hb, hother, ho⟩ := hbelow hi
        exact ⟨q, other, hb, hkeep q other hother, ho⟩
    rw [hstays, hkeep p item hp, result, hp]
    by_cases hs : Stays d.find p
    · rw [if_pos hs, if_neg fun h => h.2 hs]
    · have himp : isImplicit item = true := by
        by_contra hi
        exact hs ⟨item, hp, fun h => absurd h hi⟩
      rw [if_neg hs, if_pos ⟨⟨item, rfl, himp⟩, hs⟩, if_neg fun h => ?_]
      rw [h.1] at hp
      cases hp

/-- The draft of an accepted plan is the archive with the changes applied in order, and it can be
staged without case exactly when no missing parent is spelled like another path of it. -/
theorem plan_materialisable (hroot : checkRequest limits reader root = .ok ())
    (hs : snapshot letters limits reader root n = .ok draft)
    (hp : plan letters limits context archiveSize draft changes = .ok final) :
    let t := applied draft.find changes
    final.find = result t ∧
      (Materialisable (nativeName letters) final.find ↔
        ∀ a b, Missing t a → Missing t b ∨ Stays t b →
          nativeName letters a = nativeName letters b → a = b) := by
  have hlast : lastEntry root = [slash] := by
    by_contra hne
    refine (failIf_eq_ok.mp hroot) ?_
    exact .inr (.inr (.inr (.inr (.inr (.inl hne)))))
  obtain ⟨hc, htree⟩ := plan_tree (snapshot_rooted hlast hs) hp
  exact ⟨htree, htree ▸ hc.materialisable⟩

end Plan

/-! ### An empty archive -/

/-- Letters as far as ASCII goes. -/
def asciiLetters : Letters where
  toUpper := List.map fun c => if 97 ≤ c ∧ c ≤ 122 then c - 32 else c
  toCaseFolded := List.map fun c => if 65 ≤ c ∧ c ≤ 90 then c + 32 else c

def emptyReader : Reader where
  id := ascii "wcx"
  enumerate _ := .ok [.ok ⟨[], true⟩]

def emptyRoot : Locator :=
  { kind := .archive, root := ascii "a.zip", nesting := [⟨ascii "wcx", [slash]⟩] }

/-- A new file. -/
def putFile (path : String) : Change := { path := ascii path, content := some (.given 0 {}) }

theorem plan_materialisable_sample :
    ∃ final, plan asciiLetters {} {} 0 .empty [putFile "/Dir/a", putFile "/Dir/b"] = .ok final ∧
      final.find = result (applied OrdMap.empty.find [putFile "/Dir/a", putFile "/Dir/b"]) := by
  have hok : (plan asciiLetters {} {} 0 .empty
      [putFile "/Dir/a", putFile "/Dir/b"]).isOk = true := by decide +kernel
  cases hp : plan asciiLetters {} {} 0 .empty [putFile "/Dir/a", putFile "/Dir/b"] with
  | error e =>
    rw [hp] at hok
    cases hok
  | ok final =>
    exact ⟨final, rfl, (@plan_materialisable asciiLetters {} {} emptyReader emptyRoot 0 1 _ _ _
      (by decide +kernel) rfl hp).1⟩

/-- Two files whose directories are not in the archive and differ in case only: both directories
are added. -/
theorem parents_merge :
    checkRequest {} emptyReader emptyRoot = .ok () ∧
      snapshot asciiLetters {} emptyReader emptyRoot 1 = .ok .empty ∧
      ∃ final, plan asciiLetters {} {} 0 .empty [putFile "/Dir/a", putFile "/dir/b"] = .ok final ∧
        ¬ Materialisable (nativeName asciiLetters) final.find := by
  refine ⟨by decide +kernel, rfl, ?_⟩
  have hkeys : (plan asciiLetters {} {} 0 .empty [putFile "/Dir/a", putFile "/dir/b"]).toOption.map
      (fun d => d.entries.map Prod.fst) =
        some (["/Dir", "/Dir/a", "/dir", "/dir/b"].map ascii) := by decide +kernel
  cases hp : plan asciiLetters {} {} 0 .empty [putFile "/Dir/a", putFile "/dir/b"] with
  | error e =>
    rw [hp] at hkeys
    cases hkeys
  | ok final =>
    rw [hp] at hkeys
    have hkeys : final.entries.map Prod.fst = ["/Dir", "/Dir/a", "/dir", "/dir/b"].map ascii :=
      Option.some.inj hkeys
    have hfind : ∀ p ∈ ["/Dir", "/Dir/a", "/dir", "/dir/b"].map ascii, final.find p ≠ none := by
      intro p hm
      rw [← hkeys] at hm
      obtain ⟨e, he, rfl⟩ := mem_map.mp hm
      rw [OrdMap.mem_entries.mp he]
      exact nofun
    refine ⟨final, rfl, fun hm => ?_⟩
    have heq := hm.distinct (ascii "/Dir") (ascii "/dir") (hfind _ (by decide))
      (hfind _ (by decide)) (by decide +kernel)
    exact absurd heq (by decide)

end Hc.Archive
