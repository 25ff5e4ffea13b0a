import HyperCommander.AutoUpdate.Transaction
import HyperCommander.AutoUpdate.JournalLemmas

/-!
# Journals of a transaction

- **Preparation** (`prepare_spec`, `valid_prepare`): the journal that `ApplyTransaction` prepares
  lists the names of the release, each once, with fitting hashes and sizes; it is valid if and only
  if no two of them differ only in case.
- **Promotion** (`valid_place`): copies that are put into a valid journal leave it valid.
-/

open List Outcome

namespace Hc.Update

variable {sys : System}

/-! ## Inventories -/

/-- The names are apart without regard to case, as `Load` folds them. -/
def FoldsApart (sys : System) (names : List Text) : Prop :=
  ∀ a ∈ names, ∀ b ∈ names, folded sys a = folded sys b → a = b

/-- The carried root files that the transaction adds. -/
def carriedNames (r : Release sys) : List Text :=
  carriedRootFiles.filter fun name =>
    rootCarrier ++ slash :: name ∈ r.next.files.map ProductFile.path &&
      (name ∈ r.old.files.map ProductFile.path || (r.root name).isNone || r.signed name)

/-- The names of both releases. -/
def releaseNames (r : Release sys) : List Text :=
  r.old.files.map ProductFile.path ++ r.next.files.map ProductFile.path ++ carriedNames r ++
    [inventoryName]

/-- What the journal asks of a file of an inventory. -/
structure FileOk (name : Text) (file : ProductFile) : Prop where
  name : checkProductRelative name = .ok ()
  hash : validHash file.hash = true

variable {files : List ProductFile} {r : Release sys} {i : Nat} {hash : Text}

theorem fileOk_of_checkFiles {seen : List Unicode.Units} {n m : Nat}
    (h : checkFiles sys files seen n = .ok m) : ∀ f ∈ files, FileOk f.path f := by
  induction files generalizing seen n with
  | nil => simp
  | cons file files ih =>
    simp only [checkFiles, bind_eq_ok, require_eq_ok] at h
    obtain ⟨_, hpath, name, -, _, ⟨-, -, hhash, -⟩, h⟩ := h
    intro f hf
    rcases mem_cons.1 hf with rfl | hf
    · exact ⟨hpath, hhash⟩
    · exact ih h f hf

theorem Inventory.fileOk (i : Inventory sys) : ∀ f ∈ i.files, FileOk f.path f :=
  fileOk_of_checkFiles i.checked

theorem checkProductRelative_inventoryName : checkProductRelative inventoryName = .ok () := by
  decide +kernel

theorem checkProductRelative_carried :
    ∀ name ∈ carriedRootFiles, checkProductRelative name = .ok () := by decide +kernel

theorem slash_notMem_carried : ∀ name ∈ carriedRootFiles, slash ∉ name := by decide +kernel

/-! ## Maps of files -/

variable {m : OrdMap Text ProductFile} {maps : OrdMap Text ProductFile × OrdMap Text ProductFile}
  {name l : Text} {file f : ProductFile}

/-- Every file of the map is one that the journal takes. -/
def Good (m : OrdMap Text ProductFile) : Prop := ∀ n f, m.find n = some f → FileOk n f

theorem find_emplace : (emplace m name file).find l =
    if l = name ∧ m.find name = none then some file else m.find l := by
  unfold emplace
  cases h : m.find name with
  | some old => simp
  | none => simp [OrdMap.find_set]

@[simp] theorem isSome_emplace :
    ((emplace m name file).find l).isSome ↔ (m.find l).isSome ∨ l = name := by
  rw [find_emplace]
  by_cases hl : l = name
  · subst hl
    cases h : m.find l <;> simp
  · simp [hl]

theorem Good.emplace (h : Good m) (hf : FileOk name file) : Good (emplace m name file) := by
  intro n g hg
  rw [find_emplace] at hg
  split at hg
  · next hc =>
    obtain ⟨rfl, -⟩ := hc
    obtain rfl := Option.some.inj hg
    exact hf
  · exact h n g hg

theorem isSome_filesOf {inventory : ProductFile} :
    ((filesOf files inventory).find l).isSome ↔
      l ∈ files.map ProductFile.path ∨ l = inventory.path := by
  have hfold : ∀ (fs : List ProductFile) (m : OrdMap Text ProductFile),
      ((fs.foldl (fun m file => emplace m file.path file) m).find l).isSome ↔
        (m.find l).isSome ∨ l ∈ fs.map ProductFile.path := by
    intro fs
    induction fs with
    | nil => simp
    | cons f fs ih =>
      intro m
      rw [foldl_cons, ih, isSome_emplace, map_cons, mem_cons, or_assoc]
  rw [filesOf, isSome_emplace, hfold]
  simp

theorem good_filesOf {inventory : ProductFile}
    (h : ∀ f ∈ files, FileOk f.path f) (hi : FileOk inventory.path inventory) :
    Good (filesOf files inventory) := by
  have hfold : ∀ (fs : List ProductFile) (m : OrdMap Text ProductFile), Good m →
      (∀ f ∈ fs, FileOk f.path f) →
      Good (fs.foldl (fun m file => emplace m file.path file) m) := by
    intro fs
    induction fs with
    | nil => exact fun m hm _ => hm
    | cons f fs ih =>
      intro m hm hfs
      exact ih _ (hm.emplace (hfs f mem_cons_self))
        fun g hg => hfs g (mem_cons_of_mem _ hg)
  refine (hfold files _ ?_ h).emplace hi
  intro n f hf
  simp at hf

/-! ## Carried root files -/

/-- A name of either map. -/
def Named (maps : OrdMap Text ProductFile × OrdMap Text ProductFile) (l : Text) : Prop :=
  (maps.1.find l).isSome ∨ (maps.2.find l).isSome

/-- A root file that a transaction with these maps adds. -/
def Carries (r : Release sys) (maps : OrdMap Text ProductFile × OrdMap Text ProductFile)
    (l : Text) : Prop :=
  (maps.2.find (rootCarrier ++ slash :: l)).isSome ∧
    ((maps.1.find l).isSome ∨ (r.root l).isNone ∨ r.signed l = true)

theorem named_addCarried (r : Release sys) :
    Named (addCarried sys r maps name) l ↔ Named maps l ∨ l = name ∧ Carries r maps l := by
  unfold addCarried Named Carries
  cases hc : maps.2.find (rootCarrier ++ slash :: name) with
  | none =>
    constructor
    · exact Or.inl
    · rintro (h | ⟨rfl, h, -⟩)
      · exact h
      · simp [hc] at h
  | some carried =>
    cases ho : maps.1.find name with
    | some old => grind [isSome_emplace]
    | none =>
      cases hroot : r.root name with
      | none => grind [isSome_emplace]
      | some content =>
        cases hs : r.signed name <;> grind [isSome_emplace]

theorem carries_addCarried (r : Release sys) (hn : slash ∉ name) :
    Carries r (addCarried sys r maps name) l ↔ Carries r maps l := by
  have hne : rootCarrier ++ slash :: l ≠ name := by
    rintro rfl
    simp at hn
  unfold addCarried Carries
  cases hc : maps.2.find (rootCarrier ++ slash :: name) with
  | none => rfl
  | some carried =>
    cases ho : maps.1.find name with
    | some old => simp [hne]
    | none =>
      cases hroot : r.root name with
      | none => simp [hne]
      | some content =>
        cases hs : r.signed name with
        | false => simp
        | true =>
          simp only [if_true, isSome_emplace, hne, or_false]
          refine and_congr_right fun _ => ?_
          constructor
          · rintro ((h | rfl) | h | h)
            · exact .inl h
            · exact .inr (.inr hs)
            · exact .inr (.inl h)
            · exact .inr (.inr h)
          · rintro (h | h | h)
            · exact .inl (.inl h)
            · exact .inr (.inl h)
            · exact .inr (.inr h)

theorem named_foldl_addCarried (r : Release sys) {ns : List Text} (hns : ∀ n ∈ ns, slash ∉ n) :
    Named (ns.foldl (addCarried sys r) maps) l ↔ Named maps l ∨ l ∈ ns ∧ Carries r maps l := by
  induction ns generalizing maps with
  | nil => simp
  | cons n ns ih =>
    rw [foldl_cons, ih fun n h => hns n (mem_cons_of_mem _ h),
      carries_addCarried r (hns n mem_cons_self), named_addCarried, mem_cons]
    tauto

theorem good_addCarried (r : Release sys) (hname : checkProductRelative name = .ok ())
    (h1 : Good maps.1) (h2 : Good maps.2) :
    Good (addCarried sys r maps name).1 ∧ Good (addCarried sys r maps name).2 := by
  unfold addCarried
  cases hc : maps.2.find (rootCarrier ++ slash :: name) with
  | none => exact ⟨h1, h2⟩
  | some carried =>
    have h2' : Good (emplace maps.2 name ⟨name, carried.hash, carried.size⟩) :=
      h2.emplace ⟨hname, (h2 _ _ hc).hash⟩
    cases ho : maps.1.find name with
    | some old => exact ⟨h1, h2'⟩
    | none =>
      cases hroot : r.root name with
      | none => exact ⟨h1, h2'⟩
      | some content =>
        cases hs : r.signed name with
        | false => exact ⟨h1, h2⟩
        | true => exact ⟨h1.emplace ⟨hname, sys.hash_valid _⟩, h2'⟩

theorem good_foldl_addCarried (r : Release sys) {ns : List Text}
    (hns : ∀ n ∈ ns, checkProductRelative n = .ok ()) (h : Good maps.1 ∧ Good maps.2) :
    Good (ns.foldl (addCarried sys r) maps).1 ∧ Good (ns.foldl (addCarried sys r) maps).2 := by
  induction ns generalizing maps with
  | nil => exact h
  | cons n ns ih =>
    exact ih (fun n h => hns n (mem_cons_of_mem _ h))
      (good_addCarried r (hns n mem_cons_self) h.1 h.2)

theorem good_mapsOf (r : Release sys) : Good (mapsOf sys r).1 ∧ Good (mapsOf sys r).2 := by
  refine good_foldl_addCarried r checkProductRelative_carried ⟨?_, ?_⟩
  · exact good_filesOf r.old.fileOk ⟨checkProductRelative_inventoryName, sys.hash_valid _⟩
  · exact good_filesOf r.next.fileOk ⟨checkProductRelative_inventoryName, r.inventoryHash_valid⟩

theorem named_mapsOf (r : Release sys) : Named (mapsOf sys r) l ↔ l ∈ releaseNames r := by
  have hcarrier : rootCarrier ++ slash :: l ≠ inventoryName := by
    intro h
    have hs : slash ∉ inventoryName := by decide +kernel
    rw [← h] at hs
    simp at hs
  unfold mapsOf
  rw [named_foldl_addCarried r slash_notMem_carried]
  simp only [Named, Carries, isSome_filesOf, releaseNames, carriedNames, mem_append,
    mem_filter, mem_singleton, hcarrier, or_false, Bool.and_eq_true, Bool.or_eq_true,
    decide_eq_true_eq]
  tauto

/-! ## Preparation -/

theorem mem_orderedNames : l ∈ orderedNames maps.1 maps.2 ↔ Named maps l ∨ l = inventoryName := by
  have hfold : ∀ (es : List (Text × ProductFile)) (names : OrdMap Text Unit),
      ((es.foldl (fun m e => m.set e.1 ()) names).find l).isSome ↔
        (names.find l).isSome ∨ l ∈ es.map Prod.fst := by
    intro es
    induction es with
    | nil => simp
    | cons e es ih =>
      intro names
      rw [foldl_cons, ih, OrdMap.find_set, map_cons, mem_cons]
      by_cases hl : l = e.1 <;> simp [hl]
  have hkeys : ∀ {ν : Type} (m : OrdMap Text ν), l ∈ m.entries.map Prod.fst ↔
      (m.find l).isSome := by
    intro ν m
    rw [mem_map, Option.isSome_iff_exists]
    constructor
    · rintro ⟨⟨_, v⟩, hm, rfl⟩
      exact ⟨v, OrdMap.mem_entries.1 hm⟩
    · rintro ⟨v, hv⟩
      exact ⟨(l, v), OrdMap.mem_entries.2 hv, rfl⟩
  rw [orderedNames, mem_append, mem_singleton, hkeys, OrdMap.find_erase, Named,
    ← hkeys maps.1, ← hkeys maps.2]
  by_cases hl : l = inventoryName
  · simp [hl]
  · rw [if_neg hl, hfold, OrdMap.find_empty, map_append, mem_append]
    simp [hl]

theorem nodup_orderedNames {originals replacements : OrdMap Text ProductFile} :
    (orderedNames originals replacements).Nodup := by
  unfold orderedNames
  generalize foldl _ _ _ = names
  refine nodup_append.2 ⟨?_, nodup_singleton _, ?_⟩
  · exact pairwise_map.2 ((names.erase inventoryName).sorted.imp fun h => ne_of_lt h)
  · intro a ha b hb
    obtain rfl := mem_singleton.1 hb
    obtain ⟨e, he, rfl⟩ := mem_map.1 ha
    intro heq
    have hfind := OrdMap.mem_entries.1 he
    rw [OrdMap.find_erase, if_pos heq] at hfind
    cases hfind

theorem entryFor_spec {e : Entry} (h1 : Good maps.1) (h2 : Good maps.2)
    (hn : checkProductRelative name = .ok ()) (h : entryFor sys r maps.1 maps.2 name = .ok e) :
    e.name = name ∧ EntryOk e := by
  unfold entryFor at h
  cases hroot : r.root name with
  | none =>
    rw [hroot] at h
    obtain rfl := Except.ok.inj h
    refine ⟨rfl, hn, Nat.zero_le _, rfl, ?_⟩
    cases hr : maps.2.find name with
    | none => exact .inl rfl
    | some file => exact .inr (h2 _ _ hr).hash
  | some content =>
    rw [hroot] at h
    cases ho : maps.1.find name with
    | none => simp [ho] at h
    | some file =>
      simp only [ho, bind_eq_ok, require_eq_ok] at h
      obtain ⟨_, ⟨hsize, hmax⟩, _, -, h⟩ := h
      obtain rfl := Except.ok.inj h
      refine ⟨rfl, hn, by rw [← hsize]; exact hmax, (h1 _ _ ho).hash, ?_⟩
      cases hr : maps.2.find name with
      | none => exact .inl rfl
      | some file => exact .inr (h2 _ _ hr).hash

theorem entriesFor_spec {names : List Text} {es : List Entry} (h1 : Good maps.1)
    (h2 : Good maps.2) (hn : ∀ n ∈ names, checkProductRelative n = .ok ())
    (h : entriesFor sys r maps.1 maps.2 names = .ok es) :
    es.map Entry.name = names ∧ ∀ e ∈ es, EntryOk e := by
  induction names generalizing es with
  | nil =>
    obtain rfl := Except.ok.inj h
    simp
  | cons n names ih =>
    simp only [entriesFor, bind_eq_ok, pure_eq_ok] at h
    obtain ⟨e, he, rest, hrest, rfl⟩ := h
    obtain ⟨hname, hok⟩ := entryFor_spec h1 h2 (hn n mem_cons_self) he
    obtain ⟨hnames, hall⟩ := ih (fun n h => hn n (mem_cons_of_mem _ h)) hrest
    exact ⟨by rw [map_cons, hname, hnames], forall_mem_cons.2 ⟨hok, hall⟩⟩

/-- What `ApplyTransaction` puts into the journal. -/
theorem prepare_spec {j : Journal} (h : prepare sys r = .ok j) :
    j.files.map Entry.name = orderedNames (mapsOf sys r).1 (mapsOf sys r).2 ∧
      j.files.length ≤ 4096 ∧ (∀ e ∈ j.files, EntryOk e) ∧ j.promoted = [] := by
  obtain ⟨h1, h2⟩ := good_mapsOf r
  have hn : ∀ n ∈ orderedNames (mapsOf sys r).1 (mapsOf sys r).2,
      checkProductRelative n = .ok () := by
    intro n hn
    rcases mem_orderedNames.1 hn with (hs | hs) | rfl
    · obtain ⟨f, hf⟩ := Option.isSome_iff_exists.1 hs
      exact (h1 n f hf).name
    · obtain ⟨f, hf⟩ := Option.isSome_iff_exists.1 hs
      exact (h2 n f hf).name
    · exact checkProductRelative_inventoryName
  simp only [prepare, bind_eq_ok, require_eq_ok, pure_eq_ok] at h
  obtain ⟨_, hcount, es, hes, rfl⟩ := h
  obtain ⟨hnames, hok⟩ := entriesFor_spec h1 h2 hn hes
  refine ⟨hnames, ?_, hok, rfl⟩
  rw [← hnames, length_map] at hcount
  exact hcount

/-- The journal is one that `Load` accepts if and only if no two names of the release differ only
in case. -/
theorem valid_prepare {j : Journal} (h : prepare sys r = .ok j) :
    Valid sys j ↔ FoldsApart sys (releaseNames r) := by
  obtain ⟨hnames, hcount, hok, hpromoted⟩ := prepare_spec h
  have hmem : ∀ l, l ∈ namesOf j ↔ l ∈ releaseNames r := by
    intro l
    rw [namesOf, hnames, hpromoted, map_nil, append_nil, mem_orderedNames, named_mapsOf]
    refine or_iff_left_of_imp ?_
    rintro rfl
    exact mem_append_right _ (mem_singleton_self _)
  have hnodup : (namesOf j).Nodup := by
    rw [namesOf, hnames, hpromoted, map_nil, append_nil]
    exact nodup_orderedNames
  constructor
  · intro hv a ha b hb hab
    by_contra hne
    have : Std.Symm fun a b => folded sys a ≠ folded sys b := ⟨fun _ _ h => h.symm⟩
    exact hv.distinct.forall ((hmem a).2 ha) ((hmem b).2 hb) hne hab
  · intro hapart
    refine ⟨hcount, ?_, hok, by simp [hpromoted], by simp [hpromoted], ?_⟩
    · rw [← getLast?_map, hnames, orderedNames, getLast?_concat]
    · refine hnodup.imp_of_mem fun ha hb hne hab => hne ?_
      exact hapart _ ((hmem _).1 ha) _ ((hmem _).1 hb) hab

/-! ## Promotion -/

variable {j j' : Journal} {copy : RootCopy} {copies : List RootCopy} {changed : Bool}

/-- The copies are of root files of the product, and of those with the same name in folded case,
here or in the journal, the comparison without regard to case says so. -/
structure Promotes (sys : System) (j : Journal) (copies : List RootCopy) : Prop where
  copy : ∀ c ∈ copies, CopyOk c
  count : j.promoted.length + copies.length ≤ 64
  same : ∀ n ∈ namesOf j ++ copies.map RootCopy.name, ∀ c ∈ copies,
    folded sys n = folded sys c.name → sameName sys n c.name = true

/-- An entry with another replacement. -/
def replaced (j : Journal) (i : Nat) (hash : Text) : Journal :=
  { j with files := j.files.modify i fun e => { e with replacement := hash } }

/-- The copy in place of those of its name. -/
def recorded (sys : System) (j : Journal) (copy : RootCopy) : Journal :=
  { j with promoted := (j.promoted.filter fun c => ! sameName sys c.name copy.name) ++ [copy] }

/-- What one copy does to the journal. -/
theorem placeCopy_cases (h : placeCopy sys j copy = .ok (j', changed)) :
    (j' = j ∧ changed = false) ∨ (∃ i, j' = replaced j i copy.hash) ∨
      (j.files.findIdx? (fun e => sameName sys e.name copy.name) = none ∧
        j' = recorded sys j copy) := by
  simp only [placeCopy, bind_eq_ok] at h
  obtain ⟨_, -, h⟩ := h
  cases hi : j.files.findIdx? fun e => sameName sys e.name copy.name with
  | some i =>
    simp only [hi] at h
    split at h
    · obtain ⟨rfl, rfl⟩ := Prod.mk.inj (Except.ok.inj h)
      exact .inl ⟨rfl, rfl⟩
    · simp only [bind_eq_ok] at h
      obtain ⟨_, -, h⟩ := h
      obtain ⟨rfl, -⟩ := Prod.mk.inj (Except.ok.inj h)
      exact .inr (.inl ⟨i, rfl⟩)
  | none =>
    simp only [hi] at h
    split at h
    · obtain ⟨rfl, rfl⟩ := Prod.mk.inj (Except.ok.inj h)
      exact .inl ⟨rfl, rfl⟩
    · obtain ⟨rfl, -⟩ := Prod.mk.inj (Except.ok.inj h)
      exact .inr (.inr ⟨rfl, rfl⟩)

theorem names_modify (es : List Entry) :
    (es.modify i fun e => { e with replacement := hash }).map Entry.name = es.map Entry.name := by
  induction es generalizing i with
  | nil => simp
  | cons e es ih => cases i <;> simp [ih]

theorem namesOf_replaced : namesOf (replaced j i hash) = namesOf j := by
  rw [namesOf, replaced, names_modify]
  rfl

theorem valid_replaced (h : Valid sys j) (hh : validHash hash = true) :
    Valid sys (replaced j i hash) := by
  have hentry : ∀ e ∈ (replaced j i hash).files, EntryOk e := by
    intro e he
    obtain ⟨k, hk⟩ := getElem?_of_mem he
    rw [replaced, getElem?_modify, Option.map_eq_map, Option.map_eq_some_iff] at hk
    obtain ⟨e₀, he₀, rfl⟩ := hk
    have hok := h.entry e₀ (mem_of_getElem? he₀)
    by_cases hik : i = k
    · simp only [if_pos hik]
      exact ⟨hok.name, hok.size, hok.original, .inr hh⟩
    · simp only [if_neg hik]
      exact hok
  refine ⟨by simpa [replaced] using h.count, ?_, hentry, h.promotedCount, h.copy, ?_⟩
  · rw [← getLast?_map, replaced, names_modify, getLast?_map]
    exact h.inventory
  · rw [namesOf_replaced]
    exact h.distinct

theorem namesOf_recorded_sublist :
    (namesOf (recorded sys j copy)).Sublist (namesOf j ++ [copy.name]) := by
  simp only [namesOf, recorded, map_append, map_cons, map_nil, append_assoc]
  exact (List.Sublist.refl _).append ((filter_sublist.map _).append (.refl _))

theorem valid_recorded (h : Valid sys j) (hp : Promotes sys j (copy :: copies))
    (hnone : j.files.findIdx? (fun e => sameName sys e.name copy.name) = none) :
    Valid sys (recorded sys j copy) := by
  have hsame : ∀ n ∈ namesOf j, folded sys n = folded sys copy.name →
      sameName sys n copy.name = true := fun n hn =>
    hp.same n (mem_append_left _ hn) copy mem_cons_self
  have hcount := hp.count
  rw [length_cons] at hcount
  have hfilter := length_filter_le (fun c => ! sameName sys c.name copy.name) j.promoted
  refine ⟨h.count, h.inventory, h.entry, ?_, ?_, ?_⟩
  · rw [recorded, length_append, length_singleton]
    omega
  · intro c hc
    rcases mem_append.1 hc with hc | hc
    · exact h.copy c (mem_filter.1 hc).1
    · obtain rfl := mem_singleton.1 hc
      exact hp.copy c mem_cons_self
  · have hkept : (j.files.map Entry.name ++ (j.promoted.filter fun c =>
        ! sameName sys c.name copy.name).map RootCopy.name).Pairwise
          fun a b => folded sys a ≠ folded sys b :=
      h.distinct.sublist ((List.Sublist.refl _).append (filter_sublist.map _))
    have heq : namesOf (recorded sys j copy) =
        (j.files.map Entry.name ++ (j.promoted.filter fun c =>
        ! sameName sys c.name copy.name).map RootCopy.name) ++ [copy.name] := by
      simp [namesOf, recorded]
    rw [heq]
    refine pairwise_append.2 ⟨hkept, pairwise_singleton _ _, ?_⟩
    intro n hn m hm
    obtain rfl := mem_singleton.1 hm
    intro hfold
    rcases mem_append.1 hn with hn | hn
    · have hs := hsame n (mem_append_left _ hn) hfold
      obtain ⟨e, he, rfl⟩ := mem_map.1 hn
      rw [findIdx?_eq_none_iff] at hnone
      rw [hnone e he] at hs
      cases hs
    · obtain ⟨c, hc, rfl⟩ := mem_map.1 hn
      obtain ⟨hc, hnot⟩ := mem_filter.1 hc
      have hs := hsame c.name (mem_append_right _ (mem_map_of_mem hc)) hfold
      rw [hs] at hnot
      cases hnot

theorem Promotes.tail (hp : Promotes sys j (copy :: copies))
    (hn : ∀ n ∈ namesOf j', n ∈ namesOf j ++ [copy.name])
    (hc : j'.promoted.length ≤ j.promoted.length + 1) : Promotes sys j' copies := by
  have hcount := hp.count
  rw [length_cons] at hcount
  refine ⟨fun c h => hp.copy c (mem_cons_of_mem _ h), by omega, ?_⟩
  intro n hmem c h
  refine hp.same n ?_ c (mem_cons_of_mem _ h)
  rcases mem_append.1 hmem with hmem | hmem
  · have hmem := hn n hmem
    simp only [map_cons, mem_append, mem_cons, not_mem_nil, or_false]
      at hmem ⊢
    tauto
  · exact mem_append_right _ (mem_cons_of_mem _ hmem)

/-- One copy leaves the journal valid. -/
theorem valid_placeCopy (h : Valid sys j) (hp : Promotes sys j (copy :: copies))
    (he : placeCopy sys j copy = .ok (j', changed)) : Valid sys j' ∧ Promotes sys j' copies := by
  rcases placeCopy_cases he with ⟨rfl, -⟩ | ⟨i, rfl⟩ | ⟨hnone, rfl⟩
  · exact ⟨h, hp.tail (fun n hn => mem_append_left _ hn) (Nat.le_succ _)⟩
  · refine ⟨valid_replaced h (hp.copy copy mem_cons_self).hash, hp.tail ?_ (Nat.le_succ _)⟩
    intro n hn
    rw [namesOf_replaced] at hn
    exact mem_append_left _ hn
  · refine ⟨valid_recorded h hp hnone, hp.tail (fun n hn => namesOf_recorded_sublist.subset hn) ?_⟩
    rw [recorded, length_append, length_singleton]
    exact Nat.succ_le_succ (length_filter_le _ _)

/-- The copies leave the journal valid. -/
theorem valid_place (h : Valid sys j) (hp : Promotes sys j copies)
    (he : place sys j copies = .ok (j', changed)) : Valid sys j' := by
  induction copies generalizing j changed with
  | nil =>
    obtain ⟨rfl, -⟩ := Prod.mk.inj (Except.ok.inj he)
    exact h
  | cons copy copies ih =>
    simp only [place, bind_eq_ok, pure_eq_ok] at he
    obtain ⟨⟨j₁, c₁⟩, h₁, ⟨j₂, c₂⟩, h₂, heq⟩ := he
    obtain ⟨rfl, -⟩ := Prod.mk.inj heq
    obtain ⟨hv, hp⟩ := valid_placeCopy h hp h₁
    exact ih hv hp h₂

end Hc.Update
