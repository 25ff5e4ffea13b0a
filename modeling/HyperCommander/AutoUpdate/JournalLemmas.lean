import HyperCommander.AutoUpdate.JsonLemmas
import HyperCommander.AutoUpdate.Journal
import Mathlib.Data.List.Nodup

/-!
# Journals that `Load` accepts

- **Validity** (`Valid`): what `Load` asks of the entries and copies, as a property of the journal.
- **Main result** (`load_save_iff`): the bytes that `Save` writes of a journal are loaded as it if
  and only if the journal is valid.
-/

open List Outcome

namespace Hc.Update

variable {sys : System} {j : Journal}

/-- The names of the files and of the copies. -/
def namesOf (j : Journal) : List Text := j.files.map Entry.name ++ j.promoted.map RootCopy.name

/-- What `Load` asks of an entry. -/
structure EntryOk (e : Entry) : Prop where
  name : checkProductRelative e.name = .ok ()
  size : e.size ≤ 536870912
  original : (if e.existed then validHash e.original else decide (e.original = [])) = true
  replacement : e.replacement = [] ∨ validHash e.replacement = true

/-- What `Load` asks of a copy. -/
structure CopyOk (c : RootCopy) : Prop where
  name : checkProductRelative c.name = .ok ()
  root : slash ∉ c.name
  hash : validHash c.hash = true

/-- What `Load` asks of a journal. -/
structure Valid (sys : System) (j : Journal) : Prop where
  count : j.files.length ≤ 4096
  inventory : j.files.getLast?.map Entry.name = some inventoryName
  entry : ∀ e ∈ j.files, EntryOk e
  promotedCount : j.promoted.length ≤ 64
  copy : ∀ c ∈ j.promoted, CopyOk c
  distinct : (namesOf j).Pairwise fun a b => folded sys a ≠ folded sys b

/-! ## Texts -/

def entryFields (e : Entry) (h : e.size ≤ 536870912) : List (Text × Item 3) :=
  [(ascii "path", ⟨_, _, _, reads_string (by decide) e.name⟩),
    (ascii "existed", ⟨_, _, _, reads_boolean (by decide) e.existed⟩),
    (ascii "original", ⟨_, _, _, reads_string (by decide) e.original⟩),
    (ascii "replacement", ⟨_, _, _, reads_string (by decide) e.replacement⟩),
    (ascii "size", ⟨_, _, _, reads_number (by decide) (Nat.le_trans h (by decide))⟩)]

def entryJson (e : Entry) : Json :=
  .object [(ascii "path", .string e.name), (ascii "existed", .boolean e.existed),
    (ascii "original", .string e.original), (ascii "replacement", .string e.replacement),
    (ascii "size", .number e.size)]

theorem entryText_eq (e : Entry) (h : e.size ≤ 536870912) :
    entryText e = objectText ((entryFields e h).map fun f => (f.1, f.2.text)) := by
  have h1 : ascii "\x7b\"path\":" = openBrace :: (quoteJson (ascii "path") ++ [colon]) := by
    decide +kernel
  have h2 : ascii ",\"existed\":" = comma :: (quoteJson (ascii "existed") ++ [colon]) := by
    decide +kernel
  have h3 : ascii ",\"original\":" = comma :: (quoteJson (ascii "original") ++ [colon]) := by
    decide +kernel
  have h4 : ascii ",\"replacement\":" = comma :: (quoteJson (ascii "replacement") ++ [colon]) := by
    decide +kernel
  have h5 : ascii ",\"size\":" = comma :: (quoteJson (ascii "size") ++ [colon]) := by
    decide +kernel
  unfold entryText
  rw [h1, h2, h3, h4, h5]
  simp [entryFields, objectText, memberText, commas, booleanText]

theorem reads_entry (e : Entry) (h : e.size ≤ 536870912) :
    Reads 2 (entryText e) (entryJson e) 6 := by
  have hkeys : [ascii "path", ascii "existed", ascii "original", ascii "replacement",
      ascii "size"].Nodup := by decide +kernel
  rw [entryText_eq e h]
  exact reads_object (by decide) (entryFields e h) hkeys

variable {seen seen' : List Unicode.Units} {bytes : Text} {done es : List Entry}

theorem loadEntry_entryJson {e : Entry} (h : EntryOk e)
    {key : Unicode.Units} (hk : folded sys e.name = .ok key) (hs : key ∉ seen) :
    loadEntry sys seen (entryJson e) = .ok (e, key :: seen) := by
  have h1 : (entryJson e).at_ "path" Json.asString = .ok e.name := rfl
  have h2 : (entryJson e).at_ "original" Json.asString = .ok e.original := rfl
  have h3 : (entryJson e).at_ "replacement" Json.asString = .ok e.replacement := rfl
  have h4 : (entryJson e).at_ "size" Json.asNumber = .ok e.size := rfl
  have h5 : (entryJson e).at_ "existed" Json.asBoolean = .ok e.existed := rfl
  unfold loadEntry
  rw [h1, ok_bind, h2, ok_bind, h3, ok_bind, h4, ok_bind, h5, ok_bind, h.name, ok_bind, hk, ok_bind,
    require_of ⟨hs, h.size, h.original, h.replacement⟩, ok_bind]
  rfl

def copyFields (c : RootCopy) : List (Text × Item 3) :=
  [(ascii "path", ⟨_, _, _, reads_string (by decide) c.name⟩),
    (ascii "sha256", ⟨_, _, _, reads_string (by decide) c.hash⟩)]

def copyJson (c : RootCopy) : Json :=
  .object [(ascii "path", .string c.name), (ascii "sha256", .string c.hash)]

theorem copyText_eq (c : RootCopy) :
    copyText c = objectText ((copyFields c).map fun f => (f.1, f.2.text)) := by
  have h1 : ascii "\x7b\"path\":" = openBrace :: (quoteJson (ascii "path") ++ [colon]) := by
    decide +kernel
  have h2 : ascii ",\"sha256\":" = comma :: (quoteJson (ascii "sha256") ++ [colon]) := by
    decide +kernel
  unfold copyText
  rw [h1, h2]
  simp [copyFields, objectText, memberText, commas]

theorem reads_copy (c : RootCopy) : Reads 2 (copyText c) (copyJson c) 3 := by
  have hkeys : [ascii "path", ascii "sha256"].Nodup := by decide +kernel
  rw [copyText_eq c]
  exact reads_object (by decide) (copyFields c) hkeys

/-! ## Loading -/

/-- Names that are folded, each apart from the others and from those before. -/
theorem loadFiles_map {es done : List Entry} {seen : List Unicode.Units} {keys : List Unicode.Units}
    (he : ∀ e ∈ es, EntryOk e) (hk : es.map (fun e => folded sys e.name) = keys.map .ok)
    (hd : keys.Nodup) (hs : ∀ k ∈ keys, k ∉ seen) (hn : done.length + es.length ≤ 4096) :
    loadFiles sys (es.map entryJson) done seen = .ok (done ++ es, keys.reverse ++ seen) := by
  induction es generalizing done seen keys with
  | nil =>
    obtain rfl : keys = [] := by simpa using hk.symm
    simp [loadFiles]
  | cons e es ih =>
    cases keys with
    | nil => simp at hk
    | cons key keys =>
      simp only [map_cons, cons.injEq] at hk
      obtain ⟨hnot, hd⟩ := nodup_cons.1 hd
      rw [length_cons] at hn
      have hrest : ∀ k ∈ keys, k ∉ key :: seen := by
        intro k hkm hks
        rcases mem_cons.1 hks with rfl | hks
        · exact hnot hkm
        · exact hs k (mem_cons_of_mem _ hkm) hks
      have hlen : (done ++ [e]).length + es.length ≤ 4096 := by
        rw [length_append, length_singleton]
        omega
      rw [map_cons, loadFiles, require_of (by omega), ok_bind,
        loadEntry_entryJson (he e mem_cons_self) hk.1 (hs key mem_cons_self), ok_bind]
      simp only
      rw [ih (fun e h => he e (mem_cons_of_mem _ h)) hk.2 hd hrest hlen]
      simp

theorem loadPromoted_map {cs done : List RootCopy} {seen keys : List Unicode.Units}
    (hc : ∀ c ∈ cs, CopyOk c) (hk : cs.map (fun c => folded sys c.name) = keys.map .ok)
    (hd : keys.Nodup) (hs : ∀ k ∈ keys, k ∉ seen) (hn : done.length + cs.length ≤ 64) :
    loadPromoted sys (cs.map copyJson) done seen = .ok (done ++ cs) := by
  induction cs generalizing done seen keys with
  | nil => simp [loadPromoted]
  | cons c cs ih =>
    cases keys with
    | nil => simp at hk
    | cons key keys =>
      simp only [map_cons, cons.injEq] at hk
      obtain ⟨hnot, hd⟩ := nodup_cons.1 hd
      rw [length_cons] at hn
      have hrest : ∀ k ∈ keys, k ∉ key :: seen := by
        intro k hkm hks
        rcases mem_cons.1 hks with rfl | hks
        · exact hnot hkm
        · exact hs k (mem_cons_of_mem _ hkm) hks
      have hlen : (done ++ [c]).length + cs.length ≤ 64 := by
        rw [length_append, length_singleton]
        omega
      have hok := hc c mem_cons_self
      have h1 : (copyJson c).at_ "path" Json.asString = .ok c.name := rfl
      have h2 : (copyJson c).at_ "sha256" Json.asString = .ok c.hash := rfl
      rw [map_cons, loadPromoted, h1, ok_bind, h2, ok_bind, hok.name, ok_bind, hk.1, ok_bind,
        require_of ⟨by omega, hok.root, hok.hash, hs key mem_cons_self⟩, ok_bind,
        ih (fun c h => hc c (mem_cons_of_mem _ h)) hk.2 hd hrest hlen]
      simp

/-! ## The journal -/

def entryItems (es : List Entry) (h : ∀ e ∈ es, e.size ≤ 536870912) : List (Item 2) :=
  es.attach.map fun e => ⟨_, _, _, reads_entry e.1 (h e.1 e.2)⟩

def copyItems (cs : List RootCopy) : List (Item 2) :=
  cs.map fun c => ⟨_, _, _, reads_copy c⟩

theorem countOf_const {depth : Nat} (k : Nat) {items : List (Item depth)}
    (h : ∀ i ∈ items, i.count = k) :
    countOf items = items.length * k := by
  induction items with
  | nil => simp [countOf]
  | cons i items ih =>
    have hc : countOf (i :: items) = i.count + countOf items := by simp [countOf]
    rw [hc, ih fun i hi => h i (mem_cons_of_mem _ hi), h i mem_cons_self,
      length_cons, Nat.succ_mul, Nat.add_comm]

def journalFields (j : Journal) (h : ∀ e ∈ j.files, e.size ≤ 536870912) : List (Text × Item 1) :=
  [(ascii "schema", ⟨_, _, _, reads_number (by decide) (show 1 ≤ 18446744073709551615 by decide)⟩),
    (ascii "state", ⟨_, _, _, reads_string (by decide) j.state⟩),
    (ascii "files", ⟨_, _, _, reads_array (by decide) (entryItems j.files h)⟩)] ++
  if j.promoted = [] then []
  else [(ascii "promoted", ⟨_, _, _, reads_array (by decide) (copyItems j.promoted)⟩)]

def journalJson (j : Journal) : Json :=
  .object ([(ascii "schema", .number 1), (ascii "state", .string j.state),
    (ascii "files", .array (j.files.map entryJson))] ++
    if j.promoted = [] then [] else [(ascii "promoted", .array (j.promoted.map copyJson))])

theorem journalText_eq (h : ∀ e ∈ j.files, e.size ≤ 536870912) :
    journalText j = objectText ((journalFields j h).map fun f => (f.1, f.2.text)) := by
  have h1 : ascii "\x7b\"schema\":1,\"state\":" =
      openBrace :: (quoteJson (ascii "schema") ++ colon :: (decimal 1 ++
        comma :: (quoteJson (ascii "state") ++ [colon]))) := by decide +kernel
  have h2 : ascii ",\"files\":[" =
      comma :: (quoteJson (ascii "files") ++ [colon, openBracket]) := by decide +kernel
  have h3 : ascii ",\"promoted\":[" =
      comma :: (quoteJson (ascii "promoted") ++ [colon, openBracket]) := by decide +kernel
  have h4 : ascii "]" = [closeBracket] := by decide +kernel
  have hes : (entryItems j.files h).map Item.text = j.files.map entryText := by
    simp [entryItems]
  have hcs : (copyItems j.promoted).map Item.text = j.promoted.map copyText := by
    simp [copyItems]
  unfold journalText
  rw [h1, h2, h3, h4]
  by_cases hp : j.promoted = []
  · simp [journalFields, hp, objectText, memberText, commas, arrayText, hes]
  · simp [journalFields, hp, objectText, memberText, commas, arrayText, hes, hcs]

theorem reads_journal (h : ∀ e ∈ j.files, e.size ≤ 536870912) (hf : j.files.length ≤ 4096)
    (hp : j.promoted.length ≤ 64) :
    ∃ count ≤ 40000, Reads 0 (journalText j) (journalJson j) count := by
  have hkeys : [ascii "schema", ascii "state", ascii "files", ascii "promoted"].Nodup := by
    decide +kernel
  have hnodup : ((journalFields j h).map Prod.fst).Nodup := by
    by_cases hp : j.promoted = []
    · simp only [journalFields, hp, if_true, append_nil]
      exact hkeys.sublist (by simp)
    · simp only [journalFields, hp, if_false]
      exact hkeys
  have hreads := reads_object (by decide) (journalFields j h) hnodup
  rw [← journalText_eq h] at hreads
  have hvalue : Json.object ((journalFields j h).map fun f => (f.1, f.2.value)) =
      journalJson j := by
    have hes : (entryItems j.files h).map Item.value = j.files.map entryJson := by
      simp [entryItems]
    have hcs : (copyItems j.promoted).map Item.value = j.promoted.map copyJson := by
      simp [copyItems]
    by_cases hp : j.promoted = []
    · simp [journalFields, journalJson, hp, hes]
    · simp [journalFields, journalJson, hp, hes, hcs]
  have hes : countOf (entryItems j.files h) = j.files.length * 6 := by
    rw [countOf_const 6]
    · simp [entryItems]
    · intro i hi
      obtain ⟨e, -, rfl⟩ := mem_map.1 hi
      rfl
  have hcs : countOf (copyItems j.promoted) = j.promoted.length * 3 := by
    rw [countOf_const 3]
    · simp [copyItems]
    · intro i hi
      obtain ⟨c, -, rfl⟩ := mem_map.1 hi
      rfl
  rw [hvalue] at hreads
  refine ⟨_, ?_, hreads⟩
  by_cases hpn : j.promoted = []
  · simp only [journalFields, hpn, if_true, append_nil, countOf, map_cons, map_nil,
      sum_cons, sum_nil] at hes ⊢
    omega
  · simp only [journalFields, hpn, if_false, countOf, map_cons, map_nil, map_append,
      sum_append, sum_cons, sum_nil] at hes hcs ⊢
    omega

/-- A journal whose text fits is written. -/
theorem save_of_text (hsize : ∀ e ∈ j.files, e.size ≤ 536870912)
    (hf : j.files.length ≤ 4096) (hp : j.promoted.length ≤ 64)
    (hlen : (journalText j).length ≤ 1048576) (hu : ValidUtf8 (journalText j)) :
    save j = .ok (journalText j) := by
  obtain ⟨count, hcount, hreads⟩ := reads_journal hsize hf hp
  unfold save
  simp only
  rw [parseJson_of_reads hreads hcount hlen hu, ok_bind, require_of hlen, ok_bind]
  rfl

theorem save_eq_ok (h : save j = .ok bytes) :
    bytes = journalText j ∧ bytes.length ≤ 1048576 ∧ ValidUtf8 bytes := by
  simp only [save, bind_eq_ok, require_eq_ok, pure_eq_ok] at h
  obtain ⟨v, hv, -, hlen, rfl⟩ := h
  exact ⟨rfl, hlen, (bounds_of_parseJson hv).2⟩

/-- The names of a valid journal, folded. -/
theorem Valid.keys (h : Valid sys j) : ∃ ks cs : List Unicode.Units,
    j.files.map (fun e => folded sys e.name) = ks.map .ok ∧
    j.promoted.map (fun c => folded sys c.name) = cs.map .ok ∧ (ks ++ cs).Nodup := by
  have hfold : ∀ name, checkProductRelative name = .ok () → ∃ key, folded sys name = .ok key := by
    intro name hn
    obtain ⟨text, ht⟩ := wide_of_checkRelative (checkRelative_of_product hn)
    exact ⟨sys.lower text, by rw [folded, ht]; rfl⟩
  have hall : ∀ names : List Text, (∀ n ∈ names, checkProductRelative n = .ok ()) →
      ∃ ks : List Unicode.Units, names.map (folded sys) = ks.map .ok := by
    intro names hn
    induction names with
    | nil => exact ⟨[], rfl⟩
    | cons n names ih =>
      obtain ⟨key, hk⟩ := hfold n (hn n mem_cons_self)
      obtain ⟨ks, hks⟩ := ih fun n h => hn n (mem_cons_of_mem _ h)
      exact ⟨key :: ks, by rw [map_cons, map_cons, hk, hks]⟩
  obtain ⟨ks, hks⟩ := hall (j.files.map Entry.name) (by
    intro n hn
    obtain ⟨e, he, rfl⟩ := mem_map.1 hn
    exact (h.entry e he).name)
  obtain ⟨cs, hcs⟩ := hall (j.promoted.map RootCopy.name) (by
    intro n hn
    obtain ⟨c, hc, rfl⟩ := mem_map.1 hn
    exact (h.copy c hc).name)
  refine ⟨ks, cs, by rw [← hks, map_map]; rfl, by rw [← hcs, map_map]; rfl, ?_⟩
  have hd : ((namesOf j).map (folded sys)).Nodup := pairwise_map.2 h.distinct
  rw [namesOf, map_append, hks, hcs, ← map_append] at hd
  exact List.Nodup.of_map Except.ok hd

/-- What `Save` writes of a valid journal is loaded as it. -/
theorem load_save (h : Valid sys j) (hs : save j = .ok bytes) :
    load sys bytes = .ok j := by
  obtain ⟨rfl, hlen, hu⟩ := save_eq_ok hs
  obtain ⟨count, hcount, hreads⟩ := reads_journal (fun e he => (h.entry e he).size) h.count
    h.promotedCount
  obtain ⟨ks, cs, hks, hcs, hd⟩ := h.keys
  obtain ⟨hdk, hdc, hdisj⟩ := nodup_append.1 hd
  have h1 : (journalJson j).at_ "schema" Json.asNumber = .ok 1 := rfl
  have h2 : (journalJson j).at_ "state" Json.asString = .ok j.state := rfl
  have h3 : (journalJson j).at_ "files" Json.asArray = .ok (j.files.map entryJson) := rfl
  have hfiles := @loadFiles_map sys _ [] [] _ h.entry hks hdk
    (fun _ _ => not_mem_nil) (by simpa using h.count)
  rw [nil_append, append_nil] at hfiles
  unfold load
  rw [require_of hlen, ok_bind, parseJson_of_reads hreads hcount hlen hu, ok_bind, h1, ok_bind,
    require_of rfl, ok_bind, h2, ok_bind, h3, ok_bind, hfiles, ok_bind]
  simp only
  rw [require_of h.inventory, ok_bind]
  by_cases hp : j.promoted = []
  · have hfield : (journalJson j).field "promoted" = none := by
      simp only [journalJson, hp, if_true, append_nil]
      rfl
    rw [hfield, if_neg (by simp)]
    rw [pure_bind]
    cases j
    simp_all
  · have hobject : journalJson j = .object [(ascii "schema", .number 1),
        (ascii "state", .string j.state), (ascii "files", .array (j.files.map entryJson)),
        (ascii "promoted", .array (j.promoted.map copyJson))] := by
      simp [journalJson, hp]
    have hfield : (journalJson j).field "promoted" = some (.array (j.promoted.map copyJson)) := by
      rw [hobject]
      rfl
    have h4 : (journalJson j).at_ "promoted" Json.asArray = .ok (j.promoted.map copyJson) := by
      rw [hobject]
      rfl
    have hseen : ∀ k ∈ cs, k ∉ ks.reverse := fun k hk hm =>
      hdisj k (mem_reverse.1 hm) k hk rfl
    have hpromoted := @loadPromoted_map sys _ [] _ _ h.copy hcs hdc hseen
      (by simpa using h.promotedCount)
    rw [hfield, if_pos (by simp), h4, ok_bind, hpromoted, ok_bind]
    rfl

/-! ## What is loaded is valid -/

theorem loadEntry_spec {item : Json} {e : Entry} (h : loadEntry sys seen item = .ok (e, seen')) :
    EntryOk e ∧ ∃ key, folded sys e.name = .ok key ∧ key ∉ seen ∧ seen' = key :: seen := by
  simp only [loadEntry, bind_eq_ok, require_eq_ok, pure_eq_ok] at h
  obtain ⟨name, -, original, -, replacement, -, size, -, existed, -, _, hname, key, hkey, _,
    ⟨hseen, hsize, horiginal, hreplacement⟩, h⟩ := h
  obtain ⟨rfl, rfl⟩ := Prod.mk.inj h
  exact ⟨⟨hname, hsize, by cases existed <;> simpa using horiginal, hreplacement⟩, key, hkey, hseen,
    rfl⟩

theorem loadFiles_spec {items : List Json}
    (h : loadFiles sys items done seen = .ok (es, seen')) (hn : done.length ≤ 4096) :
    es.length ≤ 4096 ∧ ∃ (new : List Entry) (keys : List Unicode.Units),
      es = done ++ new ∧ seen' = keys.reverse ++ seen ∧
      (∀ e ∈ new, EntryOk e) ∧ new.map (fun e => folded sys e.name) = keys.map .ok ∧
      keys.Nodup ∧ ∀ k ∈ keys, k ∉ seen := by
  induction items generalizing done seen with
  | nil =>
    obtain ⟨rfl, rfl⟩ := Prod.mk.inj (Except.ok.inj h)
    exact ⟨hn, [], [], by simp⟩
  | cons item items ih =>
    simp only [loadFiles, bind_eq_ok, require_eq_ok] at h
    obtain ⟨_, hlt, ⟨e, seen₁⟩, he, h⟩ := h
    obtain ⟨hok, key, hkey, hnot, rfl⟩ := loadEntry_spec he
    obtain ⟨hlen, new, keys, rfl, rfl, hall, hkeys, hd, hs⟩ := ih h (by simp; omega)
    refine ⟨hlen, e :: new, key :: keys, by simp, by simp, forall_mem_cons.2 ⟨hok, hall⟩,
      by rw [map_cons, map_cons, hkey, hkeys], ?_, ?_⟩
    · exact nodup_cons.2 ⟨fun hk => hs key hk mem_cons_self, hd⟩
    · exact forall_mem_cons.2 ⟨hnot, fun k hk hm => hs k hk (mem_cons_of_mem _ hm)⟩

theorem loadPromoted_spec {items : List Json} {done cs : List RootCopy}
    (h : loadPromoted sys items done seen = .ok cs) (hn : done.length ≤ 64) :
    cs.length ≤ 64 ∧ ∃ (new : List RootCopy) (keys : List Unicode.Units),
      cs = done ++ new ∧ (∀ c ∈ new, CopyOk c) ∧
      new.map (fun c => folded sys c.name) = keys.map .ok ∧ keys.Nodup ∧ ∀ k ∈ keys, k ∉ seen := by
  induction items generalizing done seen with
  | nil =>
    obtain rfl := Except.ok.inj h
    exact ⟨hn, [], [], by simp⟩
  | cons item items ih =>
    simp only [loadPromoted, bind_eq_ok, require_eq_ok] at h
    obtain ⟨name, -, hash, -, _, hname, key, hkey, _, ⟨hlt, hroot, hhash, hnot⟩, h⟩ := h
    obtain ⟨hlen, new, keys, rfl, hall, hkeys, hd, hs⟩ := ih h (by simp; omega)
    refine ⟨hlen, ⟨name, hash⟩ :: new, key :: keys, by simp,
      forall_mem_cons.2 ⟨⟨hname, hroot, hhash⟩, hall⟩,
      by rw [map_cons, map_cons, hkey, hkeys], ?_, ?_⟩
    · exact nodup_cons.2 ⟨fun hk => hs key hk mem_cons_self, hd⟩
    · exact forall_mem_cons.2 ⟨hnot, fun k hk hm => hs k hk (mem_cons_of_mem _ hm)⟩

/-- `Load` gives valid journals only. -/
theorem valid_of_load (h : load sys bytes = .ok j) : Valid sys j := by
  simp only [load, bind_eq_ok, require_eq_ok, pure_eq_ok] at h
  obtain ⟨_, -, value, -, schema, -, _, -, state, -, items, -, ⟨files, seen⟩, hfiles, _, hinventory,
    promoted, hpromoted, rfl⟩ := h
  obtain ⟨hcount, _, ks, rfl, rfl, hentry, hks, hdk, -⟩ := loadFiles_spec hfiles (Nat.zero_le _)
  simp only [append_nil] at hpromoted
  have hcopies : promoted.length ≤ 64 ∧ ∃ cs : List Unicode.Units, (∀ c ∈ promoted, CopyOk c) ∧
      promoted.map (fun c => folded sys c.name) = cs.map .ok ∧ cs.Nodup ∧
      ∀ k ∈ cs, k ∉ ks.reverse := by
    split at hpromoted
    · simp only [bind_eq_ok] at hpromoted
      obtain ⟨copies, -, hpromoted⟩ := hpromoted
      obtain ⟨hlen, new, cs, rfl, hrest⟩ := loadPromoted_spec hpromoted (Nat.zero_le _)
      exact ⟨hlen, cs, hrest⟩
    · obtain rfl := pure_eq_ok.1 hpromoted
      exact ⟨Nat.zero_le _, [], by simp⟩
  obtain ⟨hlen, cs, hcopy, hcs, hdc, hdisj⟩ := hcopies
  refine ⟨hcount, hinventory, hentry, hlen, hcopy, pairwise_map.1 ?_⟩
  rw [namesOf, map_append, map_map, map_map]
  change ((files.map fun e => folded sys e.name) ++ promoted.map fun c => folded sys c.name).Nodup
  rw [hks, hcs, ← map_append]
  refine (nodup_append.2 ⟨hdk, hdc, ?_⟩).map fun _ _ h => Except.ok.inj h
  rintro a ha _ hb rfl
  exact hdisj a hb (mem_reverse.2 ha)

theorem loadFiles_entryJson {es' : List Entry}
    (h : loadFiles sys (es.map entryJson) done seen = .ok (es', seen')) : es' = done ++ es := by
  induction es generalizing done seen with
  | nil =>
    obtain ⟨rfl, -⟩ := Prod.mk.inj (Except.ok.inj h)
    simp
  | cons e es ih =>
    simp only [map_cons, loadFiles, bind_eq_ok] at h
    obtain ⟨_, -, ⟨e', seen₁⟩, he, h⟩ := h
    have he' : e' = e := by
      simp only [loadEntry, bind_eq_ok, pure_eq_ok] at he
      obtain ⟨name, h1, original, h2, replacement, h3, size, h4, existed, h5, _, -, _, -, _, -, he⟩
        := he
      obtain ⟨rfl, -⟩ := Prod.mk.inj he
      obtain rfl : e.name = name := Except.ok.inj h1
      obtain rfl : e.original = original := Except.ok.inj h2
      obtain rfl : e.replacement = replacement := Except.ok.inj h3
      obtain rfl : e.size = size := Except.ok.inj h4
      obtain rfl : e.existed = existed := Except.ok.inj h5
      rfl
    rw [ih h, he']
    simp

/-- Whatever `Load` makes of the text of a journal, it has the journal's entries. -/
theorem files_of_load {j' : Journal} (hsize : ∀ e ∈ j.files, e.size ≤ 536870912)
    (hf : j.files.length ≤ 4096) (hp : j.promoted.length ≤ 64)
    (h : load sys (journalText j) = .ok j') : j'.files = j.files := by
  obtain ⟨count, hcount, hreads⟩ := reads_journal hsize hf hp
  simp only [load, bind_eq_ok, require_eq_ok, pure_eq_ok] at h
  obtain ⟨_, hlen, value, hvalue, schema, -, _, -, state, -, items, hitems, ⟨files, seen⟩, hfiles,
    _, -, promoted, -, rfl⟩ := h
  rw [parseJson_of_reads hreads hcount hlen (bounds_of_parseJson hvalue).2] at hvalue
  obtain rfl := Except.ok.inj hvalue
  obtain rfl : j.files.map entryJson = items := Except.ok.inj hitems
  simpa using loadFiles_entryJson hfiles

/-- The bytes that `Save` writes of a journal are loaded as it if and only if it is valid. -/
theorem load_save_iff (hs : save j = .ok bytes) :
    load sys bytes = .ok j ↔ Valid sys j :=
  ⟨valid_of_load, fun h => load_save h hs⟩

/-- A valid journal is valid without its copies. -/
theorem valid_of_files {j' : Journal} (h : Valid sys j') (hf : j'.files = j.files)
    (hp : j.promoted = []) : Valid sys j := by
  refine ⟨hf ▸ h.count, hf ▸ h.inventory, hf ▸ h.entry, by simp [hp], by simp [hp], ?_⟩
  rw [namesOf, hp, map_nil, append_nil, ← hf]
  exact h.distinct.sublist (sublist_append_left _ _)

end Hc.Update
