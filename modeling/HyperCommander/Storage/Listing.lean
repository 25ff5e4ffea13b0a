import HyperCommander.Storage.PagedIndexLemmas
import HyperCommander.Storage.Selection

/-!
# Listings of entries in an index (`UniqueLibs/qtPagedStorage.cpp`, `PagedEntryIndex`)

What a cursor enumerates is written to an index page by page, is read back in pages, and can be
projected by a comparison of entries.

* `Lists`: the rows of an index are the encoded entries of a list.
* `build_yields`, `read_lists`, `project_lists`: the operations in terms of that list.
-/

namespace Hc.Storage.Listing

open List Bytes Slice Selection Operations.DurableLog DataStream

section

variable (fault : Nat → Option Error) (limit : Nat)

/-- The entries of a page are appended. -/
def appendEntries : List EntrySnapshot → DiskRecords → Disk DiskRecords
  | [], records => pure records
  | entry :: rest, records => do
    access fault
    let records ← records.append fault (encodeEntry entry)
    appendEntries rest records

/-- The loop of `Build`; a cursor is what it does for the next page. `revision` is that of the first
page, once there is one. -/
def buildLoop {σ : Type} (next : σ → Disk (EntryPage × σ)) :
    (fuel : Nat) → σ → (revision : Option (Option Str)) → DiskRecords → Disk Source
  | 0, _, revision, records => pure ⟨records, revision.join⟩
  | fuel + 1, cursor, revision, records => do
    access fault
    let read ← next cursor
    let page := read.1
    refuse (revision ≠ none ∧ revision ≠ some page.revision)
      ⟨.staleRevision, "enumeration-revision-changed", false⟩
    refuse (records.count > limit ∨ page.entries.length > limit - records.count)
      ⟨.budgetExceeded, "entry-limit", false⟩
    refuse (page.entries = [] ∧ page.end_ = false) (invalid "cursor-no-progress")
    let records ← appendEntries fault page.entries records
    if page.end_ then pure ⟨records, page.revision⟩
    else buildLoop next fuel read.2 (some page.revision) records

/-- `Build`; `fuel` bounds the number of pages. -/
def build {σ : Type} (next : σ → Disk (EntryPage × σ)) (fuel : Nat) (cursor : σ) : Disk Source := do
  let records ← DiskRecords.create fault
  let built ← buildLoop fault limit next fuel cursor none records
  DiskRecords.flush fault
  pure built

end

/-- What `Project` is given with the default buffer; `rowSize` is the size of a row in memory. -/
def projection (rowSize : Nat) (less : EntrySnapshot → EntrySnapshot → Bool) :
    Projection EntrySnapshot where
  less := some less
  accept := some fun _ => true
  buffer := ⟨8192, 8 * 1024 * 1024, 16⟩
  decodeEntry := decodeEntry
  overhead e := rowSize + e.hints.entries.length * 96

/-- `Project` of everything. -/
def project (fault : Nat → Option Error) (rowSize : Nat)
    (less : EntrySnapshot → EntrySnapshot → Bool) (index : Source) : Disk Source := do
  let records ← (projection rowSize less).project fault index.records
  pure ⟨records, index.revision⟩

/-- The rows of the index are these entries, each in a record that a stream can hold. -/
structure Lists (index : Source) (entries : List EntrySnapshot) : Prop where
  holds : index.records.Holds (entries.map encodeEntry)
  fits : ∀ e ∈ entries, (encodeEntry e).length < nullLength

variable {fault : Nat → Option Error} {limit : Nat}

variable {entries done : List EntrySnapshot} {index : Source}

theorem appendEntries_yields {records : DiskRecords} (h : records.Holds (done.map encodeEntry)) :
    Yields (fun _ => True) (appendEntries fault entries records) fun out =>
      out.Holds ((done ++ entries).map encodeEntry) := by
  induction entries generalizing done records with
  | nil => exact .pure (by rw [append_nil]; exact h)
  | cons entry rest ih =>
    refine .skip (access_yields fault) fun _ =>
      (DiskRecords.append_yields h _).bind fun out ho => ?_
    have hnext : done.map encodeEntry ++ [encodeEntry entry] =
        (done ++ [entry]).map encodeEntry := by
      rw [map_append]
      rfl
    rw [hnext] at ho
    refine (ih ho).weaken fun out' ho' => ?_
    rwa [append_assoc] at ho'

/-- A cursor that still has these entries to give. -/
def Enumerates {σ : Type} (next : σ → Disk (EntryPage × σ))
    (Inv : σ → List EntrySnapshot → Prop) : Prop :=
  ∀ cursor rest, Inv cursor rest → Yields (fun _ => True) (next cursor) fun read =>
    ∃ rest', rest = read.1.entries ++ rest' ∧ Inv read.2 rest' ∧
      (read.1.end_ = true ↔ rest' = [])

theorem buildLoop_yields {σ : Type} {next : σ → Disk (EntryPage × σ)}
    {Inv : σ → List EntrySnapshot → Prop} (hnext : Enumerates next Inv) {fuel : Nat} {cursor : σ}
    {rest : List EntrySnapshot} {revision : Option (Option Str)} {records : DiskRecords}
    (hinv : Inv cursor rest) (hfuel : rest.length < fuel)
    (h : records.Holds (done.map encodeEntry)) :
    Yields (fun _ => True) (buildLoop fault limit next fuel cursor revision records) fun out =>
      out.records.Holds ((done ++ rest).map encodeEntry) := by
  induction fuel generalizing cursor rest done revision records with
  | zero => omega
  | succ fuel ih =>
    refine .skip (access_yields fault) fun _ => (hnext cursor rest hinv).bind ?_
    rintro ⟨page, cursor'⟩ ⟨rest', rfl, hinv', hend⟩
    refine refuse_yields.bind fun _ _ => refuse_yields.bind fun _ _ =>
      refuse_yields.bind fun _ hprogress => ?_
    refine (appendEntries_yields h).bind fun records' h' =>
      .ite (fun hlast => .pure ?_) fun hmore => ?_
    · rw [hend.mp hlast, append_nil]
      exact h'
    · have hne : page.entries ≠ [] := fun hnil => hprogress ⟨hnil, by simpa using hmore⟩
      have hpos := length_pos_iff.mpr hne
      dsimp only at hfuel
      rw [length_append] at hfuel
      refine (ih hinv' (by omega) h').weaken fun out ho => ?_
      rwa [append_assoc] at ho

/-- An index that is built holds what its cursor had to give. -/
theorem build_yields {σ : Type} {next : σ → Disk (EntryPage × σ)}
    {Inv : σ → List EntrySnapshot → Prop} (hnext : Enumerates next Inv) {fuel : Nat} {cursor : σ}
    {rest : List EntrySnapshot} (hinv : Inv cursor rest) (hfuel : rest.length < fuel) :
    Yields (fun _ => True) (build fault limit next fuel cursor) fun out =>
      out.records.Holds (rest.map encodeEntry) := by
  refine DiskRecords.create_yields.bind fun records h => ?_
  have h : records.Holds (([] : List EntrySnapshot).map encodeEntry) := h
  refine (buildLoop_yields hnext hinv hfuel h).bind
    fun out ho => .skip (access_yields fault) fun _ => .pure ho

theorem entryAt_of_lists
    (hfits : ∀ e ∈ entries, (encodeEntry e).length < nullLength) {i : Nat} {e : EntrySnapshot}
    (h : entries[i]? = some e) : entryAt (entries.map encodeEntry) i = .ok e := by
  rw [entryAt, getD_eq_getElem?_getD, getElem?_map, h, Option.map_some, Option.getD_some]
  exact decodeEntry_encodeEntry (hfits e (mem_of_getElem? h))

theorem Lists.count (h : Lists index entries) :
    index.records.count = entries.length := by
  rw [h.holds.count, length_map]

/-- A page of an index is a slice of its entries. -/
theorem read_lists (h : Lists index entries) {offset n : Nat} (hn : 0 < n) :
    Yields (fun _ => True) (index.read fault offset n) fun page =>
      page.entries = slice entries offset (offset + n) ∧
        (page.end_ = true ↔ entries.length ≤ offset + n) ∧ page.revision = index.revision := by
  have hcount := h.count
  refine refuse_yields.bind fun _ hin => .skip (access_yields fault) fun _ => ?_
  rw [hcount] at hin ⊢
  refine (readRows_yields (fun _ _ _ => trivial) h.holds (by rw [length_map]; omega)
    fun _ _ _ _ => trivial).bind fun page hpage => .pure ⟨?_, ?_, rfl⟩
  · have hslice : (slice entries offset (offset + n)).map Except.ok =
        (range' offset (offset + min (entries.length - offset) n - offset)).map
          (entryAt (entries.map encodeEntry)) := by
      apply ext_getElem?
      intro i
      rw [getElem?_map, getElem?_map]
      rcases Nat.lt_or_ge i (min (entries.length - offset) n) with hi | hi
      · have hget := getElem?_eq_getElem (show offset + i < entries.length by omega)
        rw [getElem?_slice (by omega), hget, getElem?_range' (by omega), Option.map_some,
          Option.map_some, Nat.one_mul, entryAt_of_lists h.fits hget]
      · rw [getElem?_eq_none, getElem?_eq_none]
        · rfl
        · rw [length_range']
          omega
        · rw [slice, length_take, length_drop]
          omega
    exact map_injective_iff.mpr (fun a b hab => by cases hab; rfl) (hpage.trans hslice.symm)
  · rw [decide_eq_true_eq]
    omega

/-- A projected index is the stable sort of its entries. -/
theorem project_lists {rowSize : Nat} {less : EntrySnapshot → EntrySnapshot → Bool}
    (hless : StrictWeak less) (h : Lists index entries) :
    Yields (fun _ => True) (project fault rowSize less index) fun out =>
      Lists out (entries.insertionSort fun a b => less b a = false) := by
  have hw : (projection rowSize less).Ordered := by
    rintro _ ⟨⟩
    exact hless
  refine (Projection.project_decoded hw h.holds).bind fun records hrecords => .pure ?_
  obtain ⟨decoded, hfst, hdecoded, hout⟩ := hrecords
  have hpairs : decoded = entries.map fun e => (encodeEntry e, e) := by
    apply ext_getElem?
    intro i
    have hi : (decoded[i]?).map Prod.fst = (entries[i]?).map encodeEntry := by
      rw [← getElem?_map, hfst, getElem?_map]
    rw [getElem?_map]
    cases hd : decoded[i]? with
    | none =>
      rw [hd] at hi
      cases he : entries[i]? with
      | none => rfl
      | some e => rw [he] at hi; cases hi
    | some d =>
      rw [hd] at hi
      cases he : entries[i]? with
      | none => rw [he] at hi; cases hi
      | some e =>
        rw [he] at hi
        obtain ⟨bytes, e'⟩ := d
        have hbytes : bytes = encodeEntry e := by simpa using hi
        have hdec := hdecoded _ (mem_of_getElem? hd)
        have hdec : decodeEntry bytes = .ok e' := hdec
        rw [hbytes, decodeEntry_encodeEntry (h.fits e (mem_of_getElem? he))] at hdec
        cases hdec
        rw [hbytes]
        rfl
  have hsorted : (projection rowSize less).sorted decoded =
      (entries.insertionSort fun a b => less b a = false).map fun e => (encodeEntry e, e) := by
    have hall : decoded.filter (fun e => (projection rowSize less).accepts e.2) = decoded :=
      filter_eq_self.mpr fun _ _ => rfl
    unfold Projection.sorted
    rw [hall, hpairs]
    exact (map_insertionSort (fun a b : EntrySnapshot => less b a = false)
      (fun a b : Str × EntrySnapshot => less b.2 a.2 = false) (fun e => (encodeEntry e, e)) _
      fun _ _ _ _ => Iff.rfl).symm
  rw [hsorted, map_map] at hout
  exact ⟨hout, fun e he => h.fits e ((mem_insertionSort _).mp he)⟩

end Hc.Storage.Listing
