import HyperCommander.Operations.OutcomeCodec
import HyperCommander.Storage.PagedIndex

/-!
# Selections of a paged index (`UniqueLibs/qtPagedStorage.cpp`, `Selection`)

A selection is a list of ranges of an index, stored on disk with running totals. A page of it is
found by a binary search over the totals.

* `selectRanges_yields`: ranges that are accepted are stored in order, without the empty ones.
* `read_yields`: a page is the slice of the selected rows that was asked for.
* `selection_pages_exactly`: pages read until the end enumerate the selected rows once.
-/

namespace Hc.Storage.Selection

open List Bytes Slice Operations.DurableLog DataStream

/-- `EntryRange`. -/
structure EntryRange where
  offset : Nat
  count : Nat
deriving DecidableEq, Repr

/-- `EntryPage`. -/
structure EntryPage where
  revision : Option Str := none
  entries : List EntrySnapshot := []
  end_ : Bool := false

/-- The records of an index, with the revision of what it lists. -/
structure Source where
  records : DiskRecords
  revision : Option Str

/-- `Selection`. -/
structure Manifest where
  source : Source
  ranges : DiskRecords
  count : Nat

/-- The difference of two numbers of 64 bits. -/
def sub64 (a b : Nat) : Nat := (a + 2 ^ 64 - b) % 2 ^ 64

section

variable (fault : Nat → Option Error)

/-- The loop of `PagedEntryIndex::Read`. -/
def Source.readRows (index : Source) (row : Nat) : Nat → Disk (List EntrySnapshot)
  | 0 => pure []
  | left + 1 => do
    access fault
    let bytes ← index.records.read fault row
    let entry ← Projection.lift (decodeEntry bytes)
    let rest ← index.readRows (row + 1) left
    pure (entry :: rest)

/-- `PagedEntryIndex::Read`. -/
def Source.read (index : Source) (offset maxItems : Nat) : Disk EntryPage := do
  refuse (maxItems = 0 ∨ offset > index.records.count) (invalid "index-page-out-of-range")
  access fault
  let end_ := offset + min (index.records.count - offset) maxItems
  let entries ← index.readRows fault offset (end_ - offset)
  pure { revision := index.revision, entries, end_ := end_ = index.records.count }

/-- `RangeAt`: the offset, the count and the total of a stored range. -/
def Manifest.rangeAt (s : Manifest) (row : Nat) : Disk (Nat × Nat × Nat) := do
  let bytes ← s.ranges.read fault row
  Projection.lift (run (do
    let offset ← nat 8
    let count ← nat 8
    let total ← nat 8
    let done ← done
    DataStream.refuse (done = false) (diskError "selection-corrupt")
    pure (offset, count, total)) bytes)

/-- The binary search for the first range whose total is beyond the offset. -/
def Manifest.search (s : Manifest) (offset : Nat) : (fuel low high : Nat) → Disk Nat
  | 0, low, _ => pure low
  | fuel + 1, low, high =>
    if low < high then do
      let mid := low + (high - low) / 2
      let range ← s.rangeAt fault mid
      if range.2.2 ≤ offset then s.search offset fuel (mid + 1) high
      else s.search offset fuel low mid
    else pure low

/-- The loop over the ranges; `left` of them are still to come. -/
def Manifest.collect (s : Manifest) (maxItems : Nat) :
    (left offset : Nat) → EntryPage → Disk EntryPage
  | 0, _, page => pure page
  | left + 1, offset, page =>
    if page.entries.length < maxItems then do
      let range ← s.rangeAt fault (s.ranges.count - (left + 1))
      let within := sub64 offset (sub64 range.2.2 range.2.1)
      let size := min (sub64 range.2.1 within) (maxItems - page.entries.length)
      let part ← s.source.read fault ((range.1 + within) % 2 ^ 64) size
      s.collect maxItems left ((offset + size) % 2 ^ 64)
        { page with revision := part.revision, entries := page.entries ++ part.entries }
    else pure page

/-- `Selection::Read`. -/
def Manifest.read (s : Manifest) (offset maxItems : Nat) : Disk EntryPage := do
  refuse (maxItems = 0 ∨ offset > s.count) (invalid "selection-page-out-of-range")
  access fault
  let low ← s.search fault offset s.ranges.count 0 s.ranges.count
  let page ← s.collect fault maxItems (s.ranges.count - low) offset {}
  pure { page with end_ := offset + page.entries.length = s.count }

/-- A stored range, with the number of rows up to its end. -/
def encodeRange (range : EntryRange) (total : Nat) : Str :=
  be 8 range.offset ++ (be 8 range.count ++ be 8 total)

/-- The loop of `SelectRanges` over what `Next` returns, which is nothing after the list. -/
def Source.selectLoop (index : Source) :
    List (Except Error EntryRange) → (end_ count : Nat) → DiskRecords → Disk (DiskRecords × Nat)
  | [], _, count, manifest => do
    access fault
    pure (manifest, count)
  | next :: rest, end_, count, manifest => do
    access fault
    let range ← Projection.lift next
    refuse (range.offset < end_ ∨ range.offset > index.records.count ∨
      range.count > index.records.count - range.offset) (invalid "invalid-selection-ranges")
    let end_ := (range.offset + range.count) % 2 ^ 64
    if range.count = 0 then index.selectLoop rest end_ count manifest
    else do
      let count := (count + range.count) % 2 ^ 64
      let manifest ← manifest.append fault (encodeRange range count)
      index.selectLoop rest end_ count manifest

/-- `SelectRanges`; there may be no `Next`. -/
def Source.selectRanges (index : Source) :
    Option (List (Except Error EntryRange)) → Disk Manifest
  | none => throw (invalid "missing-selection-source")
  | some next => do
    access fault
    let manifest ← DiskRecords.create fault
    let selected ← index.selectLoop fault next 0 0 manifest
    DiskRecords.flush fault
    pure ⟨index, selected.1, selected.2⟩

/-- `Select`. -/
def Source.select (index : Source) (ranges : List EntryRange) : Disk Manifest :=
  index.selectRanges fault (some (ranges.map .ok))

/-- `SelectAll`. -/
def Source.selectAll (index : Source) : Disk Manifest :=
  index.select fault [⟨0, index.records.count⟩]

/-- Pages of these sizes are read one after the other until one is the last. -/
def Manifest.readPages (s : Manifest) : List Nat → (offset : Nat) → Disk (List EntryPage)
  | [], _ => pure []
  | size :: sizes, offset => do
    let page ← s.read fault offset size
    if page.end_ then pure [page]
    else do
      let rest ← s.readPages sizes (offset + page.entries.length)
      pure (page :: rest)

end

/-! ## What is selected -/

/-- The rows of the ranges, in order. -/
def rowsOf (ranges : List EntryRange) : List Nat :=
  ranges.flatMap fun range => List.range' range.offset range.count

/-- The number of the rows. -/
def size (ranges : List EntryRange) : Nat := (rowsOf ranges).length

/-- Ranges one after the other behind row `end_` of `n` rows. -/
def Ascending (n : Nat) : Nat → List EntryRange → Prop
  | _, [] => True
  | end_, range :: rest =>
    end_ ≤ range.offset ∧ range.offset + range.count ≤ n ∧
      Ascending n (range.offset + range.count) rest

/-- The records of the ranges. -/
def stored : Nat → List EntryRange → List Str
  | _, [] => []
  | base, range :: rest =>
    encodeRange range (base + range.count) :: stored (base + range.count) rest

theorem size_cons (range : EntryRange) (rest : List EntryRange) :
    size (range :: rest) = range.count + size rest := by
  simp [size, rowsOf]

theorem size_append (as bs : List EntryRange) : size (as ++ bs) = size as + size bs := by
  simp [size, rowsOf]

theorem rowsOf_append (as bs : List EntryRange) : rowsOf (as ++ bs) = rowsOf as ++ rowsOf bs :=
  flatMap_append

theorem size_take_succ {ranges : List EntryRange} {i : Nat} {range : EntryRange}
    (h : ranges[i]? = some range) :
    size (ranges.take (i + 1)) = size (ranges.take i) + range.count := by
  rw [take_add_one, h, size_append]
  simp [size, rowsOf]

theorem size_take_le (ranges : List EntryRange) (i : Nat) : size (ranges.take i) ≤ size ranges := by
  calc size (ranges.take i) ≤ size (ranges.take i) + size (ranges.drop i) := Nat.le_add_right _ _
    _ = size ranges := by rw [← size_append, take_append_drop]

theorem stored_append (base : Nat) (ranges : List EntryRange) (range : EntryRange) :
    stored base (ranges ++ [range]) =
      stored base ranges ++ [encodeRange range (base + size ranges + range.count)] := by
  induction ranges generalizing base with
  | nil => rfl
  | cons r rest ih =>
    rw [cons_append, stored, ih, stored, size_cons, cons_append, Nat.add_assoc base]

theorem length_stored (base : Nat) (ranges : List EntryRange) :
    (stored base ranges).length = ranges.length := by
  induction ranges generalizing base with
  | nil => rfl
  | cons r rest ih => rw [stored, length_cons, ih, length_cons]

theorem stored_getElem? {base : Nat} {ranges : List EntryRange} {i : Nat} {range : EntryRange}
    (h : ranges[i]? = some range) :
    (stored base ranges)[i]? =
      some (encodeRange range (base + size (ranges.take i) + range.count)) := by
  induction ranges generalizing base i with
  | nil => cases h
  | cons r rest ih =>
    cases i with
    | zero => cases h; rfl
    | succ i =>
      rw [stored, getElem?_cons_succ, ih (by simpa using h), take_succ_cons, size_cons,
        Nat.add_assoc base]

namespace Ascending

variable {n end_ : Nat} {ranges : List EntryRange}

theorem le_of_mem (h : Ascending n end_ ranges) {i : Nat} (hi : i ∈ rowsOf ranges) :
    end_ ≤ i ∧ i < n := by
  induction ranges generalizing end_ with
  | nil => cases hi
  | cons r rest ih =>
    obtain ⟨h1, h2, h3⟩ := h
    rw [rowsOf, flatMap_cons, mem_append, mem_range'_1] at hi
    rcases hi with hi | hi
    · omega
    · have := ih h3 hi
      omega

theorem pairwise (h : Ascending n end_ ranges) : (rowsOf ranges).Pairwise (· < ·) := by
  induction ranges generalizing end_ with
  | nil => exact .nil
  | cons r rest ih =>
    obtain ⟨h1, h2, h3⟩ := h
    rw [rowsOf, flatMap_cons, pairwise_append]
    refine ⟨pairwise_lt_range', ih h3, fun a ha b hb => ?_⟩
    have := (h3.le_of_mem hb).1
    rw [mem_range'_1] at ha
    omega

theorem size_le (h : Ascending n end_ ranges) (he : end_ ≤ n) : end_ + size ranges ≤ n := by
  induction ranges generalizing end_ with
  | nil => exact he
  | cons r rest ih =>
    obtain ⟨h1, h2, h3⟩ := h
    have := ih h3 h2
    rw [size_cons]
    omega

theorem fits (h : Ascending n end_ ranges) {range : EntryRange} (hr : range ∈ ranges) :
    range.offset + range.count ≤ n := by
  induction ranges generalizing end_ with
  | nil => cases hr
  | cons r rest ih =>
    obtain ⟨h1, h2, h3⟩ := h
    rcases mem_cons.mp hr with rfl | hr
    · exact h2
    · exact ih h3 hr

end Ascending

/-- The ranges that are stored. -/
def nonempty (ranges : List EntryRange) : List EntryRange :=
  ranges.filter fun range => range.count ≠ 0

theorem Ascending.mono {n a b : Nat} {ranges : List EntryRange} (h : Ascending n b ranges)
    (hab : a ≤ b) : Ascending n a ranges := by
  cases ranges with
  | nil => trivial
  | cons r rest => exact ⟨Nat.le_trans hab h.1, h.2⟩

theorem Ascending.nonempty {n end_ : Nat} {ranges : List EntryRange} (h : Ascending n end_ ranges) :
    Ascending n end_ (nonempty ranges) := by
  induction ranges generalizing end_ with
  | nil => trivial
  | cons r rest ih =>
    obtain ⟨h1, h2, h3⟩ := h
    rw [Selection.nonempty, filter_cons]
    split
    · exact ⟨h1, h2, ih h3⟩
    · exact (ih h3).mono (by omega)

theorem pos_of_mem_nonempty {ranges : List EntryRange} {range : EntryRange}
    (h : range ∈ nonempty ranges) : 0 < range.count := by
  have := (mem_filter.mp h).2
  have : range.count ≠ 0 := by simpa using this
  omega

theorem rowsOf_nonempty (ranges : List EntryRange) : rowsOf (nonempty ranges) = rowsOf ranges := by
  induction ranges with
  | nil => rfl
  | cons r rest ih =>
    rw [nonempty, filter_cons]
    split
    · exact congrArg (range' r.offset r.count ++ ·) ih
    · rename_i h
      have hzero : r.count = 0 := by simpa using h
      exact ih.trans (by rw [rowsOf, rowsOf, flatMap_cons, hzero]; rfl)

/-! ## Selecting -/

theorem lift_yields {α : Type} (x : Except Error α) :
    Yields (fun _ => True) (Projection.lift x) fun a => x = .ok a := by
  cases x with
  | ok a => exact .pure rfl
  | error e => exact .fail trivial

theorem lift_fails {α : Type} {E : Error → Prop} {x : Except Error α}
    (h : ∀ e, x = .error e → E e) :
    Yields E (Projection.lift x) fun a => x = .ok a := by
  cases x with
  | ok a => exact .pure rfl
  | error e => exact .fail (h e rfl)

variable {fault : Nat → Option Error} {index : Source} {rows : List Str}

theorem selectLoop_yields (hrows : index.records.Holds rows) {next : List (Except Error EntryRange)}
    {end_ count : Nat} {manifest : DiskRecords} {before : List EntryRange}
    (hm : manifest.Holds (stored 0 before)) (hcount : count = size before) (hle : count ≤ end_)
    (hend : end_ ≤ rows.length) :
    Yields (fun _ => True) (index.selectLoop fault next end_ count manifest) fun out =>
      ∃ ranges, next = ranges.map .ok ∧ Ascending rows.length end_ ranges ∧
        out.1.Holds (stored 0 (before ++ nonempty ranges)) ∧
        out.2 = size (before ++ nonempty ranges) := by
  induction next generalizing end_ count manifest before with
  | nil =>
    refine .skip (access_yields fault) fun _ => .pure ⟨[], rfl, trivial, ?_, ?_⟩
    · simpa [nonempty] using hm
    · simpa [nonempty] using hcount
  | cons next rest ih =>
    have hfew := hrows.few
    have hlen := hrows.count
    have hmax : maxOffset / 16 + 1 < 2 ^ 64 := by decide
    refine .skip (access_yields fault) fun _ => (lift_yields next).bind fun range hnext =>
      refuse_yields.bind fun _ hok => ?_
    have hin : range.offset + range.count ≤ rows.length := by omega
    have hmod : (range.offset + range.count) % 2 ^ 64 = range.offset + range.count :=
      Nat.mod_eq_of_lt (by omega)
    rw [hmod]
    refine .ite (fun hzero => ?_) fun hpos => ?_
    · refine (ih hm hcount (by omega) hin).weaken ?_
      rintro out ⟨ranges, rfl, hasc, hholds, hsize⟩
      have hskip : nonempty (range :: ranges) = nonempty ranges := by
        rw [nonempty, filter_cons, if_neg (by simpa using hzero)]
        rfl
      exact ⟨range :: ranges, by rw [hnext]; rfl, ⟨by omega, hin, hasc⟩, hskip ▸ hholds,
        hskip ▸ hsize⟩
    · have hc : (count + range.count) % 2 ^ 64 = size before + range.count := by
        rw [hcount]
        exact Nat.mod_eq_of_lt (by omega)
      rw [hc]
      refine (DiskRecords.append_yields hm _).bind fun manifest' hm' => ?_
      have hstored := stored_append 0 before range
      rw [Nat.zero_add] at hstored
      rw [← hstored] at hm'
      have hsize : size before + range.count = size (before ++ [range]) := by
        rw [size_append, size_cons]
        rfl
      refine (ih hm' hsize (by omega) hin).weaken ?_
      rintro out ⟨ranges, rfl, hasc, hholds, hout⟩
      have hkeep : before ++ nonempty (range :: ranges) = before ++ [range] ++ nonempty ranges := by
        rw [nonempty, filter_cons, if_pos (by simpa using hpos), append_assoc]
        rfl
      exact ⟨range :: ranges, by rw [hnext]; rfl, ⟨by omega, hin, hasc⟩, hkeep ▸ hholds,
        hkeep ▸ hout⟩

/-- What `SelectRanges` stores for these ranges of an index. -/
structure Manifest.Selects (s : Manifest) (rows : List Str) (kept : List EntryRange) : Prop where
  source : s.source.records.Holds rows
  manifest : s.ranges.Holds (stored 0 kept)
  total : s.count = size kept
  ascending : Ascending rows.length 0 kept
  pos : ∀ range ∈ kept, 0 < range.count

theorem selectRanges_yields (hrows : index.records.Holds rows)
    (next : Option (List (Except Error EntryRange))) :
    Yields (fun _ => True) (index.selectRanges fault next) fun s =>
      ∃ ranges, next = some (ranges.map .ok) ∧ Ascending rows.length 0 ranges ∧
        s.Selects rows (nonempty ranges) ∧ s.source = index := by
  cases next with
  | none => exact .fail trivial
  | some next =>
    refine .skip (access_yields fault) fun _ => DiskRecords.create_yields.bind fun manifest hm => ?_
    refine (@selectLoop_yields fault index rows hrows next 0 0 manifest [] hm rfl (Nat.le_refl 0)
      (Nat.zero_le _)).bind
      fun out ⟨ranges, hnext, hasc, hholds, hcount⟩ => .skip (access_yields fault) fun _ => .pure ?_
    exact ⟨ranges, by rw [hnext], hasc,
      ⟨hrows, hholds, hcount, hasc.nonempty, fun _ => pos_of_mem_nonempty⟩, rfl⟩

/-! ## Reading a page -/

/-- What a row of the index is decoded to. -/
def entryAt (rows : List Str) (i : Nat) : Except Error EntrySnapshot :=
  decodeEntry (rows.getD i [])

theorem readRows_yields {E : Error → Prop} (hE : ∀ n e, fault n = some e → E e)
    (hrows : index.records.Holds rows) {row left : Nat} (hin : row + left ≤ rows.length)
    (hdecode : ∀ i ∈ List.range' row left, ∀ e, entryAt rows i = .error e → E e) :
    Yields E (index.readRows fault row left) fun entries =>
      entries.map .ok = (List.range' row left).map (entryAt rows) := by
  induction left generalizing row with
  | zero => exact .pure rfl
  | succ left ih =>
    rw [range'_succ] at hdecode ⊢
    have hget : rows[row]? = some (rows.getD row []) := by
      rw [getD_eq_getElem?_getD, getElem?_eq_getElem (by omega), Option.getD_some]
    refine .skip (access_fails hE) fun _ => (DiskRecords.read_row hE hrows hget).bind ?_
    rintro bytes rfl
    refine (lift_fails (hdecode row mem_cons_self)).bind fun entry hentry => ?_
    refine (ih (by omega) fun i hi => hdecode i (mem_cons_of_mem _ hi)).bind
      fun rest hrest => .pure ?_
    rw [map_cons, hrest, map_cons, hentry]

theorem Source.read_yields {E : Error → Prop} (hE : ∀ n e, fault n = some e → E e)
    (hrows : index.records.Holds rows) {offset n : Nat} (hn : 0 < n)
    (hin : offset + n ≤ rows.length)
    (hdecode : ∀ i ∈ List.range' offset n, ∀ e, entryAt rows i = .error e → E e) :
    Yields E (index.read fault offset n) fun page =>
      page.revision = index.revision ∧
        page.entries.map .ok = (List.range' offset n).map (entryAt rows) := by
  have hcount := hrows.count
  have hmin : offset + min (index.records.count - offset) n - offset = n := by omega
  refine .skip (refuse_fails (by omega)) fun _ => .skip (access_fails hE) fun _ => ?_
  dsimp only
  rw [hmin]
  exact (readRows_yields hE hrows hin hdecode).bind fun entries h => .pure ⟨rfl, h⟩

theorem sub64_eq {a b : Nat} (hb : b ≤ a) (ha : a < 2 ^ 64) : sub64 a b = a - b := by
  rw [sub64]
  omega

section

variable {s : Manifest} {kept : List EntryRange} {E : Error → Prop}

theorem Manifest.Selects.lt (h : s.Selects rows kept) : rows.length < 2 ^ 64 := by
  have hfew := h.source.few
  have hlen := h.source.count
  have hmax : maxOffset / 16 + 1 < 2 ^ 64 := by decide
  omega

theorem Manifest.Selects.size_le (h : s.Selects rows kept) : size kept ≤ rows.length := by
  have := h.ascending.size_le (Nat.zero_le _)
  omega

theorem Manifest.Selects.count_eq (h : s.Selects rows kept) : s.ranges.count = kept.length := by
  rw [h.manifest.count, length_stored]

theorem rangeAt_yields (hE : ∀ n e, fault n = some e → E e) (h : s.Selects rows kept) {i : Nat}
    {range : EntryRange} (hi : kept[i]? = some range) :
    Yields E (s.rangeAt fault i) fun r =>
      r = (range.offset, range.count, size (kept.take i) + range.count) := by
  have hlt := h.lt
  have hfit := h.ascending.fits (mem_of_getElem? hi)
  have htotal : size (kept.take i) + range.count ≤ rows.length := by
    rw [← size_take_succ hi]
    exact Nat.le_trans (size_take_le kept _) h.size_le
  have hrow := @stored_getElem? 0 _ _ _ hi
  rw [Nat.zero_add] at hrow
  refine (DiskRecords.read_row hE h.manifest hrow).bind ?_
  rintro bytes rfl
  have hrun : run (do
      let offset ← nat 8
      let count ← nat 8
      let total ← nat 8
      let done ← done
      DataStream.refuse (done = false) (diskError "selection-corrupt")
      pure (offset, count, total)) (encodeRange range (size (kept.take i) + range.count)) =
      .ok (range.offset, range.count, size (kept.take i) + range.count) := by
    refine run_of_ends ((gets_nat (by omega)).ends ((gets_nat (by omega)).ends ?_))
    rw [← append_nil (be 8 _)]
    refine (gets_nat (by omega)).ends (ends_done ?_)
    exact (gets_refuse (by decide)).skip_ends (ends_pure _)
  rw [hrun]
  exact .pure rfl

/-- The search finds the range in which the offset lies. -/
theorem search_yields (hE : ∀ n e, fault n = some e → E e) (h : s.Selects rows kept) {offset : Nat}
    {fuel low high : Nat} (hfuel : high - low ≤ fuel) (hlow : low ≤ high)
    (hhigh : high ≤ kept.length) (hbefore : size (kept.take low) ≤ offset)
    (hbehind : high < kept.length → offset < size (kept.take (high + 1))) :
    Yields E (s.search fault offset fuel low high) fun i =>
      i ≤ kept.length ∧ size (kept.take i) ≤ offset ∧
        (i < kept.length → offset < size (kept.take (i + 1))) := by
  induction fuel generalizing low high with
  | zero =>
    obtain rfl : low = high := by omega
    exact .pure ⟨hhigh, hbefore, hbehind⟩
  | succ fuel ih =>
    refine .ite (fun hlt => ?_) fun hge => ?_
    · have hmid := getElem?_eq_getElem (show low + (high - low) / 2 < kept.length by omega)
      have hnext := size_take_succ hmid
      refine (rangeAt_yields hE h hmid).bind ?_
      rintro range rfl
      refine .ite (fun hle => ?_) fun hgt => ?_
      · exact ih (by omega) (by omega) hhigh (by rw [hnext]; exact hle) hbehind
      · exact ih (by omega) (by omega) (by omega) hbefore fun _ => by
          rw [hnext]
          exact Nat.lt_of_not_le hgt
    · obtain rfl : low = high := by omega
      exact .pure ⟨hhigh, hbefore, hbehind⟩

/-- The rows that are taken from a range, and those behind it. -/
theorem take_drop_range {offset count w room : Nat} (hw : w ≤ count) (rest : List Nat) :
    ((List.range' offset count ++ rest).drop w).take room =
      List.range' (offset + w) (min (count - w) room) ++
        rest.take (room - min (count - w) room) := by
  rw [drop_append_of_le_length (by simpa using hw), take_append, drop_range',
    length_range', Nat.mul_one]
  rcases Nat.le_total (count - w) room with hle | hle
  · rw [Nat.min_eq_left hle, take_range'_of_length_le hle]
  · rw [Nat.min_eq_right hle, take_range'_of_length_ge hle, Nat.sub_self,
      Nat.sub_eq_zero_of_le hle]

theorem collect_yields (hE : ∀ n e, fault n = some e → E e) (h : s.Selects rows kept)
    {maxItems left offset w : Nat} {page : EntryPage} (hleft : left ≤ kept.length)
    (hpos : page.entries.length < maxItems →
      offset = size (kept.take (kept.length - left)) + w ∧
        ∀ range, kept[kept.length - left]? = some range → w < range.count)
    (hrev : page.entries ≠ [] → page.revision = s.source.revision)
    (hdecode : ∀ i ∈ ((rowsOf (kept.drop (kept.length - left))).drop w).take
      (maxItems - page.entries.length), ∀ e, entryAt rows i = .error e → E e) :
    Yields E (s.collect fault maxItems left offset page) fun out =>
      (out.entries ≠ [] → out.revision = s.source.revision) ∧
        out.entries.map .ok = page.entries.map .ok ++
          (((rowsOf (kept.drop (kept.length - left))).drop w).take
            (maxItems - page.entries.length)).map (entryAt rows) := by
  induction left generalizing offset w page with
  | zero =>
    refine .pure ⟨hrev, ?_⟩
    rw [Nat.sub_zero, drop_length]
    simp [rowsOf]
  | succ left ih =>
    refine .ite (fun hroom => ?_) fun hfull => .pure ⟨hrev, ?_⟩
    · obtain ⟨hoff, hw⟩ := hpos hroom
      obtain ⟨range, hget⟩ : ∃ range, kept[kept.length - (left + 1)]? = some range :=
        ⟨_, getElem?_eq_getElem (by omega)⟩
      have hw := hw range hget
      have hdrop : kept.drop (kept.length - (left + 1)) =
          range :: kept.drop (kept.length - left) := by
        rw [drop_eq_getElem_cons (by omega)]
        obtain ⟨hlt, heq⟩ := List.getElem?_eq_some_iff.mp hget
        rw [heq, show kept.length - (left + 1) + 1 = kept.length - left by omega]
      have hlt := h.lt
      have hfit := h.ascending.fits (mem_of_getElem? hget)
      have hnext := size_take_succ hget
      rw [show kept.length - (left + 1) + 1 = kept.length - left by omega] at hnext
      have htotal := Nat.le_trans (size_take_le kept (kept.length - left)) h.size_le
      rw [hdrop, rowsOf, flatMap_cons, take_drop_range (Nat.le_of_lt hw)] at hdecode ⊢
      rw [h.count_eq]
      refine (rangeAt_yields hE h hget).bind ?_
      rintro r rfl
      have hwithin : sub64 offset (sub64 (size (kept.take (kept.length - (left + 1))) + range.count)
          range.count) = w := by
        have hinner : sub64 (size (kept.take (kept.length - (left + 1))) +
          range.count) range.count =
            size (kept.take (kept.length - (left + 1))) := by
          rw [sub64_eq (by omega) (by omega)]
          omega
        rw [hinner, sub64_eq (by omega) (by omega)]
        omega
      have hrest : sub64 range.count w = range.count - w := sub64_eq (by omega) (by omega)
      dsimp only
      rw [hwithin, hrest]
      generalize hn : min (range.count - w) (maxItems - page.entries.length) = n at hdecode ⊢
      rw [Nat.mod_eq_of_lt (show range.offset + w < 2 ^ 64 by omega),
        Nat.mod_eq_of_lt (show offset + n < 2 ^ 64 by omega)]
      refine (Source.read_yields hE h.source (by omega) (by omega) fun i hi =>
        hdecode i (mem_append_left _ hi)).bind fun part ⟨hpart, hentries⟩ => ?_
      have hlen : part.entries.length = n := by
        have := congrArg length hentries
        simpa using this
      have hmax : maxItems - (page.entries ++ part.entries).length =
          maxItems - page.entries.length - n := by
        rw [length_append]
        omega
      refine (@ih _ 0
        { page with revision := part.revision, entries := page.entries ++ part.entries } (by omega)
        (fun hmore => ⟨?_, fun r hr => h.pos r (mem_of_getElem? hr)⟩)
        (fun _ => hpart) fun i hi => hdecode i (mem_append_right _ ?_)).weaken ?_
      · have hmore : (page.entries ++ part.entries).length < maxItems := hmore
        rw [length_append] at hmore
        omega
      · dsimp only at hi
        rw [drop_zero, hmax] at hi
        exact hi
      · rintro out ⟨hout, heq⟩
        refine ⟨hout, heq.trans ?_⟩
        rw [drop_zero, hmax, map_append, hentries, map_append, append_assoc]
        rfl
    · rw [Nat.sub_eq_zero_of_le (Nat.le_of_not_lt hfull), take_zero]
      simp

theorem read_yields (hE : ∀ n e, fault n = some e → E e) (h : s.Selects rows kept)
    {offset maxItems : Nat} (hn : 0 < maxItems) (hin : offset ≤ s.count)
    (hdecode : ∀ i ∈ slice (rowsOf kept) offset (offset + maxItems), ∀ e,
      entryAt rows i = .error e → E e) :
    Yields E (s.read fault offset maxItems) fun page =>
      (page.entries ≠ [] → page.revision = s.source.revision) ∧
        page.entries.map .ok =
          (slice (rowsOf kept) offset (offset + maxItems)).map (entryAt rows) ∧
        (page.end_ = true ↔ s.count ≤ offset + maxItems) := by
  refine .skip (refuse_fails (by omega)) fun _ => .skip (access_fails hE) fun _ => ?_
  rw [h.count_eq]
  refine (search_yields hE h (by omega) (Nat.zero_le _) (Nat.le_refl _) (Nat.zero_le _)
    (fun hlt => absurd hlt (Nat.lt_irrefl _))).bind fun low ⟨hlow, hbefore, hbehind⟩ => ?_
  have hrow : kept.length - (kept.length - low) = low := by omega
  have hsplit : rowsOf kept = rowsOf (kept.take low) ++ rowsOf (kept.drop low) := by
    rw [← rowsOf_append, take_append_drop]
  -- The rows wanted lie behind those of the ranges before `low`.
  have hslice : slice (rowsOf kept) offset (offset + maxItems) =
      ((rowsOf (kept.drop low)).drop (offset - size (kept.take low))).take maxItems := by
    rw [slice, hsplit, drop_append, drop_of_length_le hbefore, nil_append,
      Nat.add_sub_cancel_left]
    rfl
  rw [hslice] at hdecode ⊢
  refine (collect_yields hE h (w := offset - size (kept.take low)) (by omega) (fun _ => ?_)
    (fun hne => absurd rfl hne) (by rw [hrow]; exact hdecode)).bind fun page hpage => .pure ?_
  · rw [hrow]
    refine ⟨by omega, fun range hr => ?_⟩
    have := hbehind (List.getElem?_eq_some_iff.mp hr).1
    rw [size_take_succ hr] at this
    omega
  · obtain ⟨hrev, hentries⟩ := hpage
    rw [hrow, map_nil, nil_append] at hentries
    refine ⟨hrev, hentries, ?_⟩
    have hlen : page.entries.length = min (s.count - offset) maxItems := by
      have := congrArg length (hentries.trans (congrArg _ hslice.symm))
      rw [length_map, length_map, slice, length_take, length_drop] at this
      rw [this, Nat.add_sub_cancel_left, Nat.min_comm, h.total, size]
    rw [decide_eq_true_eq, hlen]
    omega

/-- Pages up to one that ends, or as many as there are sizes. -/
theorem readPages_yields (hE : ∀ n e, fault n = some e → E e) (h : s.Selects rows kept)
    (hdecode : ∀ i ∈ rowsOf kept, ∀ e, entryAt rows i = .error e → E e) {sizes : List Nat}
    (hpos : ∀ n ∈ sizes, 0 < n) {offset : Nat} (hin : offset ≤ s.count) :
    Yields E (s.readPages fault sizes offset) fun pages =>
      (pages.flatMap (·.entries)).map .ok =
          (slice (rowsOf kept) offset (offset + sizes.sum)).map (entryAt rows) ∧
        ((∃ page ∈ pages, page.end_ = true) ↔ sizes ≠ [] ∧ s.count ≤ offset + sizes.sum) := by
  have htotal := h.total
  rw [size] at htotal
  induction sizes generalizing offset with
  | nil => exact .pure ⟨by simp, by simp⟩
  | cons n sizes ih =>
    obtain ⟨hn, hpos⟩ := forall_mem_cons.mp hpos
    have hsum : (n :: sizes).sum = n + sizes.sum := sum_cons
    refine (read_yields hE h hn hin fun i hi =>
      hdecode i (mem_of_mem_drop (mem_of_mem_take hi))).bind
      fun page hp => ?_
    obtain ⟨-, hentries, hend⟩ := hp
    refine .ite (fun hlast => .pure ?_) fun hmore => ?_
    · have hle := hend.mp hlast
      refine ⟨?_, ⟨fun _ => ⟨cons_ne_nil _ _, by omega⟩, fun _ => ⟨page, by simp, hlast⟩⟩⟩
      rw [flatMap_singleton, hentries, slice, slice, take_of_length_le,
        take_of_length_le]
      all_goals rw [length_drop]; omega
    · have hlt : offset + n < s.count := Nat.lt_of_not_le fun hle => hmore (hend.mpr hle)
      have hlen : page.entries.length = n := by
        have := congrArg length hentries
        rw [length_map, length_map, length_slice (by omega)] at this
        omega
      rw [hlen]
      refine (ih hpos (by omega)).bind fun rest hr => .pure ?_
      obtain ⟨hrest, hends⟩ := hr
      refine ⟨?_, ?_⟩
      · rw [flatMap_cons, map_append, hentries, hrest, ← map_append,
          slice_append (by omega) (by omega), hsum, Nat.add_assoc]
      · rw [exists_mem_cons_iff, hends]
        have hne : sizes = [] → sizes.sum = 0 := by rintro rfl; rfl
        constructor
        · rintro (hp | ⟨-, hle⟩)
          · exact absurd hp hmore
          · exact ⟨cons_ne_nil _ _, by omega⟩
        · rintro ⟨-, hle⟩
          exact .inr ⟨fun hnil => by have := hne hnil; omega, by omega⟩

end

/-- Why a read of these rows of an index fails. -/
def ReadFails (fault : Nat → Option Error) (rows : List Str) (wanted : List Nat) (e : Error) :
    Prop :=
  (∃ n, fault n = some e) ∨ ∃ i ∈ wanted, entryAt rows i = .error e

/-- Whatever ranges `SelectRanges` accepts, a page is the slice of the rows of the ranges that was
asked for and says whether it reaches the end, and pages that are read from the start until the end
enumerate the rows of the ranges, each of them once. A read of a page inside the selection fails
only when the disk does or a row of the page cannot be decoded. -/
theorem selection_pages_exactly (index : PagedEntryIndex) (revision : Option Str)
    (fault : Nat → Option Error) (next : Option (List (Except Error EntryRange))) :
    ∃ rows, index.records.Holds rows ∧
      Yields (fun _ => True) (Source.selectRanges fault ⟨index.records, revision⟩ next) fun s =>
        ∃ ranges, next = some (ranges.map .ok) ∧ s.count = (rowsOf ranges).length ∧
          (rowsOf ranges).Pairwise (· < ·) ∧ (∀ i ∈ rowsOf ranges, i < rows.length) ∧
          (∀ fault offset maxItems,
            let wanted := slice (rowsOf ranges) offset (offset + maxItems)
            Yields (fun e => ReadFails fault rows wanted e ∨
                (maxItems = 0 ∨ s.count < offset) ∧ e = invalid "selection-page-out-of-range")
              (s.read fault offset maxItems) fun page =>
                0 < maxItems ∧ offset ≤ s.count ∧
                page.entries.map .ok = wanted.map (entryAt rows) ∧
                (page.end_ = true ↔ s.count ≤ offset + maxItems)) ∧
          ∀ fault sizes, (∀ n ∈ sizes, 0 < n) →
            Yields (ReadFails fault rows (rowsOf ranges)) (s.readPages fault sizes 0) fun pages =>
              ((∃ page ∈ pages, page.end_ = true) →
                (pages.flatMap (·.entries)).map .ok = (rowsOf ranges).map (entryAt rows)) ∧
              ((∃ page ∈ pages, page.end_ = true) ↔ sizes ≠ [] ∧ s.count ≤ sizes.sum) := by
  obtain ⟨rows, hrows⟩ := index.wf
  refine ⟨rows, hrows,
    (@selectRanges_yields fault ⟨index.records, revision⟩ rows hrows next).weaken ?_⟩
  rintro s ⟨ranges, hnext, hasc, h, -⟩
  have hrowsOf := rowsOf_nonempty ranges
  have htotal : s.count = (rowsOf ranges).length := by rw [h.total, size, hrowsOf]
  refine ⟨ranges, hnext, htotal, hasc.pairwise, fun i hi => (hasc.le_of_mem hi).2,
    fun fault offset maxItems => ?_, fun fault sizes hpos => ?_⟩
  · rcases Decidable.em (maxItems = 0 ∨ offset > s.count) with hbad | hgood
    · unfold Manifest.read
      rw [refuse, if_pos hbad]
      exact .bind (Q := fun _ => False) (.fail (.inr ⟨hbad, rfl⟩)) fun _ hf => hf.elim
    · refine (read_yields (fun n e hn => .inl (.inl ⟨n, hn⟩)) h (by omega) (by omega)
        fun i hi e he => .inl (.inr ⟨i, hrowsOf ▸ hi, he⟩)).weaken ?_
      rintro page ⟨-, hentries, hend⟩
      exact ⟨by omega, by omega, hrowsOf ▸ hentries, hend⟩
  · refine (readPages_yields (fun n e hn => .inl ⟨n, hn⟩) h
      (fun i hi e he => .inr ⟨i, hrowsOf ▸ hi, he⟩) hpos (Nat.zero_le _)).weaken ?_
    rintro pages ⟨hentries, hends⟩
    rw [Nat.zero_add] at hentries hends
    refine ⟨fun hend => ?_, hends⟩
    rw [hentries, hrowsOf, slice_zero, take_of_length_le (by have := (hends.mp hend).2; omega)]

end Hc.Storage.Selection
