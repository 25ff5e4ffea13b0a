import HyperCommander.Storage.DiskRecords

/-!
# Pointers to outcomes (`UniqueLibs/qtOutcomePointerIndex.hpp`)

The position and size of the last record of each row, either behind one cached page of a temporary
file or in a file of records. The temporary files themselves do not fail.

* `Holds`: the index stands for a list of pointers.
* `update_holds`, `read_holds`: the operations in terms of that list.
-/

namespace Hc.Operations.DurableLog

open Option List Storage

/-- `Pointer`: a position and a size. -/
abbrev Pointer := Nat × Nat

def rowsPerPage : Nat := 4096

def pageBytes : Nat := rowsPerPage * 16

def int64Max : Nat := 2 ^ 63 - 1

/-- `failure`. -/
def indexFailure : Error := ⟨.unavailable, "outcome-index-io", false⟩

/-- The rows of a list with one more, or with one replaced. -/
def place {α : Type} (l : List α) (row : Nat) (a : α) : List α :=
  if row = l.length then l ++ [a] else l.set row a

def blankPage : List Pointer := List.replicate rowsPerPage (0, 0)

/-- The buffered form: the pages of the file and the one that is held. -/
structure PageIndex where
  file : List (List Pointer) := []
  page : List Pointer := blankPage
  dirty : Bool := false
  count : Nat := 0
  /-- `pageNumber_`; none before the first page is loaded. -/
  pageNumber : Option Nat := none

namespace PageIndex

/-- Writes a page; the gap behind the end of the file reads as zeros. -/
def writePage (file : List (List Pointer)) (n : Nat) (page : List Pointer) :
    List (List Pointer) :=
  (file ++ List.replicate (n + 1 - file.length) blankPage).set n page

/-- The held page goes back to the file. -/
def flush (s : PageIndex) : PageIndex :=
  match s.pageNumber with
  | some n => if s.dirty then { s with file := writePage s.file n s.page, dirty := false } else s
  | none => s

/-- `load`. -/
def load (s : PageIndex) (n : Nat) : Except Error PageIndex :=
  if s.pageNumber = some n then .ok s
  else if n > int64Max / pageBytes then .error indexFailure
  else
    let s := s.flush
    if n * rowsPerPage < s.count then
      match s.file[n]? with
      | some page => .ok { s with page := page, pageNumber := some n }
      | none => .error indexFailure
    else .ok { s with page := blankPage, pageNumber := some n }

/-- `Update` of the buffered form. -/
def update (s : PageIndex) (row : Nat) (p : Pointer) : Except Error PageIndex := do
  if row > s.count then .error indexFailure
  else
    let s ← s.load (row / rowsPerPage)
    pure { s with
      page := s.page.set (row % rowsPerPage) p
      dirty := true
      count := if row = s.count then s.count + 1 else s.count }

/-- `Read` of the buffered form. -/
def read (s : PageIndex) (row : Nat) : Except Error (Pointer × PageIndex) := do
  if row ≥ s.count then .error indexFailure
  else
    let s ← s.load (row / rowsPerPage)
    match s.page[row % rowsPerPage]? with
    | some p => pure (p, s)
    | none => .error indexFailure

end PageIndex

/-- `OutcomePointerIndex`. -/
inductive PointerIndex
  | buffered (s : PageIndex)
  | legacy (r : DiskRecords)

namespace PointerIndex

/-- Work on a file of records that does not fail. -/
def onDisk {α : Type} (m : Disk α) : Except Error α := (m.run 0).map Prod.fst

/-- `Open`. -/
def open_ (isBuffered : Bool) : PointerIndex :=
  if isBuffered then .buffered {} else .legacy {}

/-- `Count`. -/
def count : PointerIndex → Nat
  | .buffered s => s.count
  | .legacy r => r.count

/-- `Update`. -/
def update (x : PointerIndex) (row position size : Nat) : Except Error PointerIndex :=
  match x with
  | .legacy r =>
    let bytes := Bytes.be 8 position ++ Bytes.be 8 size
    if row = r.count then (onDisk (r.append (fun _ => none) bytes)).map .legacy
    else (onDisk (r.replace (fun _ => none) row bytes)).map .legacy
  | .buffered s => (s.update row (position, size)).map .buffered

/-- `Read`. -/
def read (x : PointerIndex) (row : Nat) : Except Error (Pointer × PointerIndex) :=
  if row ≥ x.count then .error indexFailure
  else
    match x with
    | .legacy r => do
      let bytes ← onDisk (r.read (fun _ => none) row)
      if bytes.length ≠ 16 then .error indexFailure
      else pure ((Bytes.ofBE (bytes.take 8), Bytes.ofBE (bytes.drop 8)), x)
    | .buffered s => (s.read row).map fun r => (r.1, .buffered r.2)

end PointerIndex

/-! ### Rows -/

section Place

variable {α β : Type} {l : List α} {row : Nat} {a : α}

theorem length_place :
    (place l row a).length = if row = l.length then l.length + 1 else l.length := by
  unfold place
  split
  · rw [length_append, length_singleton]
  · rw [length_set]

theorem getElem?_place (h : row ≤ l.length) (i : Nat) :
    (place l row a)[i]? = if i = row then some a else l[i]? := by
  unfold place
  split
  · rename_i he
    rcases Nat.lt_trichotomy i l.length with hi | hi | hi
    · rw [getElem?_append_left hi, if_neg (by omega)]
    · rw [hi, if_pos (by omega), getElem?_concat_length]
    · have hl : (l ++ [a]).length ≤ i := by
        rw [length_append, length_singleton]
        omega
      rw [if_neg (by omega), getElem?_eq_none hl, getElem?_eq_none (Nat.le_of_lt hi)]
  · rename_i hne
    by_cases hi : i = row
    · rw [if_pos hi, hi, getElem?_set_self (by omega)]
    · rw [if_neg hi, getElem?_set_ne (Ne.symm hi)]

end Place

/-! ### The buffered form -/

namespace PageIndex

/-- The pointer of a row, held or in the file. -/
def at_ (s : PageIndex) (row : Nat) : Option Pointer :=
  if s.pageNumber = some (row / rowsPerPage) then s.page[row % rowsPerPage]?
  else s.file[row / rowsPerPage]?.bind fun page => page[row % rowsPerPage]?

/-- The index stands for the pointers. -/
structure Holds (s : PageIndex) (ps : List Pointer) : Prop where
  count : s.count = ps.length
  page : s.page.length = rowsPerPage
  pages : ∀ page ∈ s.file, page.length = rowsPerPage
  /-- A page that is held and was not changed is the one in the file. -/
  clean : ∀ n, s.pageNumber = some n → s.dirty = false → s.file[n]? = some s.page
  /-- Every other page with rows is in the file. -/
  full : ∀ n, n * rowsPerPage < s.count → s.pageNumber ≠ some n → n < s.file.length
  row : ∀ i p, ps[i]? = some p → s.at_ i = some p

variable {s : PageIndex} {ps : List Pointer}

theorem rowsPerPage_pos : 0 < rowsPerPage := by decide

theorem holds_empty : Holds {} [] where
  count := rfl
  page := length_replicate
  pages _ h := absurd h not_mem_nil
  clean _ h := by cases h
  full _ h := absurd h (Nat.not_lt_zero _)
  row i p h := by simp at h

variable {file : List (List Pointer)} {n : Nat} {page : List Pointer}

theorem getElem?_writePage :
    (writePage file n page)[n]? = some page := by
  rw [writePage, getElem?_set_self]
  rw [length_append, length_replicate]
  omega

theorem getElem?_writePage_of_lt {m : Nat}
    (hne : m ≠ n) (hm : m < file.length) : (writePage file n page)[m]? = file[m]? := by
  rw [writePage, getElem?_set_ne (Ne.symm hne), getElem?_append_left hm]

theorem length_writePage :
    (writePage file n page).length = max file.length (n + 1) := by
  rw [writePage, length_set, length_append, length_replicate]
  omega

theorem mem_writePage {q : List Pointer}
    (h : q ∈ writePage file n page) : q ∈ file ∨ q = blankPage ∨ q = page := by
  rcases mem_or_eq_of_mem_set h with h | h
  · rcases mem_append.1 h with h | h
    · exact .inl h
    · exact .inr (.inl (eq_of_mem_replicate h))
  · exact .inr (.inr h)

/-- After the held page went back, the file has every page with rows. -/
theorem Holds.flush (h : s.Holds ps) :
    s.flush.count = s.count ∧ (∀ page ∈ s.flush.file, page.length = rowsPerPage) ∧
      (∀ n, n * rowsPerPage < s.count → n < s.flush.file.length) ∧
      ∀ i p, ps[i]? = some p →
        (s.flush.file[i / rowsPerPage]?.bind fun page => page[i % rowsPerPage]?) = some p := by
  cases hn : s.pageNumber with
  | none =>
    have hf : s.flush = s := by rw [PageIndex.flush, hn]
    rw [hf]
    refine ⟨rfl, h.pages, fun n hlt => h.full n hlt (by rw [hn]; exact nofun), fun i p hi => ?_⟩
    have hr := h.row i p hi
    rwa [at_, hn, if_neg nofun] at hr
  | some m =>
    by_cases hd : s.dirty
    · have hf : s.flush = { s with file := writePage s.file m s.page, dirty := false } := by
        simp only [PageIndex.flush, hn, hd, if_true]
      rw [hf]
      refine ⟨rfl, ?_, ?_, ?_⟩
      · intro page hp
        rcases mem_writePage hp with hp | rfl | rfl
        · exact h.pages page hp
        · exact length_replicate
        · exact h.page
      · intro n hlt
        rw [length_writePage]
        by_cases hnm : n = m
        · omega
        · have hl := h.full n hlt (by rw [hn]; exact fun he => hnm (some.inj he).symm)
          omega
      · intro i p hi
        have hr := h.row i p hi
        rw [at_, hn] at hr
        by_cases him : i / rowsPerPage = m
        · rw [him, if_pos rfl] at hr
          rw [him, getElem?_writePage]
          exact hr
        · rw [if_neg (fun he => him (some.inj he).symm)] at hr
          have hl : i / rowsPerPage < s.file.length := by
            cases hg : s.file[i / rowsPerPage]? with
            | none => rw [hg] at hr; cases hr
            | some page => exact (List.getElem?_eq_some_iff.1 hg).1
          rw [getElem?_writePage_of_lt him hl]
          exact hr
    · have hd : s.dirty = false := Bool.eq_false_iff.2 hd
      have hf : s.flush = s := by
        simp only [PageIndex.flush, hn, hd, Bool.false_eq_true, if_false]
      rw [hf]
      have hclean := h.clean m hn hd
      refine ⟨rfl, h.pages, fun n hlt => ?_, fun i p hi => ?_⟩
      · by_cases hnm : n = m
        · rw [hnm]
          exact (List.getElem?_eq_some_iff.1 hclean).1
        · exact h.full n hlt (by rw [hn]; exact fun he => hnm (some.inj he).symm)
      · have hr := h.row i p hi
        rw [at_, hn] at hr
        by_cases him : i / rowsPerPage = m
        · rw [him, if_pos rfl] at hr
          rw [him, hclean]
          exact hr
        · rwa [if_neg (fun he => him (some.inj he).symm)] at hr

/-- Loading a page changes neither the rows nor what stays in the file. -/
theorem load_holds (h : s.Holds ps) (hn : n ≤ int64Max / pageBytes) :
    ∃ s', s.load n = .ok s' ∧ s'.pageNumber = some n ∧ s'.count = s.count ∧
      s'.page.length = rowsPerPage ∧ (∀ page ∈ s'.file, page.length = rowsPerPage) ∧
      (n * rowsPerPage < s.count → s'.dirty = false → s'.file[n]? = some s'.page) ∧
      (∀ m, m * rowsPerPage < s.count → m ≠ n → m < s'.file.length) ∧
      ∀ i p, ps[i]? = some p → s'.at_ i = some p := by
  by_cases he : s.pageNumber = some n
  · refine ⟨s, by rw [load, if_pos he], he, rfl, h.page, h.pages, fun _ => h.clean n he, ?_, h.row⟩
    intro m hm hne
    exact h.full m hm (by rw [he]; exact fun heq => hne (some.inj heq).symm)
  · obtain ⟨hc, hp, hf, hr⟩ := h.flush
    by_cases hlt : n * rowsPerPage < s.count
    · have hl := hf n hlt
      obtain ⟨page, hg⟩ : ∃ page, s.flush.file[n]? = some page :=
        ⟨_, getElem?_eq_getElem hl⟩
      refine ⟨{ s.flush with page := page, pageNumber := some n }, ?_, rfl, hc, ?_, hp,
        fun _ _ => hg, fun m hm _ => hf m hm, fun i p hi => ?_⟩
      · simp only [load, if_neg he, if_neg (Nat.not_lt.2 hn), hc, if_pos hlt, hg]
      · exact hp page (mem_of_getElem? hg)
      · have hri := hr i p hi
        simp only [at_]
        by_cases hin : i / rowsPerPage = n
        · rw [hin, if_pos rfl]
          rwa [hin, hg] at hri
        · rw [if_neg (fun heq => hin (some.inj heq).symm)]
          exact hri
    · refine ⟨{ s.flush with page := blankPage, pageNumber := some n }, ?_, rfl, hc,
        length_replicate, hp, fun hn => absurd hn hlt, fun m hm _ => hf m hm,
        fun i p hi => ?_⟩
      · simp only [load, if_neg he, if_neg (Nat.not_lt.2 hn), hc, if_neg hlt]
      · have hi' : i < ps.length := (List.getElem?_eq_some_iff.1 hi).1
        have hin : i / rowsPerPage ≠ n := by
          intro heq
          have hle := Nat.div_mul_le_self i rowsPerPage
          rw [heq, h.count] at *
          omega
        simp only [at_]
        rw [if_neg (fun heq => hin (some.inj heq).symm)]
        exact hr i p hi

/-- A row that is there, or the next one, has a page that the file can hold. -/
theorem page_le {row : Nat} (h : row < int64Max / 16) :
    row / rowsPerPage ≤ int64Max / pageBytes := by
  unfold pageBytes int64Max rowsPerPage at *
  omega

theorem update_holds (h : s.Holds ps) {row : Nat} (hrow : row ≤ ps.length)
    (hmax : row < int64Max / 16) (p : Pointer) :
    ∃ s', s.update row p = .ok s' ∧ s'.Holds (place ps row p) := by
  have hpos := rowsPerPage_pos
  obtain ⟨s', hl, hn, hc, hpage, hpages, -, hfull, hr⟩ := load_holds h (page_le hmax)
  have hle : ¬ row > s.count := by rw [h.count]; omega
  have hmod : row % rowsPerPage < s'.page.length := by
    rw [hpage]
    exact Nat.mod_lt _ hpos
  refine ⟨{ s' with
    page := s'.page.set (row % rowsPerPage) p
    dirty := true
    count := if row = s'.count then s'.count + 1 else s'.count },
    by rw [update, if_neg hle, hl]; rfl, ?_⟩
  constructor
  · rw [length_place]
    rw [hc, h.count]
  · show (s'.page.set _ _).length = _
    rw [length_set, hpage]
  · exact hpages
  · intro n _ hd
    cases hd
  · intro m hm hne
    have hmn : m ≠ row / rowsPerPage := by
      rintro rfl
      exact hne hn
    refine hfull m ?_ hmn
    have hm' : m * rowsPerPage < if row = s'.count then s'.count + 1 else s'.count := hm
    rw [hc] at hm'
    split at hm'
    · rename_i heq
      rcases Nat.lt_or_ge (m * rowsPerPage) s.count with hlt | hge
      · exact hlt
      · exact absurd (by rw [heq, show s.count = m * rowsPerPage by omega,
          Nat.mul_div_cancel _ hpos]) hmn
    · exact hm'
  · intro i q hi
    rw [getElem?_place hrow] at hi
    simp only [at_, hn]
    by_cases hir : i = row
    · rw [if_pos hir, some.injEq] at hi
      rw [hir, if_pos rfl, getElem?_set_self hmod, hi]
    · rw [if_neg hir] at hi
      have hri := hr i q hi
      rw [at_, hn] at hri
      by_cases hpg : some (row / rowsPerPage) = some (i / rowsPerPage)
      · rw [if_pos hpg] at hri ⊢
        have hne : row % rowsPerPage ≠ i % rowsPerPage := by
          intro heq
          apply hir
          have h1 := Nat.div_add_mod i rowsPerPage
          have h2 := Nat.div_add_mod row rowsPerPage
          rw [some.inj hpg, heq] at h2
          omega
        rw [getElem?_set_ne hne]
        exact hri
      · rw [if_neg hpg] at hri ⊢
        exact hri

theorem read_holds (h : s.Holds ps) {row : Nat} {p : Pointer} (hrow : ps[row]? = some p)
    (hmax : row < int64Max / 16) : ∃ s', s.read row = .ok (p, s') ∧ s'.Holds ps := by
  have hlt : row < ps.length := (List.getElem?_eq_some_iff.1 hrow).1
  obtain ⟨s', hl, hn, hc, hpage, hpages, hclean, hfull, hr⟩ := load_holds h (page_le hmax)
  have hri := hr row p hrow
  rw [at_, if_pos hn] at hri
  refine ⟨s', ?_, hc.trans h.count, hpage, hpages, ?_, ?_, hr⟩
  · have hge : ¬ row ≥ s.count := by rw [h.count]; omega
    rw [read, if_neg hge, hl]
    show (match s'.page[row % rowsPerPage]? with
      | some p => (pure (p, s') : Except Error _)
      | none => Except.error indexFailure) = _
    rw [hri]
    rfl
  · intro n hn' hd
    rw [hn] at hn'
    obtain rfl := some.inj hn'
    refine hclean ?_ hd
    rw [h.count]
    exact Nat.lt_of_le_of_lt (Nat.div_mul_le_self row rowsPerPage) hlt
  · intro m hm hne
    rw [hc] at hm
    exact hfull m hm fun heq => hne (by rw [hn, heq])

end PageIndex

/-! ### Both forms -/

namespace PointerIndex

/-- A record of a pointer. -/
def record (p : Pointer) : Str := Bytes.be 8 p.1 ++ Bytes.be 8 p.2

/-- The index stands for the pointers after so many updates. -/
def Holds : PointerIndex → List Pointer → Nat → Prop
  | .buffered s, ps, _ => s.Holds ps
  | .legacy r, ps, updates => r.Holds (ps.map record) ∧ r.end_ = 16 * updates

theorem length_record (p : Pointer) : (record p).length = 16 := by
  rw [record, length_append, Bytes.length_be, Bytes.length_be]

theorem access_bind {α : Type} (m : Unit → Disk α) (n : Nat) :
    (access (fun _ => none) >>= m).run n = (m ()).run (n + 1) := rfl

theorem refuse_bind {α : Type} {c : Prop} [Decidable c] {e : Error} (h : ¬ c)
    (m : Unit → Disk α) (n : Nat) : (Storage.refuse c e >>= m).run n = (m ()).run n := by
  rw [Storage.refuse, if_neg h]
  rfl

/-- A write of a record that fits goes through. -/
theorem write_run {r : DiskRecords} {row : Nat} {bytes : Str}
    (hend : bytes.length ≤ maxOffset - r.end_) (hrow : row ≤ maxOffset / 16) (n : Nat) :
    ∃ r', (r.write (fun _ => none) row bytes).run n = .ok (r', n + 2) ∧
      r'.end_ = r.end_ + bytes.length := by
  refine ⟨{ r with
    data := overwrite r.data r.end_ bytes
    end_ := r.end_ + bytes.length
    offsets := overwrite r.offsets (row * 16) (Bytes.be 8 r.end_ ++ Bytes.be 8 bytes.length) },
    ?_, rfl⟩
  rw [DiskRecords.write, refuse_bind (Nat.not_lt.2 hend), access_bind,
    refuse_bind (Nat.not_lt.2 hrow), access_bind]
  rfl

variable {x : PointerIndex} {ps : List Pointer} {updates : Nat}

theorem open_holds (isBuffered : Bool) : (open_ isBuffered).Holds [] 0 := by
  cases isBuffered
  · exact ⟨.empty, rfl⟩
  · exact PageIndex.holds_empty

theorem Holds.count_eq (h : x.Holds ps updates) : x.count = ps.length := by
  cases x with
  | buffered s => exact PageIndex.Holds.count h
  | legacy r => exact h.1.count.trans (length_map _)

theorem map_place {α β : Type} (f : α → β) (l : List α) (row : Nat) (a : α) :
    (place l row a).map f = place (l.map f) row (f a) := by
  rw [place, place, length_map, apply_ite (map f), map_append, map_singleton,
    map_set]

/-- The pointer of a row that is there, or of the next one, is set. -/
theorem update_holds (h : x.Holds ps updates) {row : Nat} (hrow : row ≤ ps.length)
    (hmax : row < int64Max / 16) (hup : updates < int64Max / 16) (p : Pointer) :
    ∃ x', x.update row p.1 p.2 = .ok x' ∧ x'.Holds (place ps row p) (updates + 1) := by
  cases x with
  | buffered s =>
    obtain ⟨s', hs, hh⟩ := PageIndex.update_holds h hrow hmax p
    exact ⟨.buffered s', by rw [update, hs]; rfl, hh⟩
  | legacy r =>
    obtain ⟨hr, hend⟩ := h
    have hcount : r.count = ps.length := hr.count.trans (length_map _)
    have hlen := length_record p
    have hfits : (record p).length ≤ maxOffset - r.end_ := by
      rw [hlen, hend]
      unfold int64Max at hup
      unfold maxOffset
      omega
    have hfew : row ≤ maxOffset / 16 := Nat.le_of_lt hmax
    obtain ⟨w, hw, hwend⟩ := write_run hfits hfew 0
    have hend' : w.end_ = 16 * (updates + 1) := by rw [hwend, hend, hlen]; omega
    by_cases he : row = r.count
    · have happ : (r.append (fun _ => none) (record p)).run 0 =
          .ok ({ w with count := w.count + 1 }, 2) := by
        rw [DiskRecords.append, StateT.run_bind, ← he, hw]
        rfl
      have hh := (DiskRecords.append_yields hr (record p)).of_ok happ
      refine ⟨.legacy { w with count := w.count + 1 }, ?_, ?_, hend'⟩
      · show (if row = r.count then (onDisk (r.append (fun _ => none) (record p))).map
          PointerIndex.legacy else _) = _
        rw [if_pos he, onDisk, happ]
        rfl
      · rw [map_place, place, if_pos (by rw [length_map, he, hcount])]
        exact hh
    · have hlt : row < r.count := by omega
      have hrep : (r.replace (fun _ => none) row (record p)).run 0 = .ok (w, 2) := by
        rw [DiskRecords.replace, refuse_bind (by omega)]
        exact hw
      have hh := (DiskRecords.replace_yields hr row (record p)).of_ok hrep
      refine ⟨.legacy w, ?_, ?_, hend'⟩
      · show (if row = r.count then _ else (onDisk (r.replace (fun _ => none) row (record p))).map
          PointerIndex.legacy) = _
        rw [if_neg he, onDisk, hrep]
        rfl
      · rw [map_place, place, if_neg (by rw [length_map]; omega)]
        exact hh

/-- The pointer of a row that is there is read. -/
theorem read_holds (h : x.Holds ps updates) {row : Nat} {p : Pointer} (hrow : ps[row]? = some p)
    (hmax : row < int64Max / 16) (hp : p.1 < 2 ^ 64 ∧ p.2 < 2 ^ 64) :
    ∃ x', x.read row = .ok (p, x') ∧ x'.Holds ps updates := by
  have hlt : row < ps.length := (List.getElem?_eq_some_iff.1 hrow).1
  have hge : ¬ row ≥ x.count := by rw [h.count_eq]; omega
  cases x with
  | buffered s =>
    obtain ⟨s', hs, hh⟩ := PageIndex.read_holds h hrow hmax
    exact ⟨.buffered s', by rw [read, if_neg hge]; simp only [hs]; rfl, hh⟩
  | legacy r =>
    obtain ⟨hr, hend⟩ := h
    have hrec : (ps.map record)[row]? = some (record p) := by rw [getElem?_map, hrow]; rfl
    obtain ⟨offset, h1, h2, h3⟩ := hr.row row _ hrec
    have hlen := length_record p
    have hread : (r.read (fun _ => none) row).run 0 = .ok (record p, 2) := by
      have hmaxo : maxOffset < 256 ^ 8 := by decide
      have hsmall := hr.small
      have hoff : Bytes.ofBE (Bytes.be 8 offset) = offset := Bytes.ofBE_be_of_lt (by omega)
      have hsize : Bytes.ofBE (Bytes.be 8 (record p).length) = (record p).length := by
        rw [hlen]
        exact Bytes.ofBE_be_of_lt (by decide)
      have hrow' : ¬ row ≥ r.count := by
        rw [hr.count, length_map]
        omega
      rw [DiskRecords.read, refuse_bind hrow', access_bind]
      rw [refuse_bind, access_bind, h1, take_left' (Bytes.length_be 8 offset),
        drop_left' (Bytes.length_be 8 offset), hoff, hsize, h3]
      · rfl
      · rw [h1, take_left' (Bytes.length_be 8 offset),
          drop_left' (Bytes.length_be 8 offset), hoff, hsize, length_append,
          Bytes.length_be, Bytes.length_be]
        omega
    refine ⟨.legacy r, ?_, hr, hend⟩
    rw [read, if_neg hge]
    rw [onDisk, hread]
    show (if (record p).length ≠ 16 then Except.error indexFailure
      else pure ((Bytes.ofBE ((record p).take 8), Bytes.ofBE ((record p).drop 8)),
        PointerIndex.legacy r)) = _
    rw [if_neg (fun hne => hne hlen), record,
      take_left' (Bytes.length_be 8 _), drop_left' (Bytes.length_be 8 _),
      Bytes.ofBE_be_of_lt (by simpa using hp.1), Bytes.ofBE_be_of_lt (by simpa using hp.2)]
    rfl

end PointerIndex

end Hc.Operations.DurableLog
