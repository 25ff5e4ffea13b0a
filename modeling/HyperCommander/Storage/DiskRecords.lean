import HyperCommander.Lib.Slice
import HyperCommander.Lib.Yields
import HyperCommander.Storage.Types

/-!
# Records on disk (`UniqueLibs/qtPagedStorage.cpp`, `DiskRecords`)

Records lie one after another in a data file; a second file has the offset and the size of each.

* `Holds`: what the two files say is a list of records.
* `append_yields`, `replace_yields`, `read_yields`: the operations in terms of that list.
-/

namespace Hc.Storage

open List Bytes Slice

/-- Work on a disk: the state counts the accesses, any of which may fail. -/
abbrev Disk := StateT Nat (Except Error)

/-- `DiskError`. -/
def diskError (code : String) : Error := ⟨.unavailable, code, true⟩

/-- `Invalid`. -/
def invalid (code : String) : Error := ⟨.invalidRequest, code, false⟩

/-- One access to a file, or one `Check` of the operation; `fault` says which of them fail. -/
def access (fault : Nat → Option Error) : Disk Unit := fun n =>
  match fault n with
  | none => .ok ((), n + 1)
  | some e => .error e

/-- Fails with `e` if the condition holds. -/
def refuse (c : Prop) [Decidable c] (e : Error) : Disk Unit := if c then throw e else pure ()

/-- `numeric_limits<qint64>::max()`. -/
def maxOffset : Nat := 2 ^ 63 - 1

/-- `seek` and `write`; the gap behind the end of a file reads as zeros. -/
def overwrite (file : Str) (at_ : Nat) (bytes : Str) : Str :=
  splice (file ++ List.replicate (at_ - file.length) 0) at_ bytes.length bytes

/-- `DiskRecords::State`. -/
structure DiskRecords where
  data : Str := []
  offsets : Str := []
  count : Nat := 0
  end_ : Nat := 0
deriving DecidableEq, Repr

namespace DiskRecords

variable (fault : Nat → Option Error) (r : DiskRecords)

/-- `Create`. -/
def create : Disk DiskRecords := do
  access fault
  pure {}

/-- `write`. -/
def write (row : Nat) (bytes : Str) : Disk DiskRecords := do
  refuse (bytes.length > maxOffset - r.end_) (diskError "index-file-too-large")
  access fault
  refuse (row > maxOffset / 16) (diskError "index-offset-failed")
  access fault
  pure { r with
    data := overwrite r.data r.end_ bytes
    end_ := r.end_ + bytes.length
    offsets := overwrite r.offsets (row * 16) (be 8 r.end_ ++ be 8 bytes.length) }

/-- `Append`; the row is the number of records before. -/
def append (bytes : Str) : Disk DiskRecords := do
  let r ← r.write fault r.count bytes
  pure { r with count := r.count + 1 }

/-- `Replace`. -/
def replace (row : Nat) (bytes : Str) : Disk DiskRecords := do
  refuse (row ≥ r.count) (invalid "index-row-out-of-range")
  r.write fault row bytes

/-- `Flush`. -/
def flush : Disk Unit := access fault

/-- `Read`. -/
def read (row : Nat) : Disk Str := do
  refuse (row ≥ r.count) (invalid "index-row-out-of-range")
  access fault
  let entry := slice r.offsets (row * 16) (row * 16 + 16)
  let offset := ofBE (entry.take 8)
  let size := ofBE (entry.drop 8)
  refuse (entry.length < 16 ∨ offset > r.data.length ∨ size > r.data.length - offset ∨
    size > maxOffset) (diskError "index-corrupt")
  access fault
  pure (slice r.data offset (offset + size))

end DiskRecords

/-! ## What the files say -/

theorem access_yields (fault : Nat → Option Error) :
    Yields (fun _ => True) (access fault) fun _ => True := by
  intro n
  split <;> trivial

/-- An access fails only as the disk does. -/
theorem access_fails {fault : Nat → Option Error} {E : Error → Prop}
    (hE : ∀ n e, fault n = some e → E e) : Yields E (access fault) fun _ => True := by
  intro n
  simp only [access, StateT.run]
  cases hf : fault n with
  | none => trivial
  | some e => exact hE n e hf

theorem refuse_yields {c : Prop} [Decidable c] {e : Error} :
    Yields (fun _ => True) (refuse c e) fun _ => ¬ c := by
  exact .ite (fun _ => .fail trivial) (fun h => .pure h)

theorem refuse_fails {c : Prop} [Decidable c] {e : Error} {E : Error → Prop} (hc : ¬ c) :
    Yields E (refuse c e) fun _ => True := by
  exact .ite (fun h => absurd h hc) (fun _ => .pure trivial)

/-- The entry of a record in the file of offsets, and its bytes in the file of data. -/
def DiskRecords.HoldsRow (r : DiskRecords) (row : Nat) (bytes : Str) : Prop :=
  ∃ offset, slice r.offsets (row * 16) (row * 16 + 16) = be 8 offset ++ be 8 bytes.length ∧
    offset + bytes.length ≤ r.data.length ∧ slice r.data offset (offset + bytes.length) = bytes

/-- The files hold these records. -/
structure DiskRecords.Holds (r : DiskRecords) (rows : List Str) : Prop where
  count : r.count = rows.length
  end_ : r.end_ = r.data.length
  offsets : r.offsets.length = 16 * r.count
  small : r.data.length ≤ maxOffset
  few : r.count ≤ maxOffset / 16 + 1
  row : ∀ i bytes, rows[i]? = some bytes → r.HoldsRow i bytes

theorem overwrite_eq {file : Str} {at_ : Nat} (h : at_ ≤ file.length) (bytes : Str) :
    overwrite file at_ bytes = splice file at_ bytes.length bytes := by
  rw [overwrite, Nat.sub_eq_zero_of_le h, replicate_zero, append_nil]

theorem splice_end (file bytes : Str) :
    splice file file.length bytes.length bytes = file ++ bytes := by
  rw [splice, take_length, drop_of_length_le (by omega), append_nil]

namespace DiskRecords

variable {fault : Nat → Option Error} {r : DiskRecords} {rows : List Str}

theorem Holds.empty : ({} : DiskRecords).Holds [] where
  count := rfl
  end_ := rfl
  offsets := rfl
  small := Nat.zero_le _
  few := Nat.zero_le _
  row i bytes h := by simp at h

/-- The files after a write at a row that is there, or the next one. -/
theorem Holds.written (h : r.Holds rows) {row : Nat} (hrow : row ≤ r.count) (bytes : Str)
    (r' : DiskRecords) (hdata : r'.data = overwrite r.data r.end_ bytes)
    (hoffsets : r'.offsets = overwrite r.offsets (row * 16) (be 8 r.end_ ++ be 8 bytes.length)) :
    r'.data = r.data ++ bytes ∧ r'.HoldsRow row bytes ∧
      ∀ i b, i ≠ row → rows[i]? = some b → r'.HoldsRow i b := by
  have hd : r'.data = r.data ++ bytes := by
    rw [hdata, h.end_, overwrite_eq (Nat.le_refl _), splice_end]
  have hle : row * 16 ≤ r.offsets.length := by rw [h.offsets]; omega
  have hlen : (be 8 r.end_ ++ be 8 bytes.length).length = 16 := by simp
  have ho : r'.offsets = splice r.offsets (row * 16) 16 (be 8 r.end_ ++ be 8 bytes.length) := by
    rw [hoffsets, overwrite_eq hle, hlen]
  refine ⟨hd, ⟨r.end_, ?_, ?_, ?_⟩, fun i b hne hi => ?_⟩
  · rw [ho]
    simpa [hlen] using slice_splice_self (d := 16) (s := be 8 r.end_ ++ be 8 bytes.length) hle
  · rw [hd, h.end_, length_append]
  · rw [hd, h.end_, slice, drop_left, Nat.add_sub_cancel_left, take_length]
  · obtain ⟨offset, h1, h2, h3⟩ := h.row i b hi
    refine ⟨offset, ?_, ?_, ?_⟩
    · rw [ho, ← h1]
      rcases Nat.lt_or_ge i row with hlt | hge
      · exact slice_splice_before (by omega) hle
      · have := slice_splice_after (d := 16) (s := be 8 r.end_ ++ be 8 bytes.length)
          (b := i * 16) (c := i * 16 + 16) (l := r.offsets) (a := row * 16) (by omega) hle
        rw [hlen, show i * 16 - 16 + 16 = i * 16 by omega,
          show i * 16 + 16 - 16 + 16 = i * 16 + 16 by omega] at this
        exact this
    · rw [hd, length_append]; omega
    · refine Eq.trans ?_ h3
      rw [hd, slice, drop_append_of_le_length (by omega),
        take_append_of_le_length (by rw [length_drop]; omega)]
      rfl

theorem create_yields : Yields (fun _ => True) (create fault) fun r => r.Holds [] :=
  .skip (access_yields fault) fun _ => .pure .empty

theorem write_yields (h : r.Holds rows) {row : Nat} (hrow : row ≤ r.count) (bytes : Str) :
    Yields (fun _ => True) (r.write fault row bytes) fun r' =>
      row ≤ maxOffset / 16 ∧ r'.count = r.count ∧ r'.end_ = r'.data.length ∧
      r'.data.length ≤ maxOffset ∧
      r'.offsets.length = max r.offsets.length (row * 16 + 16) ∧ r'.HoldsRow row bytes ∧
      ∀ i b, i ≠ row → rows[i]? = some b → r'.HoldsRow i b := by
  refine refuse_yields.bind fun _ hfits => ?_
  refine .skip (access_yields fault) fun _ => refuse_yields.bind
    fun _ hfew => .skip (access_yields fault) fun _ => .pure ?_
  obtain ⟨hd, h1, h2⟩ := h.written hrow bytes { r with
    data := overwrite r.data r.end_ bytes
    end_ := r.end_ + bytes.length
    offsets := overwrite r.offsets (row * 16) (be 8 r.end_ ++ be 8 bytes.length) } rfl rfl
  have hle : row * 16 ≤ r.offsets.length := by rw [h.offsets]; omega
  have hsmall := h.small
  have hend := h.end_
  refine ⟨by omega, rfl, ?_, ?_, ?_, h1, h2⟩
  · rw [hd, length_append, ← h.end_]
  · rw [hd, length_append]; omega
  · simp only [overwrite_eq hle, splice, length_append, length_take, length_drop,
      length_be]
    omega

theorem append_yields (h : r.Holds rows) (bytes : Str) :
    Yields (fun _ => True) (r.append fault bytes) fun r' => r'.Holds (rows ++ [bytes]) := by
  refine (write_yields h (Nat.le_refl _) bytes).bind
    fun r' ⟨hf, hc, he, hs, ho, hrow, hrest⟩ => .pure ?_
  refine ⟨?_, he, ?_, hs, by simp only [hc]; omega, fun i b hi => ?_⟩
  · simp only [hc, h.count, length_append, length_singleton]
  · simp only [hc, ho, h.offsets]; omega
  · rcases Nat.lt_or_ge i rows.length with hlt | hge
    · rw [getElem?_append_left hlt] at hi
      exact hrest i b (by rw [h.count]; omega) hi
    · rw [getElem?_append_right hge, getElem?_singleton] at hi
      split at hi
      · cases hi
        have : i = r.count := by rw [h.count]; omega
        exact this ▸ hrow
      · cases hi

theorem replace_yields (h : r.Holds rows) (row : Nat) (bytes : Str) :
    Yields (fun _ => True) (r.replace fault row bytes) fun r' => r'.Holds (rows.set row bytes) := by
  refine refuse_yields.bind fun _ hlt => ?_
  have hlt : row < r.count := by omega
  refine (write_yields h hlt.le bytes).weaken fun r' ⟨hf, hc, he, hs, ho, hrow, hrest⟩ => ?_
  refine ⟨by rw [hc, h.count, length_set], he, ?_, hs, hc ▸ h.few, fun i b hi => ?_⟩
  · rw [hc, ho, h.offsets]; omega
  · by_cases hir : i = row
    · subst hir
      rw [getElem?_set_self (by rw [← h.count]; exact hlt)] at hi
      cases hi
      exact hrow
    · rw [getElem?_set_ne (Ne.symm hir)] at hi
      exact hrest i b hir hi

/-- A record that is there is read, unless the disk fails. -/
theorem read_row {E : Error → Prop} (hE : ∀ n e, fault n = some e → E e) (h : r.Holds rows)
    {row : Nat} {bytes : Str} (hrow : rows[row]? = some bytes) :
    Yields E (r.read fault row) fun b => b = bytes := by
  have hlt := (List.getElem?_eq_some_iff.mp hrow).1
  obtain ⟨offset, h1, h2, h3⟩ := h.row row bytes hrow
  have hsmall := h.small
  have hoff : ofBE (be 8 offset) = offset := ofBE_be_of_lt (by
    have : maxOffset < 256 ^ 8 := by decide
    omega)
  have hsize : ofBE (be 8 bytes.length) = bytes.length := ofBE_be_of_lt (by
    have : maxOffset < 256 ^ 8 := by decide
    omega)
  have hentry : (slice r.offsets (row * 16) (row * 16 + 16)).length = 16 := by rw [h1]; simp
  refine .skip (refuse_fails (by rw [h.count]; omega)) fun _ => .skip (access_fails hE) fun _ => ?_
  have htake : ofBE ((slice r.offsets (row * 16) (row * 16 + 16)).take 8) = offset := by
    rw [h1, take_left' (length_be 8 offset), hoff]
  have hdrop : ofBE ((slice r.offsets (row * 16) (row * 16 + 16)).drop 8) = bytes.length := by
    rw [h1, drop_left' (length_be 8 offset), hsize]
  dsimp only
  rw [htake, hdrop]
  exact .skip (refuse_fails (by omega)) fun _ => .skip (access_fails hE) fun _ => .pure h3

/-- What is read is the record. -/
theorem read_yields (h : r.Holds rows) (row : Nat) :
    Yields (fun _ => True) (r.read fault row) fun bytes => rows[row]? = some bytes := by
  rcases Nat.lt_or_ge row rows.length with hlt | hge
  · have hrow := getElem?_eq_getElem hlt
    exact (read_row (fun _ _ _ => trivial) h hrow).weaken fun b hb => by rw [hb, hrow]
  · unfold read
    exact refuse_yields.bind fun _ hin => absurd (by rw [h.count]; exact hge) hin

end DiskRecords

end Hc.Storage
