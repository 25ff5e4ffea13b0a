import HyperCommander.Storage.DiskRecords
import Mathlib.Data.List.Sort

/-!
# Paged indexes (`UniqueLibs/qtPagedStorage.cpp`, `PagedEntryIndex::Project`)

An index is sorted and filtered on disk: runs that fit into a buffer are sorted in memory, written
out and merged level by level. The rows of an index are encoded entries; what `DecodeEntry` makes of
them is a parameter, and so is what a row costs in memory beside its bytes.
-/

namespace Hc.Storage

open Bytes Slice

/-- `SortBuffer`. -/
structure SortBuffer where
  entries : Nat
  bytes : Nat
  fanIn : Nat
deriving Repr

/-- `PagedEntryIndex`. -/
structure PagedEntryIndex where
  records : DiskRecords
  wf : ∃ rows, records.Holds rows

/-- `Row` of `Project`. -/
structure Row (E : Type) where
  entry : E
  bytes : Str
  ordinal : Nat

/-- What `Project` is given, and what reading an entry means. -/
structure Projection (E : Type) where
  /-- `Compare`. -/
  less : Option (E → E → Bool)
  /-- `Filter`. -/
  accept : Option (E → Bool)
  buffer : SortBuffer
  /-- `DecodeEntry`. -/
  decodeEntry : Str → Except Error E
  /-- The memory of a row beside three times its bytes. -/
  overhead : E → Nat

/-! ## Rows in runs -/

/-- `Encode`: a `quint64` and a `QByteArray`, whose length has 32 bits, or 64 behind a mark. -/
def encodeRow {E : Type} (row : Row E) : Str :=
  be 8 row.ordinal ++
    (if row.bytes.length < 0xfffffffe then be 4 row.bytes.length
      else be 4 0xfffffffe ++ be 8 row.bytes.length) ++ row.bytes

/-- The payload of a row; `atEnd` must hold behind it. -/
def decodePayload (text : Str) : Option Str :=
  if text.length < 4 then none
  else
    let size := ofBE (text.take 4)
    let text := text.drop 4
    if size = 0xffffffff then if text = [] then some [] else none
    else if size = 0xfffffffe then
      if text.length < 8 then none
      else if (text.drop 8).length = ofBE (text.take 8) then some (text.drop 8) else none
    else if text.length = size then some text else none

namespace Projection

variable {E : Type} (p : Projection E) (fault : Nat → Option Error)

/-- `Before`. On equal keys the earlier ordinal wins, so one comparison does. -/
def before (a b : Row E) : Bool :=
  match p.less with
  | none => a.ordinal < b.ordinal
  | some less => if a.ordinal < b.ordinal then !less b.entry a.entry else less a.entry b.entry

/-- `!Filter || Filter(Entry)`. -/
def accepts (entry : E) : Bool := p.accept.all fun accept => accept entry

/-- A computation without access to the disk. -/
def lift {α : Type} : Except Error α → Disk α
  | .ok a => pure a
  | .error e => throw e

/-- `Decode`. -/
def decode (text : Str) : Except Error (Row E) :=
  if text.length < 8 then .error (diskError "index-corrupt")
  else
    match decodePayload (text.drop 8) with
    | none => .error (diskError "index-corrupt")
    | some bytes =>
      match p.decodeEntry bytes with
      | .error e => .error e
      | .ok entry => .ok { entry, bytes, ordinal := ofBE (text.take 8) }

/-! ## Merging runs -/

/-- `Head`: a row, the run it comes from, and the next row of the run. -/
structure Head (E : Type) where
  value : Row E
  run : DiskRecords
  next : Nat

/-- The heads of all runs that are not empty. -/
def heads : List DiskRecords → Disk (List (Head E))
  | [] => pure []
  | run :: rest =>
    if run.count = 0 then heads rest
    else do
      let bytes ← run.read fault 0
      let value ← lift (p.decode bytes)
      let rest ← heads rest
      pure ({ value, run, next := 1 } :: rest)

/-- `top` and `pop`: a head before which there is no other, and the rest. -/
def pop : Head E → List (Head E) → Head E × List (Head E)
  | h, [] => (h, [])
  | h, g :: rest =>
    if p.before g.value h.value then ((pop g rest).1, h :: (pop g rest).2)
    else ((pop h rest).1, g :: (pop h rest).2)

/-- The loop of `Merge`; every turn writes one of the rows that are left. -/
def drain : Nat → List (Head E) → DiskRecords → Disk DiskRecords
  | _, [], out => pure out
  | 0, _ :: _, out => pure out
  | fuel + 1, h :: rest, out => do
    access fault
    let popped := p.pop h rest
    let out ← out.append fault (encodeRow popped.1.value)
    if popped.1.next < popped.1.run.count then do
      let bytes ← popped.1.run.read fault popped.1.next
      let value ← lift (p.decode bytes)
      drain fuel ({ popped.1 with value, next := popped.1.next + 1 } :: popped.2) out
    else drain fuel popped.2 out

/-- `Merge`. -/
def merge (runs : List DiskRecords) : Disk DiskRecords := do
  let out ← DiskRecords.create fault
  let heap ← p.heads fault runs
  let out ← p.drain fault (runs.map (·.count)).sum heap out
  DiskRecords.flush fault
  pure out

/-! ## Runs and levels -/

/-- A run of rows that fit into the buffer; `left` rows of the index are still to be read. -/
def fill (records : DiskRecords) : (left : Nat) → List (Row E) → (used : Nat) →
    Disk (Nat × List (Row E))
  | 0, rows, _ => pure (0, rows)
  | left + 1, rows, used =>
    if rows.length < p.buffer.entries ∧ used < p.buffer.bytes then do
      access fault
      let ordinal := records.count - (left + 1)
      let bytes ← records.read fault ordinal
      let entry ← lift (p.decodeEntry bytes)
      let cost := bytes.length * 3 + p.overhead entry
      if p.accepts entry then
        fill records left (rows ++ [{ entry, bytes, ordinal }]) ((used + cost) % 2 ^ 64)
      else fill records left rows used
    else pure (left + 1, rows)

/-- The rows are appended one by one. -/
def writeRows (encode : Row E → Str) : List (Row E) → DiskRecords → Disk DiskRecords
  | [], out => pure out
  | row :: rest, out => do
    access fault
    let out ← out.append fault (encode row)
    writeRows encode rest out

/-- A run enters the levels; a level that is full is merged into a run of the next. The fan-in is at
least two, so a new level is not full. -/
def addRun (run : DiskRecords) : List (List DiskRecords) → Disk (List (List DiskRecords))
  | [] => pure [[run]]
  | level :: rest =>
    if (level ++ [run]).length < p.buffer.fanIn then pure ((level ++ [run]) :: rest)
    else do
      let run ← p.merge fault (level ++ [run])
      let rest ← addRun run rest
      pure ([] :: rest)

/-- The loop over the index. A turn reads at least one row. -/
def split (records : DiskRecords) : (fuel left : Nat) → List (List DiskRecords) →
    Disk (List (List DiskRecords))
  | _, 0, levels => pure levels
  | 0, _ + 1, levels => pure levels
  | fuel + 1, left + 1, levels => do
    let filled ← p.fill fault records (left + 1) [] 0
    -- `std::sort` by a strict total order.
    let rows := filled.2.insertionSort fun a b => p.before b a = false
    let run ← DiskRecords.create fault
    let run ← writeRows fault encodeRow rows run
    DiskRecords.flush fault
    let levels ← p.addRun fault run levels
    split records fuel filled.1 levels

/-- The loop over the levels. -/
def combine : List (List DiskRecords) → Option DiskRecords → Disk (Option DiskRecords)
  | [], combined => pure combined
  | level :: rest, combined =>
    if level ++ combined.toList = [] then combine rest none
    else do
      let merged ← p.merge fault (level ++ combined.toList)
      combine rest (some merged)

/-- The last loop: the rows without their ordinals. -/
def strip (combined : DiskRecords) : (left : Nat) → DiskRecords → Disk DiskRecords
  | 0, out => pure out
  | left + 1, out => do
    access fault
    let bytes ← combined.read fault (combined.count - (left + 1))
    let row ← lift (p.decode bytes)
    let out ← out.append fault row.bytes
    strip combined left out

/-- `Project`, up to the new index's records. -/
def project (records : DiskRecords) : Disk DiskRecords := do
  refuse (p.buffer.entries = 0 ∨ p.buffer.bytes = 0 ∨ p.buffer.fanIn < 2 ∨ p.buffer.fanIn > 64)
    (invalid "invalid-sort-buffer")
  access fault
  let levels ← p.split fault records records.count records.count []
  let combined ← p.combine fault levels none
  let out ← DiskRecords.create fault
  let out ← (match combined with
    | none => pure out
    | some combined => p.strip fault combined combined.count out)
  DiskRecords.flush fault
  pure out

end Projection

end Hc.Storage
