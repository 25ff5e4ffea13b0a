import HyperCommander.Lib.Outcome
import HyperCommander.Operations.OutcomeCodec
import HyperCommander.Operations.PointerIndex

/-!
# The log of outcomes (`UniqueLibs/qtDurableOutcomes.cpp`)

Every append and every replacement of a row is a frame at the end of one file: a header with the
row and the length, a checksum of 32 bytes, and the record. Opening the file reads the frames,
builds the index of the rows anew, and cuts off what is not a whole frame.

* `openLog`, `Log.step`: the log as the code runs it, with what the file system does to a write.
* `Outcomes`, `Outcomes.step`: the array that the log is for. It knows which writes are whole in
  the file, and nothing of bytes, positions or pages.
-/

namespace Hc.Operations.DurableLog

open Storage Slice

/-- `Failure`. -/
def failure (code : String) : Error := ⟨.unavailable, code, false⟩

def magic : Nat := 0x48434f31

def headerBytes : Nat := 52

def maxRecordBytes : Nat := 16 * 1024 * 1024

/-- A record on its way to a row. -/
structure Write where
  row : Nat
  item : ItemOutcome
deriving DecidableEq

/-- What the file system does to a write: all of it; the first bytes only, or all of them without
the flush; all of it, but the index fails. -/
inductive Written
  | done
  | torn (bytes : Nat)
  | unindexed
deriving DecidableEq, Repr

/-- `DurableOutcomes`, with its file. -/
structure Log where
  file : Str := []
  index : PointerIndex
  end_ : Nat := 0
  failed : Bool := false

section Frames

variable (hash : Str → Str)

/-- The tag, the row and the length of a frame. -/
def header (row length : Nat) : Str := Bytes.be 4 magic ++ (Bytes.be 8 row ++ Bytes.be 8 length)

/-- `Frame` in `write`. -/
def frame (w : Write) : Str :=
  let payload := encodeOutcome w.item
  let head := header w.row payload.length
  head ++ (hash (head ++ payload) ++ payload)

/-- `readAt`. -/
def readAt (file : Str) (position size : Nat) : Except Error Str :=
  if size > maxRecordBytes then .error (failure "outcome-record-size")
  else
    let bytes := slice file position (position + size)
    if bytes.length ≠ size then .error (failure "outcome-log-read") else .ok bytes

/-- The frame at `end_`, of a file with at least a header there: its row and the length of its
record, or none if the file ends inside it. -/
def readFrame (file : Str) (count end_ : Nat) : Except Error (Option (Nat × Nat)) := do
  let head ← readAt file end_ headerBytes
  let tag := Bytes.ofBE (slice head 0 4)
  let row := Bytes.ofBE (slice head 4 12)
  let length := Bytes.ofBE (slice head 12 20)
  if tag ≠ magic ∨ row > count ∨ length > maxRecordBytes then
    .error (failure "outcome-log-corrupt")
  else if length > file.length - end_ - headerBytes then pure none
  else do
    let payload ← readAt file (end_ + headerBytes) length
    if hash (head.take 20 ++ payload) ≠ head.drop (headerBytes - 32) then
      .error (failure "outcome-log-checksum")
    else do
      let _ ← decodeOutcome payload
      pure (some (row, length))

/-- The loop of `Open`. -/
def scan (file : Str) (index : PointerIndex) (end_ : Nat) : Except Error (PointerIndex × Nat) :=
  if end_ < file.length then
    if file.length - end_ < headerBytes then .ok (index, end_)
    else
      match readFrame hash file index.count end_ with
      | .error e => .error e
      | .ok none => .ok (index, end_)
      | .ok (some (row, length)) =>
        match index.update row (end_ + headerBytes) length with
        | .error e => .error e
        | .ok index => scan file index (end_ + headerBytes + length)
  else .ok (index, end_)
termination_by file.length - end_
decreasing_by
  unfold headerBytes
  omega

/-- `Open`, of a file with these bytes. -/
def openLog (isBuffered : Bool) (file : Str) : Except Error Log := do
  let (index, end_) ← scan hash file (PointerIndex.open_ isBuffered) 0
  pure { file := file.take end_, index := index, end_ := end_ }

end Frames

namespace Log

/-- `write`. -/
def write (hash : Str → Str) (log : Log) (w : Write) (written : Written) :
    Except Error Unit × Log :=
  let payload := encodeOutcome w.item
  let bytes := frame hash w
  if log.failed then (.error (failure "outcome-log-write-failed"), log)
  else if payload.length > maxRecordBytes then (.error (failure "outcome-record-size"), log)
  else if log.end_ > int64Max - bytes.length then
    (.error (failure "outcome-log-offset-range"), log)
  else
    match written with
    | .torn n =>
      (.error (failure "outcome-log-write"),
        { log with file := overwrite log.file log.end_ (bytes.take n), failed := true })
    | .unindexed =>
      (.error indexFailure,
        { log with
          file := overwrite log.file log.end_ bytes
          end_ := log.end_ + bytes.length
          failed := true })
    | .done =>
      let log' := { log with
        file := overwrite log.file log.end_ bytes
        end_ := log.end_ + bytes.length }
      match log.index.update w.row (log.end_ + headerBytes) payload.length with
      | .ok index => (.ok (), { log' with index := index })
      | .error e => (.error e, { log' with failed := true })

/-- `Append`. -/
def append (hash : Str → Str) (log : Log) (item : ItemOutcome) (written : Written) :
    Except Error Nat × Log :=
  let row := log.index.count
  let (result, log) := log.write hash ⟨row, item⟩ written
  (result.map fun _ => row, log)

/-- `Replace`. -/
def replace (hash : Str → Str) (log : Log) (row : Nat) (item : ItemOutcome) (written : Written) :
    Except Error Unit × Log :=
  if row ≥ log.index.count then (.error (failure "outcome-row-range"), log)
  else log.write hash ⟨row, item⟩ written

/-- The loop of `Read`; `check` is what the check of the operation says before each row. -/
def readRows (check : Nat → Option Error) : Nat → Nat → Log → Except Error (List ItemOutcome) × Log
  | 0, _, log => (.ok [], log)
  | n + 1, row, log =>
    match check row with
    | some e => (.error e, log)
    | none =>
      match log.index.read row with
      | .error e => (.error e, log)
      | .ok (pointer, index) =>
        let log := { log with index := index }
        match readAt log.file pointer.1 pointer.2 >>= decodeOutcome with
        | .error e => (.error e, log)
        | .ok item =>
          let (rest, log) := readRows check n (row + 1) log
          (rest.map fun items => item :: items, log)

/-- `Read`: the outcomes of a page and whether it is the last one. -/
def read (log : Log) (offset maxItems : Nat) (check : Nat → Option Error) :
    Except Error (List ItemOutcome × Bool) × Log :=
  let count := log.index.count
  if maxItems = 0 ∨ offset > count then (.error (failure "outcome-page-range"), log)
  else
    let n := min maxItems (count - offset)
    let (items, log) := log.readRows check n offset
    (items.map fun items => (items, offset + n = count), log)

end Log

/-! ### Calls -/

/-- A call on the log, or the end of the program with its file cut and opened again. -/
inductive Call
  | append (item : ItemOutcome) (written : Written)
  | replace (row : Nat) (item : ItemOutcome) (written : Written)
  | read (offset maxItems : Nat) (check : Nat → Option Error)
  | reopen (isBuffered : Bool) (length : Nat)

/-- What a call answers. -/
inductive Answer
  | row (n : Nat)
  | unit
  | page (items : List ItemOutcome) (end_ : Bool)
deriving DecidableEq

/-- A call on the log. -/
def Log.step (hash : Str → Str) (log : Log) : Call → Except Error Answer × Log
  | .append item written =>
    let (result, log) := log.append hash item written
    (result.map .row, log)
  | .replace row item written =>
    let (result, log) := log.replace hash row item written
    (result.map fun _ => .unit, log)
  | .read offset maxItems check =>
    let (result, log) := log.read offset maxItems check
    (result.map fun page => .page page.1 page.2, log)
  | .reopen isBuffered length =>
    match openLog hash isBuffered (log.file.take length) with
    | .ok log => (.ok .unit, log)
    | .error e => (.error e, log)

/-- Calls one after another. -/
def Log.run (hash : Str → Str) : Log → List Call → List (Except Error Answer) × Log
  | log, [] => ([], log)
  | log, call :: calls =>
    let (answer, log) := log.step hash call
    let (answers, log) := Log.run hash log calls
    (answer :: answers, log)

/-! ### The array -/

/-- The rows after writes: each sets its row or adds one. -/
def rowsOf (writes : List Write) : List ItemOutcome :=
  writes.foldl (fun rows w => place rows w.row w.item) []

/-- The bytes that a write takes. -/
def Write.size (w : Write) : Nat := headerBytes + (encodeOutcome w.item).length

/-- The bytes that writes take. -/
def total (writes : List Write) : Nat := (writes.map Write.size).sum

/-- The first writes that are whole within so many bytes. -/
def completed : Nat → List Write → List Write
  | _, [] => []
  | length, w :: writes =>
    if w.size ≤ length then w :: completed (length - w.size) writes else []

/-- An array of outcomes: its rows, the writes that are whole in the file, and whether a write
failed since it was opened. -/
structure Outcomes where
  rows : List ItemOutcome := []
  writes : List Write := []
  failed : Bool := false

namespace Outcomes

/-- A write that succeeds sets its row, and one that fails leaves the rows as they are. -/
def write (a : Outcomes) (w : Write) (written : Written) : Except Error Unit × Outcomes :=
  if a.failed then (.error (failure "outcome-log-write-failed"), a)
  else if (encodeOutcome w.item).length > maxRecordBytes then
    (.error (failure "outcome-record-size"), a)
  else if total a.writes > int64Max - w.size then (.error (failure "outcome-log-offset-range"), a)
  else
    match written with
    | .done => (.ok (), { a with rows := place a.rows w.row w.item, writes := a.writes ++ [w] })
    | .unindexed => (.error indexFailure, { a with writes := a.writes ++ [w], failed := true })
    | .torn n =>
      (.error (failure "outcome-log-write"),
        { a with
          writes := if w.size ≤ n then a.writes ++ [w] else a.writes
          failed := true })

/-- The rows of a page. -/
def page (a : Outcomes) (offset maxItems : Nat) : List ItemOutcome :=
  (a.rows.drop offset).take maxItems

/-- A call on the array; opening it again brings the rows of the writes that are left. -/
def step (a : Outcomes) : Call → Except Error Answer × Outcomes
  | .append item written =>
    let (result, b) := a.write ⟨a.rows.length, item⟩ written
    (result.map fun _ => .row a.rows.length, b)
  | .replace row item written =>
    if row ≥ a.rows.length then (.error (failure "outcome-row-range"), a)
    else
      let (result, b) := a.write ⟨row, item⟩ written
      (result.map fun _ => .unit, b)
  | .read offset maxItems check =>
    if maxItems = 0 ∨ offset > a.rows.length then (.error (failure "outcome-page-range"), a)
    else
      let items := a.page offset maxItems
      match (List.range' offset items.length).findSome? check with
      | some e => (.error e, a)
      | none => (.ok (.page items (offset + items.length = a.rows.length)), a)
  | .reopen _ length =>
    let writes := completed length a.writes
    (.ok .unit, { rows := rowsOf writes, writes := writes })

/-- Calls one after another. -/
def run : Outcomes → List Call → List (Except Error Answer) × Outcomes
  | a, [] => ([], a)
  | a, call :: calls =>
    let (answer, a) := a.step call
    let (answers, a) := a.run calls
    (answer :: answers, a)

end Outcomes

end Hc.Operations.DurableLog
