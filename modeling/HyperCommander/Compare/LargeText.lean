import HyperCommander.Compare.MergeWork
import HyperCommander.Lib.Pieces

/-!
# Large texts (`HyperCompare/runtime/largeText.cpp`)

A document is a list of pieces of backing files, which never change once they are written. The line
index of a document is a function of its text; the source keeps it with the document, here it is
made where it is used.
-/

namespace Hc.Compare

open Slice Pieces

/-- `LargeTextPiece`; the backing files are numbered. -/
abbrev LargeTextPiece := Piece Nat

/-- The bytes of the backing files. -/
abbrev Disk := Nat → Bytes

/-- `LargeTextDocument`. -/
structure LargeTextDocument where
  pieces : List LargeTextPiece := []
  bytes : Nat := 0
deriving DecidableEq, Repr

/-- `largeTextMaximum`. -/
def largeTextMaximum : Nat := 1024 * 1024 * 1024

/-- `largeTextPageMaximum`. -/
def largeTextPageMaximum : Nat := 1024 * 1024

def largeTextPieceMaximum : Nat := 100000

/-- The bytes that one read takes. -/
def chunkBytes : Nat := 64 * 1024

/-! ## Reading -/

/-- The inner loop of `visit`: `remaining` bytes of a file from position `at_` on. Every turn reads
some of them. -/
def readPart (limits : Budget) (file : Bytes) : (fuel at_ remaining : Nat) → Run Bytes
  | 0, _, _ => pure []
  | fuel + 1, at_, remaining =>
    if remaining = 0 then pure []
    else do
      limits.check
      let bytes := slice file at_ (at_ + min remaining chunkBytes)
      throwIf (bytes = []) "LargeTextTemporaryReadFailed"
      let more ← readPart limits file fuel (at_ + bytes.length) (remaining - bytes.length)
      pure (bytes ++ more)

/-- The loop of `visit` over the pieces from `offset` on. -/
def visitFrom (limits : Budget) (disk : Disk) (begin_ end_ : Nat) :
    (offset : Nat) → List LargeTextPiece → Run Bytes
  | _, [] => pure []
  | offset, p :: rest => do
    limits.check
    let first := max begin_ offset
    let last := min end_ (offset + p.bytes)
    let part ← (if first < last then
      readPart limits (disk p.backing) (last - first) (p.begin_ + first - offset) (last - first)
      else pure [])
    let more ← visitFrom limits disk begin_ end_ (offset + p.bytes) rest
    pure (part ++ more)

/-- `visit`: what it puts out. -/
def visit (limits : Budget) (disk : Disk) (document : LargeTextDocument) (begin_ end_ : Nat) :
    Run Bytes := do
  throwIf (begin_ > end_ ∨ end_ > document.bytes) "LargeTextRangeInvalid"
  visitFrom limits disk begin_ end_ 0 document.pieces

/-- `ReadLargeTextRange`. -/
def readLargeTextRange (limits : Budget) (disk : Disk) (document : LargeTextDocument)
    (begin_ end_ : Nat) : Run Bytes := do
  throwIf (end_ < begin_ ∨ end_ - begin_ > largeTextPageMaximum) "LargeTextPageLimit"
  visit limits disk document begin_ end_

/-! ## Replacing -/

/-- The loop over the boundaries of `ReplaceLargeText`. -/
def checkBoundary (limits : Budget) (disk : Disk) (document : LargeTextDocument) (at_ : Nat) :
    Run Unit :=
  if at_ < document.bytes then do
    let byte ← readLargeTextRange limits disk document at_ (at_ + 1)
    throwIf (byte.head?.any isContinuation = true) "LargeTextCharacterBoundary"
  else pure ()

/-- `ReplaceLargeText`. -/
def replaceLargeText (limits : Budget) (disk : Disk) (target : LargeTextDocument)
    (begin_ end_ : Nat) (source : LargeTextDocument) (sourceBegin sourceEnd : Nat) :
    Run LargeTextDocument := do
  limits.check
  throwIf (begin_ > end_ ∨ end_ > target.bytes ∨ sourceBegin > sourceEnd ∨
    sourceEnd > source.bytes) "LargeTextRangeInvalid"
  checkBoundary limits disk target begin_
  checkBoundary limits disk target end_
  checkBoundary limits disk source sourceBegin
  checkBoundary limits disk source sourceEnd
  let bytes := target.bytes - (end_ - begin_) + sourceEnd - sourceBegin
  throwIf (bytes > largeTextMaximum) "LargeTextSizeLimit"
  let pieces := cut 0 begin_ 0 target.pieces ++ cut sourceBegin sourceEnd 0 source.pieces ++
    cut end_ target.bytes 0 target.pieces
  throwIf (pieces.length > largeTextPieceMaximum) "LargeTextPieceLimit"
  pure ⟨pieces, bytes⟩

/-- `range` of `largeTextSession.cpp`. -/
def range (limits : Budget) (disk : Disk) (source : LargeTextDocument) (begin_ end_ : Nat) :
    Run LargeTextDocument :=
  replaceLargeText limits disk {} 0 0 source begin_ end_

/-- One turn of the loop of `append`. -/
def appendPiece (pieces : List LargeTextPiece) (piece : LargeTextPiece) :
    Run (List LargeTextPiece) := do
  let pieces := push pieces piece
  throwIf (pieces.length > largeTextPieceMaximum) "LargeTextPieceLimit"
  pure pieces

/-- `append` of `largeTextSession.cpp`. -/
def appendLargeText (target source : LargeTextDocument) : Run LargeTextDocument := do
  throwIf (source.bytes > largeTextMaximum - target.bytes) "LargeTextSizeLimit"
  let pieces ← source.pieces.foldlM appendPiece target.pieces
  pure ⟨pieces, target.bytes + source.bytes⟩

/-- The loop of `equal` of `largeTextSession.cpp`, over documents of one size. -/
def equalFrom (limits : Budget) (disk : Disk) (a b : LargeTextDocument) :
    (fuel offset : Nat) → Run Bool
  | 0, _ => pure true
  | fuel + 1, offset =>
    if offset < a.bytes then do
      limits.check
      let end_ := min (offset + chunkBytes) a.bytes
      let x ← readLargeTextRange limits disk a offset end_
      let y ← readLargeTextRange limits disk b offset end_
      if x ≠ y then pure false else equalFrom limits disk a b fuel (offset + chunkBytes)
    else pure true

/-- `equal`. -/
def equal (limits : Budget) (disk : Disk) (a b : LargeTextDocument) : Run Bool :=
  if a.bytes ≠ b.bytes then pure false else equalFrom limits disk a b (a.bytes + 1) 0

/-! ## Lines -/

/-- `Mapping` of a piece. -/
def mapPiece (disk : Disk) (p : LargeTextPiece) : Run Bytes :=
  if p.bytes = 0 then pure []
  else do
    throwIf (p.begin_ + p.bytes > (disk p.backing).length) "LargeTextMapFailed"
    pure (p.text disk)

/-- The view of `contiguous_`: the only piece, or a copy of all of them in a file of its own. -/
def contiguous (limits : Budget) (disk : Disk) (document : LargeTextDocument) : Run Bytes :=
  match document.pieces with
  | [p] => mapPiece disk p
  | _ =>
    if document.bytes = 0 then pure []
    else do
      let bytes ← visit limits disk document 0 document.bytes
      throwIf (bytes.length > largeTextMaximum) "LargeTextSizeLimit"
      pure bytes

/-- The loop of `IndexLargeText` over the bytes from position `i` on: the ends of the lines that
have a terminator. -/
def indexFrom (limits : Budget) : Bytes → (i : Nat) → Run (List Nat)
  | [], _ => pure []
  | [c], i => do
    (if i % 4096 = 0 then limits.check else pure ())
    pure (if isTerminator c then [i + 1] else [])
  | c :: d :: rest, i => do
    (if i % 4096 = 0 then limits.check else pure ())
    if c = cr ∧ d = lf then do
      let more ← indexFrom limits rest (i + 2)
      pure ((i + 2) :: more)
    else do
      let more ← indexFrom limits (d :: rest) (i + 1)
      pure (if isTerminator c then (i + 1) :: more else more)

/-- The loop that hashes the text looks at the budget for every chunk. -/
def hashChunks (limits : Budget) (size : Nat) : (fuel offset : Nat) → Run Unit
  | 0, _ => pure ()
  | fuel + 1, offset =>
    if offset < size then do
      limits.check
      hashChunks limits size fuel (offset + chunkBytes)
    else pure ()

/-- The last line ends where the text does. -/
def closeLines (size : Nat) (lines : List Nat) : List Nat :=
  if lines.getLast? = some size then lines else lines ++ [size]

/-- `IndexLargeText`: the view, `lineCount_` and `lines_`. -/
def indexLargeText (limits : Budget) (disk : Disk) (document : LargeTextDocument) :
    Run (Bytes × Nat × List Nat) := do
  limits.check
  let view ← contiguous limits disk document
  let lineCount ← countLines limits view
  limits.reserve ((lineCount + 1) * 8)
  hashChunks limits view.length view.length 0
  let ends ← indexFrom limits view 0
  pure (view, lineCount, closeLines view.length (0 :: ends))

/-- `LargeTextComparison`: the changes and the line tables of both documents. -/
structure LargeTextComparison where
  changes : List Edit
  left : List Nat
  right : List Nat

/-- `CompareLargeText`. -/
def compareLargeText (limits : Budget) (lib : Library) (disk : Disk)
    (left right : LargeTextDocument) : Run LargeTextComparison := do
  limits.check
  let a ← indexLargeText limits disk left
  let b ← indexLargeText limits disk right
  throwIf (a.2.1 + b.2.1 > defaultMaxLines) "LineLimit"
  let changes ← diff { limits with rangesOnly := true } lib a.1 b.1
  limits.reserve (a.2.2.length * 8)
  limits.reserve (b.2.2.length * 8)
  pure ⟨changes, a.2.2, b.2.2⟩

end Hc.Compare
