import HyperCommander.Compare.LargeText
import HyperCommander.Document.TextCodec

/-!
# Reading and saving large texts (`HyperCompare/runtime/largeText.cpp`)

A file is decoded and encoded chunk by chunk. A chunk may end inside of a character, so
`completeBytes` says how much of it is decoded now; the rest is put in front of the next one. The
conversions of the operating system are those of `TextCodec`, with the lead bytes of its code pages.
The temporary file can be written, and the hashes, the lock on the destination and its recovery
journal are left out.
-/

namespace Hc.Compare

open Slice Pieces Unicode
open Document.TextCodec (Platform decodeDocumentText encodeDocumentText ofUtf8 latin1)

/-- The code pages of the operating system. -/
structure CodePages extends Platform where
  /-- `IsDBCSLeadByteEx`. -/
  isDBCSLeadByteEx : Nat → UInt8 → Bool

/-- `require`. -/
def require {α : Type} : Except Storage.Error α → Run α
  | .ok a => pure a
  | .error e => throw ⟨e.code⟩

/-! ## Characters -/

/-- The loop of `completeBytes` over the lead bytes of a code page, from position `i` on. -/
def walkFrom (lead : UInt8 → Bool) : Bytes → (i : Nat) → Nat
  | [], i => i
  | [b], i => i + if lead b then 2 else 1
  | b :: c :: rest, i =>
    if lead b then walkFrom lead rest (i + 2) else walkFrom lead (c :: rest) (i + 1)

/-- The loop of `completeBytes` over the continuation bytes at the end of UTF-8. -/
def backUp (bytes : Bytes) : (start : Nat) → Nat
  | 0 => 0
  | start + 1 => if isContinuation (bytes.getD (start + 1) 0) then backUp bytes start else start + 1

/-- `width`. -/
def leadWidth (lead : UInt8) : Nat :=
  if lead < 0x80 then 1
  else if 0xc2 ≤ lead ∧ lead ≤ 0xdf then 2
  else if 0xe0 ≤ lead ∧ lead ≤ 0xef then 3
  else if 0xf0 ≤ lead ∧ lead ≤ 0xf4 then 4
  else 1

/-- The branch of `completeBytes` for UTF-16. -/
def completeUtf16 (big : Bool) (bytes : Bytes) : Nat :=
  let count := bytes.length - bytes.length % 2
  if 2 ≤ count then
    let a := (bytes.getD (count - 2) 0).toNat
    let b := (bytes.getD (count - 1) 0).toNat
    let unit := if big then a * 256 + b else a + b * 256
    if 0xd800 ≤ unit ∧ unit ≤ 0xdbff then count - 2 else count
  else count

/-- The branch of `completeBytes` for a code page. -/
def completeDbcs (lead : UInt8 → Bool) (bytes : Bytes) : Nat :=
  if walkFrom lead bytes 0 > bytes.length then bytes.length - 1 else bytes.length

/-- The branch of `completeBytes` for UTF-8. -/
def completeUtf8 (bytes : Bytes) : Nat :=
  let start := backUp bytes (bytes.length - 1)
  if bytes.length - start < leadWidth (bytes.getD start 0) then start else bytes.length

/-- `completeBytes`. -/
def completeBytes (p : CodePages) (bytes : Bytes) (encoding : Units) (final : Bool) : Nat :=
  if final ∨ bytes = [] then bytes.length
  else if encoding = latin1 "UTF-16LE" ∨ encoding = latin1 "UTF-16BE" then
    completeUtf16 (encoding = latin1 "UTF-16BE") bytes
  else if encoding = latin1 "CP949" then completeDbcs (p.isDBCSLeadByteEx 949) bytes
  else completeUtf8 bytes

/-- The character that `decode` puts in front, so that no mark is taken off inside of a file. -/
def frontOf (encoding : Units) : Bytes :=
  if encoding = latin1 "UTF-16LE" then [0x58, 0] else if encoding = latin1 "UTF-16BE" then [0, 0x58]
  else [0x58]

/-- `decode`. -/
def decode (p : CodePages) (bytes : Bytes) (encoding : Units) : Run Units := do
  throwIf (encoding = latin1 "UTF-8" ∧ ofUtf8 bytes = none) "LargeTextInvalidUtf8"
  let decoded ← require (decodeDocumentText p.toPlatform (frontOf encoding ++ bytes) encoding)
  let roundTrip ← require (encodeDocumentText p.toPlatform decoded.text encoding false)
  throwIf (roundTrip ≠ frontOf encoding ++ bytes) "LargeTextIncompleteEncoding"
  pure (decoded.text.drop 1)

/-! ## Reading -/

/-- What a stream replies: the chunks before the one at its end, and that one or the failure that
ends the reading. -/
structure ByteStream where
  chunks : List Bytes
  last : Except Storage.Error Bytes

/-- The encoding of a file and its mark, `original_` of a document. -/
structure LargeTextOriginal where
  exists_ : Bool := true
  encoding : Units := []
  bom : Bool := false
deriving DecidableEq, Repr

/-- The loop of `ReadLargeText` between two reads; `file` is the temporary file. -/
structure Reading where
  original : LargeTextOriginal := {}
  pending : Bytes := []
  first : Bool := true
  readBytes : Nat := 0
  file : Bytes := []
deriving DecidableEq, Repr

/-- `append`. -/
def appendFile (file bytes : Bytes) : Run Bytes := do
  throwIf (file.length + bytes.length > largeTextMaximum) "LargeTextSizeLimit"
  pure (file ++ bytes)

/-- The encoding that the first bytes tell, and the bytes of a mark. -/
def detect (pending : Bytes) : Units × Nat :=
  if [0xff, 0xfe] <+: pending then (latin1 "UTF-16LE", 2)
  else if [0xfe, 0xff] <+: pending then (latin1 "UTF-16BE", 2)
  else (latin1 "UTF-8", if [0xef, 0xbb, 0xbf] <+: pending then 3 else 0)

/-- The branch of the loop for the first bytes. -/
def readFirst (encoding : Units) (s : Reading) : Run Reading := do
  let detected := (detect s.pending).1
  let bom := (detect s.pending).2
  let used := if encoding = [] then detected else encoding
  throwIf (bom ≠ 0 ∧ detected ≠ used) "LargeTextBomEncodingMismatch"
  pure { s with
    original := { s.original with encoding := used, bom := bom ≠ 0 }
    first := false
    pending := s.pending.drop bom }

/-- The branch of the loop for the bytes behind the mark. -/
def readMore (p : CodePages) (eof : Bool) (s : Reading) : Run Reading := do
  let count := completeBytes p s.pending s.original.encoding eof
  let text ← decode p (s.pending.take count) s.original.encoding
  let file ← appendFile s.file (toUtf8 text)
  pure { s with file := file, pending := s.pending.drop count }

/-- One turn of the loop of `ReadLargeText`, behind the read. -/
def readChunk (p : CodePages) (encoding : Units) (chunk : Bytes) (eof : Bool) (s : Reading) :
    Run Reading := do
  let readBytes := s.readBytes + chunk.length
  throwIf (readBytes > largeTextMaximum) "LargeTextSizeLimit"
  throwIf (chunk = [] ∧ eof = false) "ReadMadeNoProgress"
  let s := { s with readBytes := readBytes, pending := s.pending ++ chunk }
  let s ← (if s.first = true ∧ (4 ≤ s.pending.length ∨ eof = true) then readFirst encoding s
    else pure s)
  if s.first then pure s else readMore p eof s

/-- The loop of `ReadLargeText`. -/
def readStream (limits : Budget) (p : CodePages) (encoding : Units)
    (last : Except Storage.Error Bytes) :
    List Bytes → Reading → Run Reading
  | [], s => do
    limits.check
    let chunk ← require last
    readChunk p encoding chunk true s
  | chunk :: rest, s => do
    limits.check
    let s ← readChunk p encoding chunk false s
    readStream limits p encoding last rest s

/-- What the provider says of a file: its entry, the stream of its bytes, and the revision at the
end. -/
structure SourceFile where
  directory : Bool := false
  reparsePoint : Bool := false
  size : Nat
  revision : Option String
  stream : ByteStream
  current : Option String

/-- A document with what is known of its file, and the temporary file of its text. -/
structure LoadedText where
  original : LargeTextOriginal
  document : LargeTextDocument
  file : Bytes
deriving DecidableEq, Repr

/-- `ReadLargeText`. The temporary file is number `store`; `inspect` and `resolve` are the replies
of the provider. -/
def readLargeText (limits : Budget) (p : CodePages) (store : Nat) (encoding : Units)
    (allowMissing : Bool) (inspect : Except Storage.Error (Option SourceFile))
    (resolve : Except Storage.Error SourceFile) : Run LoadedText := do
  limits.check
  let entry ← (if allowMissing then require inspect else require (resolve.map some))
  match entry with
  | none =>
    let used := if encoding = [] then latin1 "UTF-8" else encoding
    pure ⟨{ exists_ := false, encoding := used }, {}, []⟩
  | some entry => do
    throwIf (entry.directory = true ∨ entry.reparsePoint = true) "LargeTextExpectedRegularFile"
    throwIf (entry.size > largeTextMaximum) "LargeTextSizeLimit"
    limits.reserve (2 * 1024 * 1024)
    let s ← readStream limits p encoding entry.stream.last entry.stream.chunks {}
    throwIf (s.readBytes ≠ entry.size ∨ entry.current ≠ entry.revision) "ChangedDuringRead"
    let pieces := if s.file = [] then [] else [⟨store, 0, s.file.length⟩]
    pure ⟨s.original, ⟨pieces, s.file.length⟩, s.file⟩

/-! ## Saving -/

section Visit

variable {σ : Type} (limits : Budget) (disk : Disk) (output : σ → Bytes → Run σ)

/-- The inner loop of `visit`, where every part is put out as it is read. -/
def eachPart (file : Bytes) : (fuel at_ remaining : Nat) → σ → Run σ
  | 0, _, _, s => pure s
  | fuel + 1, at_, remaining, s =>
    if remaining = 0 then pure s
    else do
      limits.check
      let bytes := slice file at_ (at_ + min remaining chunkBytes)
      throwIf (bytes = []) "LargeTextTemporaryReadFailed"
      let s ← output s bytes
      eachPart file fuel (at_ + bytes.length) (remaining - bytes.length) s

/-- The loop of `visit` over the pieces from `offset` on. -/
def eachPiece (begin_ end_ : Nat) : (offset : Nat) → List LargeTextPiece → σ → Run σ
  | _, [], s => pure s
  | offset, q :: rest, s => do
    limits.check
    let first := max begin_ offset
    let last := min end_ (offset + q.bytes)
    let s ← (if first < last then
      eachPart limits output (disk q.backing) (last - first) (q.begin_ + first - offset)
        (last - first) s
      else pure s)
    eachPiece begin_ end_ (offset + q.bytes) rest s

/-- `visit` with what it puts the parts out to. -/
def visitEach (document : LargeTextDocument) (begin_ end_ : Nat) (s : σ) : Run σ := do
  throwIf (begin_ > end_ ∨ end_ > document.bytes) "LargeTextRangeInvalid"
  eachPiece limits disk output begin_ end_ 0 document.pieces s

end Visit

/-- The replies of the session that writes a file: to the append at a position, and to the commit
whether the destination is committed. -/
structure WriteReplies where
  append : Nat → Except Storage.Error Unit
  commit : Except Storage.Error Bool

/-- `SaveLargeText` between two calls of `write`; `output` are the bytes that were appended. -/
structure Saving where
  pending : Bytes := []
  first : Bool := true
  output : Bytes := []
deriving DecidableEq, Repr

/-- The mark of an encoding. -/
def markOf (encoding : Units) : Bytes :=
  if encoding = latin1 "UTF-8" then [0xef, 0xbb, 0xbf]
  else if encoding = latin1 "UTF-16LE" then [0xff, 0xfe]
  else [0xfe, 0xff]

/-- The loop that appends the encoded bytes from `offset` on. -/
def appendParts (limits : Budget) (session : WriteReplies) (encoded : Bytes) :
    (fuel offset : Nat) → Bytes → Run Bytes
  | 0, _, output => pure output
  | fuel + 1, offset, output =>
    if offset < encoded.length then do
      limits.check
      require (session.append output.length)
      appendParts limits session encoded fuel (offset + chunkBytes)
        (output ++ slice encoded offset (offset + min chunkBytes (encoded.length - offset)))
    else pure output

/-- The branch of `write` for complete characters. -/
def writeText (limits : Budget) (p : CodePages) (session : WriteReplies)
    (original : LargeTextOriginal) (text : Units) (s : Saving) : Run Saving := do
  let encoded ← require (encodeDocumentText p.toPlatform text original.encoding false)
  let encoded := if s.first = true ∧ original.bom = true then markOf original.encoding ++ encoded
    else encoded
  let output ← appendParts limits session encoded encoded.length 0 s.output
  pure { s with first := false, output := output }

/-- `write`. -/
def writePending (limits : Budget) (p : CodePages) (session : WriteReplies)
    (original : LargeTextOriginal) (final : Bool) (s : Saving) : Run Saving := do
  let count := completeBytes p s.pending (latin1 "UTF-8") final
  let text ← decode p (s.pending.take count) (latin1 "UTF-8")
  let s ← (if count ≠ 0 ∨ final = true then writeText limits p session original text s else pure s)
  pure { s with pending := s.pending.drop count }

/-- `SaveLargeText` from `BeginWrite` to `Commit`: the bytes of the committed file. -/
def saveLargeText (limits : Budget) (p : CodePages) (session : WriteReplies) (disk : Disk)
    (document : LargeTextDocument) (original : LargeTextOriginal) : Run Bytes := do
  let s ← visitEach limits disk (fun s bytes =>
    writePending limits p session original false { s with pending := s.pending ++ bytes })
    document 0 document.bytes {}
  let s ← writePending limits p session original true s
  limits.check
  let committed ← require session.commit
  throwIf (committed = false) "NotCommitted"
  pure s.output

end Hc.Compare
