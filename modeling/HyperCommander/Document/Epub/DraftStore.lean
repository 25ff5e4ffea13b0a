import HyperCommander.Document.Epub.EditModel
import HyperCommander.Lib.Outcome

/-!
# The store of EPUB drafts (`commonLibs/document/epub/epubDraftStore.cpp`)

A draft is one file: a magic, the length of a JSON header, the header, the bytes that the header
counts, and a digest of all of it. The file system, digests and `QJsonDocument` are a `Platform`;
what a single `Write` meets is a `World`.
-/

open Outcome

namespace Hc.Document.Epub

open Storage

/-- A Latin-1 text as a `QString`. -/
def latin1 (text : String) : QString := text.toList.map fun c => UInt16.ofNat c.toNat

/-- `QString::fromLatin1`. -/
def fromLatin1 (bytes : Bytes) : QString := bytes.map UInt8.toUInt16

/-- `QString::toLatin1`; `?` for what has no byte. -/
def toLatin1 (text : QString) : Bytes :=
  text.map fun c => if c.toNat < 256 then c.toUInt8 else 63

/-! ## JSON -/

/-- `QJsonValue`. An object is the list of its fields in key order; a number is a 64-bit integer, or
one that is none. -/
inductive QJsonValue
  | null
  | bool (value : Bool)
  | integer (value : Int)
  | fraction
  | string (value : QString)
  | array (values : List QJsonValue)
  | object (fields : List (String × QJsonValue))

/-- `QJsonObject`. -/
abbrev QJsonObject := List (String × QJsonValue)

namespace QJsonObject

def contains (o : QJsonObject) (key : String) : Bool := o.any fun f => f.1 = key

/-- `operator[]`. -/
def at_ (o : QJsonObject) (key : String) : QJsonValue :=
  ((o.find? fun f => f.1 = key).map Prod.snd).getD .null

end QJsonObject

namespace QJsonValue

def isString : QJsonValue → Bool
  | string _ => true
  | _ => false

def isBool : QJsonValue → Bool
  | bool _ => true
  | _ => false

def isArray : QJsonValue → Bool
  | array _ => true
  | _ => false

def isObject : QJsonValue → Bool
  | object _ => true
  | _ => false

/-- The value is a number, and a 64-bit integer. -/
def isInteger : QJsonValue → Bool
  | integer _ => true
  | _ => false

def toInteger (v : QJsonValue) (default : Int) : Int :=
  match v with
  | integer n => n
  | _ => default

def toInt (v : QJsonValue) (default : Int32) : Int32 :=
  match v with
  | integer n => if -2147483648 ≤ n ∧ n ≤ 2147483647 then Int32.ofInt n else default
  | _ => default

def toText (v : QJsonValue) (default : QString) : QString :=
  match v with
  | string s => s
  | _ => default

def toBool : QJsonValue → Bool
  | bool b => b
  | _ => false

def toArray : QJsonValue → List QJsonValue
  | array vs => vs
  | _ => []

def toObject : QJsonValue → QJsonObject
  | object fs => fs
  | _ => []

end QJsonValue

/-! ## Drafts -/

/-- `DraftSnapshot`. -/
structure DraftSnapshot where
  sourcePath : QString := []
  currentResource : QString := []
  locator : QString := []
  original : Bytes := []
  currentDraft : Bytes := []
  structuralBytes : Bytes := []
  diskHash : Bytes := []
  changes : QMap Bytes := .empty
  cursor : Int32 := 0
  scroll : Int32 := 0
  readingChapter : Int32 := -1
  hasCurrentDraft : Bool := false
deriving DecidableEq

/-- What the store calls. -/
structure Platform where
  /-- `QCryptographicHash` with SHA-256. -/
  sha256 : Bytes → Bytes
  /-- `QJsonDocument::toJson`, compact. -/
  toJson : QJsonObject → Bytes
  /-- `QJsonDocument::fromJson`, of an object. -/
  fromJson : Bytes → Option QJsonObject
  /-- `QFileInfo::isAbsolute`. -/
  isAbsolute : QString → Bool
  /-- `QFileInfo::suffix` is `epub` in any case. -/
  isEpub : QString → Bool
  /-- `path`: the path is that of a draft in the folder of the store. -/
  path : QString → QString → Bool
  /-- `QDir::filePath`. -/
  filePath : QString → QString → QString

/-- What a `Write` meets. -/
structure World where
  mkpath : Bool := true
  tryLock : Bool := true
  open_ : Bool := true
  /-- A write goes through, and was not cancelled before. -/
  write : Nat → Bool := fun _ => true
  /-- What the cancellation callback says after the writes, and when the error is chosen. -/
  cancelled : Bool := false
  cancelledError : Bool := false
  commit : Bool := true
  utcMs : Int

def originalLimit : Nat := 64 * megabyte

def overlayLimit : Nat := 32 * megabyte

def fileLimit : Nat := 164 * megabyte

def magic : Bytes := [72, 67, 69, 68, 82, 70, 48, 49]

def structuralMagic : Bytes := [72, 67, 69, 68, 82, 70, 48, 50]

/-- `QString::fromUtf8(Value.toUtf8())`: an unpaired surrogate and a byte order mark in front do not
survive. -/
def recoded (value : QString) : QString :=
  match (Unicode.scalars value).flatMap Unicode.units with
  | 0xfeff :: rest => rest
  | all => all

/-- `text`. -/
def text (value : QString) (limit : Nat) : Prop :=
  value.length ≤ limit ∧ 0 ∉ value ∧ recoded value = value

instance (value : QString) (limit : Nat) : Decidable (text value limit) :=
  inferInstanceAs (Decidable (_ ∧ _))

/-- `size`: a number of bytes up to a limit, or `-1`. -/
def size (value : QJsonValue) (limit : Nat) : Int :=
  match value with
  | .integer n => if 0 ≤ n ∧ n ≤ limit then n else -1
  | _ => -1

/-- A lower-case hexadecimal digit. -/
def isHexDigit (c : UInt16) : Bool := 48 ≤ c && c ≤ 57 || 97 ≤ c && c ≤ 102

/-- `^[a-f0-9]{64}$`, which also matches in front of a line feed at the end. -/
def isHexDigest (value : QString) : Bool :=
  (value.length = 64 || value.length = 65 && value.getLast? = some 10) &&
    (value.take 64).all isHexDigit

namespace DraftStore

variable (p : Platform)

/-! ## Writing -/

/-- What `Write` asks of a snapshot. -/
def admission (s : DraftSnapshot) : Prop :=
  s.original ≠ [] ∧ s.original.length ≤ originalLimit ∧
  s.structuralBytes.length ≤ originalLimit ∧ s.changes.entries.length ≤ 1024 ∧
  text s.sourcePath 32768 ∧ p.isAbsolute s.sourcePath ∧ p.isEpub s.sourcePath ∧
  text s.currentResource 2048 ∧ text s.locator 8192 ∧
  s.currentDraft.length ≤ 2 * megabyte ∧ (s.hasCurrentDraft = false → s.currentDraft = []) ∧
  0 ≤ s.cursor.toInt ∧ s.cursor.toInt ≤ 2 * megabyte ∧ 0 ≤ s.scroll.toInt ∧
  -1 ≤ s.readingChapter.toInt ∧ s.readingChapter.toInt < 4096

instance (s : DraftSnapshot) : Decidable (admission p s) := inferInstanceAs (Decidable (_ ∧ _))

/-- The header's entry of a change. -/
def entryOf (e : QString × Bytes) : QJsonValue :=
  .object [("bytes", .integer e.2.length), ("path", .string e.1)]

/-- The changes fit into a draft; `overlay` is how many bytes there are before them. -/
def overlayFits (overlay : Nat) : List (QString × Bytes) → Bool
  | [] => true
  | e :: rest =>
    text e.1 2048 && e.1 ≠ [] && e.2.length ≤ 8 * megabyte &&
      overlay + e.2.length ≤ overlayLimit && overlayFits (overlay + e.2.length) rest

/-- A structural draft has an edition of its own. -/
def structural (s : DraftSnapshot) : Bool := !s.structuralBytes.isEmpty

/-- The header. -/
def metadata (utcMs : Int) (s : DraftSnapshot) : QJsonObject :=
  ([("currentBytes", .integer s.currentDraft.length),
    ("currentResource", .string s.currentResource),
    ("cursor", .integer s.cursor.toInt)] : QJsonObject) ++
  (if s.diskHash = [] then [] else [("diskSha256", .string (fromLatin1 (toHex s.diskHash)))]) ++
  (if structural s then
    [("editionBytes", .integer s.structuralBytes.length),
      ("editionSha256", .string (fromLatin1 (toHex (p.sha256 s.structuralBytes))))]
    else []) ++
  ([("entries", .array (s.changes.entries.map entryOf)),
    ("hasCurrentDraft", .bool s.hasCurrentDraft),
    ("locator", .string s.locator),
    ("originalBytes", .integer s.original.length),
    ("readingChapter", .integer s.readingChapter.toInt),
    ("schemaVersion", .integer (if structural s then 2 else 1)),
    ("scroll", .integer s.scroll.toInt),
    ("sourcePath", .string s.sourcePath),
    ("sourceSha256", .string (fromLatin1 (toHex (p.sha256 s.original)))),
    ("utcMs", .integer utcMs)] : QJsonObject)

/-- The magic and the length of the header. -/
def prefixOf (structural : Bool) (json : Bytes) : Bytes :=
  (if structural then structuralMagic else magic) ++ Bytes.be 4 json.length

/-- What is written, one `Write` each. -/
def chunks (json : Bytes) (s : DraftSnapshot) : List Bytes :=
  [prefixOf (structural s) json, json, s.original] ++
    (if structural s then [s.structuralBytes] else []) ++
    s.changes.entries.map Prod.snd ++ [s.currentDraft]

/-- The file of a draft. -/
def fileOf (json : Bytes) (s : DraftSnapshot) : Bytes :=
  (chunks json s).flatten ++ p.sha256 (chunks json s).flatten

/-- `Write`. -/
def write (w : World) (disk : QMap Bytes) (root session : QString) (s : DraftSnapshot) :
    Except String (QMap Bytes × QString) := do
  let target := p.filePath root (session ++ latin1 ".hcedraft")
  failIf (¬ (w.mkpath ∧ p.path root target ∧ admission p s)) "epub-draft-admission"
  failIf (overlayFits 0 s.changes.entries = false) "epub-draft-overlay-budget"
  let json := p.toJson (metadata p w.utcMs s)
  failIf (json.length > 64 * 1024) "epub-draft-header-budget"
  failIf (w.tryLock = false) "epub-draft-locked"
  failIf (w.open_ = false) "epub-draft-write"
  failIf ((∃ i < (chunks json s).length, w.write i = false) ∨ w.cancelled)
    (if w.cancelledError then "epub-draft-cancelled" else "epub-draft-write")
  failIf (w.commit = false) "epub-draft-write"
  pure (disk.set target (fileOf p json s), target)

/-! ## Reading -/

/-- What `header` asks of a header. -/
def headerAccepts (structural : Bool) (o : QJsonObject) : Prop :=
  (o.at_ "schemaVersion").isInteger ∧
  (o.at_ "schemaVersion").toInteger 0 = (if structural then 2 else 1) ∧
  (structural → 0 < size (o.at_ "editionBytes") originalLimit ∧
    isHexDigest ((o.at_ "editionSha256").toText [])) ∧
  (o.at_ "sourcePath").isString ∧ text ((o.at_ "sourcePath").toText []) 32768 ∧
  p.isAbsolute ((o.at_ "sourcePath").toText []) ∧ p.isEpub ((o.at_ "sourcePath").toText []) ∧
  isHexDigest ((o.at_ "sourceSha256").toText []) ∧
  (o.contains "diskSha256" → isHexDigest ((o.at_ "diskSha256").toText [])) ∧
  0 < size (o.at_ "originalBytes") originalLimit ∧
  (o.at_ "entries").isArray ∧ (o.at_ "entries").toArray.length ≤ 1024 ∧
  (o.at_ "hasCurrentDraft").isBool ∧
  (o.at_ "currentResource").isString ∧ text ((o.at_ "currentResource").toText []) 2048 ∧
  0 ≤ size (o.at_ "currentBytes") (2 * megabyte) ∧
  ((o.at_ "hasCurrentDraft").toBool = false → (o.at_ "currentBytes").toInteger 0 = 0) ∧
  (o.contains "readingChapter" → (o.at_ "readingChapter").isInteger ∧
    -1 ≤ (o.at_ "readingChapter").toInteger (-2) ∧
    (o.at_ "readingChapter").toInteger (-2) < 4096) ∧
  (o.at_ "locator").isString ∧ text ((o.at_ "locator").toText []) 8192 ∧
  0 ≤ size (o.at_ "cursor") (2 * megabyte) ∧ 0 ≤ size (o.at_ "scroll") 2147483647 ∧
  0 < (o.at_ "utcMs").toInteger 0

instance (structural : Bool) (o : QJsonObject) :
    Decidable (headerAccepts p structural o) := inferInstanceAs (Decidable (_ ∧ _))

/-- A file that is being read, and what was hashed of it. -/
structure Input where
  rest : Bytes
  hashed : Bytes

/-- `File.read`, hashed. -/
def Input.read (i : Input) (count : Nat) : Bytes × Input :=
  (i.rest.take count, ⟨i.rest.drop count, i.hashed ++ i.rest.take count⟩)

/-- `header`: the header and what follows it. -/
def header (file : Bytes) : Except String (QJsonObject × Input) := do
  let start := file.take 12
  let isStructural : Bool := start.take 8 = structuralMagic
  failIf (file.length > fileLimit ∨ start.length ≠ 12 ∨ ¬ (start.take 8 = magic ∨ isStructural))
    "epub-draft-header"
  failIf (¬ isStructural ∧ file.length > 100 * megabyte) "epub-draft-header"
  let length := Bytes.ofBE (start.drop 8)
  failIf (length = 0 ∨ length > 64 * 1024) "epub-draft-header-budget"
  let json := (file.drop 12).take length
  match p.fromJson json with
  | none => .error "epub-draft-metadata"
  | some o =>
    failIf (¬ (json.length = length ∧ headerAccepts p isStructural o)) "epub-draft-metadata"
    pure (o, ⟨(file.drop 12).drop length, start ++ json⟩)

/-- The changes, as the entries of the header count them. -/
def readEntries : List QJsonValue → Int → QMap Bytes → Input → Except String (QMap Bytes × Input)
  | [], _, changes, i => .ok (changes, i)
  | value :: rest, total, changes, i => do
    let entry := value.toObject
    let name := (entry.at_ "path").toText []
    let bytes := size (entry.at_ "bytes") (8 * megabyte)
    failIf (value.isObject = false ∨ (entry.at_ "path").isString = false ∨ name = [] ∨
      ¬ text name 2048 ∨ changes.find name ≠ none ∨ bytes < 0 ∨ total + bytes > overlayLimit)
      "epub-draft-entry"
    let (data, i) := i.read bytes.toNat
    failIf (data.length ≠ bytes) "epub-draft-truncated"
    readEntries rest (total + bytes) (changes.set name data) i

/-- The bytes of an edition that the header counts and hashes. -/
def readHashed (i : Input) (bytes digest : QJsonValue) (error : String) :
    Except String (Bytes × Input) := do
  let count := size bytes originalLimit
  let (data, i) := i.read count.toNat
  failIf (data.length ≠ count ∨ toHex (p.sha256 data) ≠ toLatin1 (digest.toText [])) error
  pure (data, i)

/-- `Read`. -/
def read (disk : QMap Bytes) (root path : QString) : Except String DraftSnapshot := do
  failIf (p.path root path = false) "epub-draft-path"
  let file ← (disk.find path).elim (.error "epub-draft-open") .ok
  let (o, i) ← header p file
  let (original, i) ←
    readHashed p i (o.at_ "originalBytes") (o.at_ "sourceSha256") "epub-draft-original-hash"
  let (structuralBytes, i) ←
    (if (o.at_ "schemaVersion").toInteger 0 = 2 then
      readHashed p i (o.at_ "editionBytes") (o.at_ "editionSha256") "epub-draft-edition-hash"
    else .ok ([], i))
  let (changes, i) ← readEntries (o.at_ "entries").toArray 0 .empty i
  let currentBytes := size (o.at_ "currentBytes") (2 * megabyte)
  let (currentDraft, i) := i.read currentBytes.toNat
  failIf (currentDraft.length ≠ currentBytes) "epub-draft-truncated"
  failIf (i.rest.take 32 ≠ p.sha256 i.hashed ∨ i.rest.drop 32 ≠ []) "epub-draft-checksum"
  let s : DraftSnapshot := {
    sourcePath := (o.at_ "sourcePath").toText []
    currentResource := (o.at_ "currentResource").toText []
    locator := (o.at_ "locator").toText []
    original, currentDraft, structuralBytes, changes
    diskHash := EditModel.fromHex
      (toLatin1 ((o.at_ "diskSha256").toText ((o.at_ "sourceSha256").toText [])))
    cursor := (o.at_ "cursor").toInt 0
    scroll := (o.at_ "scroll").toInt 0
    readingChapter := (o.at_ "readingChapter").toInt (-1)
    hasCurrentDraft := (o.at_ "hasCurrentDraft").toBool }
  failIf (s.hasCurrentDraft ∧ s.currentResource = []) "epub-draft-selection"
  pure s

end DraftStore

end Hc.Document.Epub
