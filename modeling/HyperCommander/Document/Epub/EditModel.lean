import HyperCommander.Document.Epub.Types
import HyperCommander.Lib.Timeline

/-!
# The edit model of an EPUB (`commonLibs/document/epub/epubEditModel.cpp`, `epubEditStructure.cpp`)

The archive, the validation of publications and the XML edits are what a `Toolkit` gives. A call of
it that a cancellation callback, the clock or random identifiers have a say in takes them as a
`κ`. Running out of memory is left out.
-/

namespace Hc.Document.Epub

open Storage

def megabyte : Nat := 1024 * 1024

/-- What is edited, as the history keeps it. -/
structure State where
  edition : Bytes
  publication : Publication
  media : QMap String
  changes : QMap Bytes
deriving DecidableEq

/-- What `Structure` is asked for. -/
structure Request where
  operation : String
  resource : QString := []
  document : QString := []
  expectedSha256 : Bytes := []
  details : Bytes := []
deriving DecidableEq, Repr

/-- What the edit model calls. -/
structure Toolkit (κ : Type) where
  /-- `QCryptographicHash::hash` with SHA-256. -/
  sha256 : Bytes → Bytes
  /-- `Archive(Edition, {}, 32 MiB).Read(Path)`. -/
  read : Bytes → QString → Except Rejected Bytes
  /-- `PublicationSession::Open`, `Index` and `ValidateAll`. -/
  index : κ → Bytes → Except Rejected Publication
  /-- `imageValid`. -/
  imageValid : Bytes → String → Bool
  /-- `Export` without a draft. -/
  exported : κ → State → Except Rejected Bytes
  /-- The book after `Package::finish`. -/
  package : κ → Request → Bytes → Except Rejected Bytes
  /-- The resource after the changes of `modifyProperties`. -/
  properties : κ → Request → Publication → Bytes → Except Rejected Bytes

/-- `EditModel`. -/
structure EditModel where
  original : Bytes := []
  edition : Bytes := []
  originalHash : Bytes := []
  publication : Publication := {}
  error : Option Rejected := none
  media : QMap String := .empty
  replacements : QMap Bytes := .empty
  fingerprintChanges : QMap Bytes := .empty
  fingerprintDraft : QMap Bytes := .empty
  resourceHashes : QMap Bytes := .empty
  resourceHashEdition : Bytes := []
  fingerprintEdition : Bytes := []
  fingerprint : Bytes := []
  history : Timeline State := {}
deriving DecidableEq

/-- How an operation ends: with an error text, or with an exception that it lets through. -/
inductive Outcome
  | done
  | failed (error : Rejected)
  | thrown (error : Rejected)
deriving DecidableEq, Repr

/-- The media types that can be edited. -/
def editable : List String :=
  ["application/xhtml+xml", "application/oebps-package+xml", "application/x-dtbncx+xml",
    "text/css", "image/svg+xml", "image/png", "image/jpeg", "image/gif", "image/webp"]

/-- `startsWith("image/")`. -/
def isImage (mediaType : String) : Bool := "image/".toList.isPrefixOf mediaType.toList

/-- How many bytes a resource may have. -/
def resourceLimit (mediaType : String) : Nat :=
  if isImage mediaType then 8 * megabyte else 2 * megabyte

/-- The resources of a publication that can be edited, by their paths. -/
def mediaOf (resources : List Resource) : QMap String :=
  resources.foldl
    (fun media r => if r.mediaType ∈ editable then media.set r.path r.mediaType else media) .empty

/-- A publication without the bytes of its resources. -/
def Publication.stripped (p : Publication) : Publication :=
  { p with resources := p.resources.map fun r => { r with base64 := none } }

/-- How many bytes the values of a map have. -/
def totalBytes (changes : QMap Bytes) : Nat := (changes.entries.map fun e => e.2.length).sum

namespace EditModel

variable (m : EditModel)

/-- `state`. -/
def state : State := ⟨m.edition, m.publication, m.media, m.replacements⟩

def withHistory (history : Timeline State) : EditModel := { m with history }

/-- `restore`. -/
def restore (s : State) : EditModel :=
  { m with
    edition := s.edition
    publication := s.publication
    media := s.media
    replacements := s.changes }

/-- `accept`. -/
def accept (bytes : Bytes) (publication : Publication) : EditModel :=
  { m with
    original := bytes
    edition := bytes
    originalHash := publication.sourceSha256
    publication := publication.stripped
    error := none
    media := mediaOf publication.stripped.resources
    replacements := .empty
    history := {} }

/-- How many bytes the history pays for a state. -/
def memory (s : State) : Nat :=
  (if s.publication.sourceSha256 = m.originalHash then 0 else s.edition.length) +
    totalBytes s.changes

/-- How many bytes the history pays for its changes. -/
def historyMemory : Nat :=
  (m.history.changes.map fun c => m.memory c.1 + m.memory c.2).sum

/-- The history is over its budget. -/
def overBudget : Bool :=
  1 < m.history.changes.length &&
    (32 < m.history.changes.length || m.historyMemory > 128 * megabyte)

/-- The oldest changes are forgotten until the history is within its budget; `fuel` is how many
there can be. -/
def trim : Nat → EditModel → EditModel
  | 0, m => m
  | fuel + 1, m => if m.overBudget then trim fuel (m.withHistory m.history.dropFirst) else m

/-- A change to the current state is put in place of those that were undone. -/
def pushed (before : State) : EditModel := m.withHistory (m.history.push (before, m.state))

/-- `record`. -/
def record (before : State) : EditModel :=
  trim (m.pushed before).history.changes.length (m.pushed before)

/-- Another place of the history, with its state. -/
def resumed (p : Timeline State × State) : EditModel := (m.restore p.2).withHistory p.1

/-- `Undo`. -/
def undo : EditModel := m.resumed (Timeline.back (m.history, m.state))

/-- `Redo`. -/
def redo : EditModel := m.resumed (Timeline.forth (m.history, m.state))

variable {κ : Type} (t : Toolkit κ)

/-- `Load`. -/
def load (world : κ) (bytes : Bytes) : EditModel × Outcome :=
  match t.index world bytes with
  | .error e => ({ m with error := some e }, .failed e)
  | .ok publication => (m.accept bytes publication, .done)

/-- The digest of a resource of the current edition is kept. -/
def cached (path : QString) (bytes : Bytes) : EditModel :=
  { m with
    resourceHashes :=
      (if m.resourceHashEdition = m.publication.sourceSha256 then m.resourceHashes
        else .empty).set path (t.sha256 bytes)
    resourceHashEdition := m.publication.sourceSha256 }

/-- `Read`. -/
def read (path : QString) : EditModel × Bytes :=
  if m.media.find path = none then (m, [])
  else
    match m.replacements.find path with
    | some bytes => (m, bytes)
    | none =>
      match t.read m.edition path with
      | .error _ => (m, [])
      | .ok bytes => (m.cached t path bytes, bytes)

/-- `assign`. -/
def assign (path : QString) (bytes : Bytes) : Except Rejected EditModel :=
  match t.read m.edition path with
  | .error e => .error e
  | .ok original =>
    .ok { m with
      replacements :=
        if original = bytes then m.replacements.erase path else m.replacements.set path bytes }

/-- `Replace`. -/
def replace (path : QString) (bytes : Bytes) : EditModel × Outcome :=
  match m.media.find path with
  | none => (m, .failed ⟨"epub-edit-resource-budget", []⟩)
  | some mediaType =>
    if bytes = [] ∨ bytes.length > resourceLimit mediaType then
      (m, .failed ⟨"epub-edit-resource-budget", []⟩)
    else if t.imageValid bytes mediaType = false then
      (m, .failed ⟨"epub-edit-image-invalid-or-over-budget", []⟩)
    else if bytes.length + totalBytes (m.replacements.erase path) > 32 * megabyte then
      (m, .failed ⟨"epub-edit-overlay-budget", []⟩)
    else if (m.read t path).2 = bytes then ((m.read t path).1, .done)
    else
      match (m.read t path).1.assign t path bytes with
      | .error e => ((m.read t path).1, .thrown e)
      | .ok m' => (m'.record m.state, .done)

/-- What a fingerprint is made of: the replacements and the draft, without the entries of the draft
that are known to repeat the resource. -/
def fingerprintOverlay (draft : QMap Bytes) : QMap Bytes :=
  m.replacements.update
    (fun e =>
      if m.resourceHashEdition = m.publication.sourceSha256 ∧
          m.resourceHashes.find e.1 = some (t.sha256 e.2) then none
      else some e.2)
    draft.entries

/-- The bytes that identify an edition with changed resources. -/
def identityBytes (edition : Bytes) (changes : QMap Bytes) : Bytes :=
  edition ++ changes.entries.flatMap fun e => Unicode.toUtf8 e.1 ++ 0 :: toHex (t.sha256 e.2)

/-- `QByteArray::fromHex`, of hexadecimal digits in pairs. -/
def fromHex : Bytes → Bytes
  | a :: b :: rest => UInt8.ofNat (value a * 16 + value b) :: fromHex rest
  | _ => []
where
  value (c : UInt8) : Nat := if c.toNat < 58 then c.toNat - 48 else c.toNat - 87

/-- The fingerprint of an edition with changed resources. -/
def identity (edition : Bytes) (changes : QMap Bytes) : Bytes :=
  if changes.entries = [] then fromHex edition else t.sha256 (identityBytes t edition changes)

/-- `Fingerprint`. -/
def fingerprintOf (draft : QMap Bytes) : EditModel × Bytes :=
  if m.fingerprintEdition = m.publication.sourceSha256 ∧ m.fingerprintChanges = m.replacements ∧
      m.fingerprintDraft = draft then (m, m.fingerprint)
  else
    let fingerprint := identity t m.publication.sourceSha256 (m.fingerprintOverlay t draft)
    ({ m with
      fingerprintEdition := m.publication.sourceSha256
      fingerprintChanges := m.replacements
      fingerprintDraft := draft
      fingerprint }, fingerprint)

/-- The replacements of a batch, one after the other, until one fails. -/
def replaceAll : EditModel → List (QString × Bytes) → EditModel × Outcome
  | m, [] => (m, .done)
  | m, (path, bytes) :: rest =>
    match m.replace t path bytes with
    | (m', .done) => replaceAll m' rest
    | (m', outcome) => (m', outcome)

/-- `ReplaceBatch`. -/
def replaceBatch (changes : QMap Bytes) (expected : Bytes) : EditModel × Outcome :=
  let (m, current) := m.fingerprintOf t .empty
  if current ≠ expected then (m, .failed ⟨"epub-edit-revision-changed", []⟩)
  else
    match replaceAll t (m.withHistory {}) changes.entries with
    | (candidate, .done) =>
      if (candidate.fingerprintOf t .empty).2 = current then (m, .done)
      else ((m.restore candidate.state).record m.state, .done)
    | (_, outcome) => (m, outcome)

/-- `RestoreStructuralBytes`. -/
def restoreStructuralBytes (world : κ) (bytes : Bytes) : EditModel × Outcome :=
  if bytes = [] then (m, .done)
  else
    match load {} t world bytes with
    | (candidate, .done) =>
      ({ m with
        edition := bytes
        publication := candidate.publication
        media := candidate.media
        replacements := .empty }, .done)
    | (_, outcome) => (m, outcome)

/-- `modifyProperties`. -/
def modifyProperties (world : κ) (request : Request) : EditModel × Outcome :=
  let path :=
    if request.operation = "metadata" then m.publication.rootfile else request.document
  if m.media.find path = none then (m, .failed ⟨"edit-property-resource", path⟩)
  else
    let (m, raw) := m.read t path
    if toHex (t.sha256 raw) ≠ request.expectedSha256 then
      (m, .failed ⟨"edit-property-revision-changed", path⟩)
    else
      match t.properties world request m.publication raw with
      | .error e => (m, .failed e)
      | .ok next =>
        if next = raw then (m, .done)
        else
          match m.replace t path next with
          | (_, .failed e) => (m, .failed e)
          | (_, .thrown e) => (m, .failed e)
          | (candidate, .done) =>
            match t.exported world candidate.state with
            | .error e => (m, .failed e)
            | .ok _ => ({ m with replacements := candidate.replacements }.record m.state, .done)

/-- `Structure`. -/
def structure_ (world : κ) (request : Request) : EditModel × Outcome :=
  if request.operation = "metadata" ∨ request.operation = "image-attributes" then
    m.modifyProperties t world request
  else
    match t.exported world m.state with
    | .error e => (m, .failed e)
    | .ok current =>
      match t.package world request current with
      | .error e => (m, .failed e)
      | .ok bytes =>
        match load {} t world bytes with
        | (candidate, .done) =>
          match t.exported world candidate.state with
          | .error e => (m, .failed e)
          | .ok _ =>
            ({ m with
              edition := bytes
              publication := candidate.publication
              media := candidate.media
              replacements := .empty }.record m.state, .done)
        | (_, outcome) => (m, outcome)

end EditModel

/-! ## Runs -/

/-- An operation of the edit model. -/
inductive Edit (κ : Type)
  | load (world : κ) (bytes : Bytes)
  | read (path : QString)
  | replace (path : QString) (bytes : Bytes)
  | replaceBatch (changes : QMap Bytes) (expected : Bytes)
  | structure_ (world : κ) (request : Request)
  | restoreStructuralBytes (world : κ) (bytes : Bytes)
  | undo
  | redo
  | fingerprint (draft : QMap Bytes)

namespace EditModel

variable {κ : Type} (t : Toolkit κ)

/-- The model after one operation, and how the operation ended. -/
def perform (m : EditModel) : Edit κ → EditModel × Outcome
  | .load world bytes => m.load t world bytes
  | .read path => ((m.read t path).1, .done)
  | .replace path bytes => m.replace t path bytes
  | .replaceBatch changes expected => m.replaceBatch t changes expected
  | .structure_ world request => m.structure_ t world request
  | .restoreStructuralBytes world bytes => m.restoreStructuralBytes t world bytes
  | .undo => (m.undo, .done)
  | .redo => (m.redo, .done)
  | .fingerprint draft => ((m.fingerprintOf t draft).1, .done)

/-- The model after some operations. -/
def run (m : EditModel) (edits : List (Edit κ)) : EditModel :=
  edits.foldl (fun m e => (m.perform t e).1) m

end EditModel

end Hc.Document.Epub
