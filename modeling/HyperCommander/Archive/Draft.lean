import HyperCommander.Lib.Outcome
import HyperCommander.Lib.PathTree
import HyperCommander.Lib.Unicode
import HyperCommander.Operations.OutcomeCodec

/-!
# The draft of an archive (`UniqueLibs/wcxMutation.cpp`)

A session reads an archive into a map of its paths, applies a list of changes to the map, and
checks what it gets before a new archive is staged from it.

* `snapshot`: the map of an archive.
* `plan`: the map after the changes, with the checks.
-/

open Outcome

namespace Hc.Archive

open Storage Unicode PathTree
open Operations.DurableLog (EntrySnapshot ResourceId)

/-- An ASCII text. -/
def ascii (s : String) : Str := s.toList.map fun c => UInt8.ofNat c.toNat

/-- An ASCII text in UTF-16. -/
def wide (s : String) : Units := s.toList.map fun c => UInt16.ofNat c.toNat

/-- `/`. -/
def slash : UInt8 := 47

/-- `Invalid`. -/
def invalid (code : String) : Error := ⟨.invalidRequest, code, false⟩

def stale (code : String) : Error := ⟨.staleRevision, code, false⟩

def unsupported (code : String) : Error := ⟨.unsupported, code, false⟩

def budget (code : String) : Error := ⟨.budgetExceeded, code, false⟩

/-- An exception of `plan`, as `Prepare` reports it. -/
def exception : Error := ⟨.internal, "archive-prepare-exception", false⟩

/-- What Qt knows of letters. -/
structure Letters where
  toUpper : Units → Units
  toCaseFolded : Units → Units

/-- `ArchiveMutationLimits`, as far as `plan` looks at them. -/
structure Limits where
  maxEntries : Nat := 2 ^ 64 - 1
  maxDepth : Nat := 32
  maxInputBytes : Nat := 2 ^ 64 - 1
deriving DecidableEq, Repr

/-- `IContentSource`: one that came with a change, or the one of an entry of the archive. -/
inductive Content
  | given (number : Nat) (description : EntrySnapshot)
  | provider (entry : EntrySnapshot)
deriving DecidableEq

/-- `Describe`. -/
def Content.describe : Content → EntrySnapshot
  | given _ description => description
  | provider entry => entry

/-- `DraftEntry`. -/
structure DraftEntry where
  entry : EntrySnapshot := {}
  content : Option Content := none
  changed : Bool := false
  reuseData : Bool := false
  metadataOrigin : Str := []
deriving DecidableEq

abbrev Draft := OrdMap Str DraftEntry

/-- `ArchiveChangeKind`. -/
inductive ChangeKind
  | put
  | remove
  | rename
  | makeDirectory
deriving DecidableEq, Repr

/-- `DestinationExpectation`. -/
structure Destination where
  exists_ : Bool := false
  revision : Option Str := none
deriving DecidableEq, Repr

/-- `ArchiveChange`. -/
structure Change where
  kind : ChangeKind := .put
  path : Str
  target : Str := []
  content : Option Content := none
  source : Option ResourceId := none
  destination : Destination := {}
deriving DecidableEq

/-- `FILE_ATTRIBUTE_REPARSE_POINT`. -/
def isReparse (e : EntrySnapshot) : Bool := e.attributes &&& 0x400 ≠ 0

/-- `hints_.contains`. -/
def hasHint (e : EntrySnapshot) (name : String) : Bool := (e.hints.find (ascii name)).isSome

/-! ### Paths -/

/-- `Parent`. -/
def parentOf (path : Str) : Str := if parent slash path = [] then [slash] else parent slash path

/-- The parents from `path` up, without the root; at most so many. -/
def ups : Nat → Str → List Str
  | 0, _ => []
  | n + 1, path => if parentOf path = [slash] then [] else parentOf path :: ups n (parentOf path)

/-- `QString::fromStdString`; none if the text is not the same again in UTF-8. -/
def fromStdString (path : Str) : Option Units :=
  path.toByteArray.utf8Decode?.map fun cs => cs.toList.flatMap units

/-- `[1-9¹²³]`. -/
def isPort (c : UInt16) : Bool := 49 ≤ c && c ≤ 57 || c = 0xb9 || c = 0xb2 || c = 0xb3

/-- The name of a device. -/
def isDevice (stem : Units) : Bool :=
  stem ∈ ["CON", "PRN", "AUX", "NUL"].map wide ||
    stem.length = 4 && (stem.take 3 = wide "COM" || stem.take 3 = wide "LPT") &&
      (stem.drop 3).all isPort

/-- A part of a path that no file can have as its name. -/
def isUnrepresentable (letters : Letters) (part : Units) : Bool :=
  part = [] || part = wide "." || part = wide ".." || part.getLast? = some 46 ||
    part.getLast? = some 32 || part.length > 255 ||
    part.any (fun c => c ∈ wide "\\:*?\"<>|" || c < 0x20) ||
    isDevice (letters.toUpper (part.takeWhile (· ≠ 46)))

/-- `SafePath`. -/
def safePath (letters : Letters) (maxDepth : Nat) (path : Str) : Except Error Str := do
  failIf (path.length < 2 ∨ path.head? ≠ some slash ∨ path.getLast? = some slash ∨ 0 ∈ path)
    (invalid "invalid-archive-mutation-path")
  match fromStdString path with
  | none => .error (invalid "archive-mutation-path-encoding-or-length")
  | some text => do
    failIf (text.length > 1000) (invalid "archive-mutation-path-encoding-or-length")
    let parts := (text.drop 1).splitOn 47
    failIf (parts.length > maxDepth) (budget "archive-depth-budget")
    failIf (parts.any (isUnrepresentable letters))
      (invalid "archive-mutation-name-not-representable")
    pure path

/-- The path as names are compared in a file system. -/
def nativeName (letters : Letters) (path : Str) : Units :=
  letters.toCaseFolded ((fromStdString path).getD [])

/-! ### Reading an archive -/

/-- `EntryPage`. -/
structure Page where
  entries : List EntrySnapshot
  end_ : Bool

/-- `IStorageProvider`: the pages of each directory, up to the one with the end. -/
structure Reader where
  id : Str
  enumerate : Locator → Except Error (List (Except Error Page))

/-- `SameArchiveContainer`. -/
def sameArchiveContainer (a b : Locator) : Bool :=
  a.kind = .archive && b.kind = .archive && a.root = b.root && a.nesting ≠ [] &&
    a.nesting.map ContainerHop.provider = b.nesting.map ContainerHop.provider &&
    (a.nesting.map ContainerHop.entry).dropLast = (b.nesting.map ContainerHop.entry).dropLast

/-- `nesting_.back().entry_`. -/
def lastEntry (l : Locator) : Str := (l.nesting.getLast?.map ContainerHop.entry).getD []

/-- What `BeginWcxMutation` asks of its archive. -/
def checkRequest (limits : Limits) (reader : Reader) (root : Locator) : Except Error Unit :=
  failIf ((reader.id ≠ ascii "wcx" ∧ ¬ (reader.id = ascii "iso" ∧ root.nesting.length = 1)) ∨
    root.kind ≠ .archive ∨ root.nesting = [] ∨ root.nesting.length > 8 ∨
    (∃ hop ∈ root.nesting, hop.provider ≠ ascii "wcx") ∨ lastEntry root ≠ [slash] ∨
    limits.maxEntries = 0 ∨ limits.maxDepth = 0 ∨ limits.maxDepth > 32 ∨ limits.maxInputBytes = 0)
    (invalid "invalid-archive-mutation-request")

section Snapshot

variable (letters : Letters) (limits : Limits) (reader : Reader) (root : Locator)

/-- An entry of the directory `at_` goes to the draft, and to what is still to read. -/
def addEntry (at_ : Locator) (s : Draft × List Locator) (entry : EntrySnapshot) :
    Except Error (Draft × List Locator) := do
  failIf (entry.locator.kind ≠ .archive ∨ entry.locator.root ≠ root.root ∨
    sameArchiveContainer entry.locator root = false ∨ entry.id.provider ≠ reader.id)
    (invalid "archive-provider-entry-mismatch")
  let path ← safePath letters limits.maxDepth (lastEntry entry.locator)
  failIf (parentOf path ≠ lastEntry at_ ∨
    isReparse entry = true ∧ hasHint entry "metadataRename" = false)
    (invalid "archive-provider-entry-parent")
  failIf ((s.1.find path).isSome) (invalid "duplicate-archive-entry")
  let draft := s.1.set path
    { entry := entry, metadataOrigin := (entry.hints.find (ascii "wcxName")).getD [] }
  failIf (draft.entries.length > limits.maxEntries) (budget "archive-entry-budget")
  pure (draft, if entry.directory && !isReparse entry then entry.locator :: s.2 else s.2)

/-- The pages of a directory. -/
def addPages (at_ : Locator) :
    List (Except Error Page) → Draft × List Locator → Except Error (Draft × List Locator)
  | [], _ => .error (invalid "archive-cursor-no-progress")
  | .error e :: _, _ => .error e
  | .ok page :: pages, s => do
    failIf (page.entries = [] ∧ page.end_ = false) (invalid "archive-cursor-no-progress")
    let s ← page.entries.foldlM (addEntry letters limits reader root at_) s
    if page.end_ then pure s else addPages at_ pages s

/-- The loop of `snapshot`, for at most so many directories. -/
def snapshotLoop : Nat → List Locator → Draft → Except Error Draft
  | _, [], draft => .ok draft
  | 0, _ :: _, _ => .error exception
  | n + 1, at_ :: pending, draft => do
    let pages ← reader.enumerate at_
    let s ← addPages letters limits reader root at_ pages (draft, pending)
    snapshotLoop n s.2 s.1

/-- `snapshot`. -/
def snapshot (directories : Nat) : Except Error Draft :=
  snapshotLoop letters limits reader root directories [root] .empty

end Snapshot

/-! ### Changes -/

/-- `expected`. -/
def expected (draft : Draft) (path : Str) (destination : Destination) : Except Error Unit :=
  match draft.find path with
  | none => failIf destination.exists_ (stale "archive-destination-changed")
  | some item => do
    failIf (destination.exists_ = false) (stale "archive-destination-changed")
    failIf (destination.revision = none ∨ item.entry.id.revision ≠ destination.revision)
      (stale "archive-destination-revision-changed")

/-- `Affected`: a path and all that begin with it and a slash. -/
def affected (draft : Draft) (path : Str) : List Str :=
  path :: ((draft.entries.dropWhile fun e => e.1 < path ++ [slash]).takeWhile
    fun e => path ++ [slash] <+: e.1).map Prod.fst

/-- Takes entries out of the draft. -/
def detach : List Str → Draft → List (Str × DraftEntry) × Draft
  | [], draft => ([], draft)
  | path :: paths, draft =>
    let rest := detach paths (draft.erase path)
    match draft.find path with
    | some item => ((path, item) :: rest.1, rest.2)
    | none => rest

/-- An entry that has moved. -/
def renamedItem (item : DraftEntry) : DraftEntry :=
  let reuse := hasHint item.entry "metadataRename"
  { item with
    reuseData := reuse
    content :=
      if !reuse && !item.entry.directory && item.content.isNone then some (.provider item.entry)
      else item.content
    changed := true }

/-- The entries that moved come back under other paths. -/
def attach : List (Str × DraftEntry) → Draft → Except Error Draft
  | [], draft => .ok draft
  | (path, item) :: renamed, draft => do
    failIf ((draft.find path).isSome) (invalid "archive-rename-collision")
    attach renamed (draft.set path item)

/-- The entry of `Put` and `MakeDirectory`, in the place of another one or of none. -/
def putItem (change : Change) (old : Option DraftEntry) : DraftEntry :=
  let entry : EntrySnapshot :=
    if change.kind = .makeDirectory then { directory := true }
    else (change.content.map Content.describe).getD {}
  { entry :=
      if (old.map fun o => hasHint o.entry "encrypted").getD false then
        { entry with hints := entry.hints.set (ascii "encrypted") (ascii "1") }
      else entry
    content := if change.kind = .makeDirectory then none else change.content
    changed := true
    metadataOrigin := (old.map DraftEntry.metadataOrigin).getD [] }

/-- The checks of `Put` and `MakeDirectory`. -/
def checkPut (change : Change) (old : Option DraftEntry) : Except Error Unit := do
  failIf ((old.map fun o => o.entry.directory).getD false) (invalid "archive-directory-replace")
  failIf ((old.map fun o => isReparse o.entry).getD false)
    (unsupported "archive-special-content-replace")
  failIf (change.kind ≠ .makeDirectory ∧ change.content = none)
    (invalid "archive-content-required")
  failIf (change.kind ≠ .makeDirectory ∧ ∃ c ∈ change.content,
    c.describe.directory = true ∨ isReparse c.describe = true)
    (invalid "archive-file-content-required")

section Plan

variable (letters : Letters) (limits : Limits)

/-- The checks of `Rename` before anything moves. -/
def checkRename (draft : Draft) (change : Change) : Except Error Unit := do
  let _ ← safePath letters limits.maxDepth change.target
  failIf (Inside slash change.path change.target) (invalid "archive-rename-inside-source")
  failIf change.destination.exists_ (unsupported "archive-rename-replace-unavailable")
  expected draft change.target change.destination

/-- The source of `Remove` and `Rename` is the entry that was selected. -/
def checkSource (draft : Draft) (change : Change) : Except Error Unit :=
  match change.source, draft.find change.path with
  | some id, some item =>
    failIf (item.changed = true ∨ item.entry.id ≠ id) (stale "archive-source-changed")
  | _, _ => .error (stale "archive-source-changed")

/-- One change. -/
def applyChange (draft : Draft) (change : Change) : Except Error Draft := do
  let _ ← safePath letters limits.maxDepth change.path
  match change.kind with
  | .remove => do
    checkSource draft change
    pure (detach (affected draft change.path) draft).2
  | .rename => do
    checkSource draft change
    checkRename letters limits draft change
    let (items, rest) := detach (affected draft change.path) draft
    attach (items.map fun e =>
      (change.target ++ e.1.drop change.path.length, renamedItem e.2)) rest
  | _ => do
    expected draft change.path change.destination
    checkPut change (draft.find change.path)
    pure (draft.set change.path (putItem change (draft.find change.path)))

/-- `OperationContext`: what the check says before each change, and the workload. -/
structure Context where
  check : Nat → Option Error := fun _ => none
  isAutomatic : Bool := false
  expansionRatio : Nat := 0

variable (context : Context)

/-- The changes one after another, the first of them with this number. -/
def applyChanges : Nat → List Change → Draft → Except Error Draft
  | _, [], draft => .ok draft
  | n, change :: changes, draft =>
    match context.check n with
    | some e => .error e
    | none => do
      let draft ← applyChange letters limits draft change
      applyChanges (n + 1) changes draft

/-! ### The checks at the end -/

/-- The digits of `std::stoull`, the last first. -/
def digits : Str → List Nat → List Nat
  | c :: rest, ds => if 48 ≤ c ∧ c ≤ 57 then digits rest ((c.toNat - 48) :: ds) else ds
  | [], ds => ds

/-- `std::stoull`; none for an exception. -/
def stoull (text : Str) : Option Nat :=
  let text := text.dropWhile fun c => c = 32 || 9 ≤ c && c ≤ 13
  let negative := text.head? = some 45
  let text := if text.head? = some 45 ∨ text.head? = some 43 then text.drop 1 else text
  let ds := digits text []
  let n := ds.foldr (fun d n => d + 10 * n) 0
  if ds = [] ∨ n ≥ 2 ^ 64 then none
  else some (if negative then (2 ^ 64 - n) % 2 ^ 64 else n)

/-- The size of a file against the budget that is left. -/
def checkSize (archiveSize expanded : Nat) (entry : EntrySnapshot) : Except Error Nat := do
  failIf (entry.size.toNat > limits.maxInputBytes - expanded)
    (budget "archive-expanded-byte-budget")
  match entry.hints.find (ascii "packedSize") with
  | none => pure (expanded + entry.size.toNat)
  | some text =>
    match stoull text with
    | none => .error exception
    | some reported => do
      let packed := if reported ≠ 0 then reported else archiveSize
      failIf (context.isAutomatic = true ∧ entry.size ≠ 0 ∧
        (packed = 0 ∨ (entry.size.toNat - 1) / packed ≥ context.expansionRatio))
        (budget "archive-expansion-budget")
      pure (expanded + entry.size.toNat)

/-- The parents of an entry: a file is refused, one that is missing is noted. -/
def checkParents (draft : Draft) : List Str → List Str → Except Error (List Str)
  | [], parents => .ok parents
  | up :: rest, parents =>
    match draft.find up with
    | some item => do
      failIf (item.entry.directory = false) (invalid "archive-file-parent")
      checkParents draft rest parents
    | none => checkParents draft rest (parents ++ [up])

/-- What the loop over the draft keeps. -/
structure Seen where
  names : List Units := []
  parents : List Str := []
  expanded : Nat := 0

/-- The checks of an entry. -/
def checkEntry (archiveSize : Nat) (draft : Draft) (seen : Seen) (e : Str × DraftEntry) :
    Except Error Seen := do
  let path ← safePath letters limits.maxDepth e.1
  failIf (nativeName letters path ∈ seen.names) (invalid "archive-native-name-collision")
  let expanded ←
    (if e.2.entry.directory then pure seen.expanded
      else checkSize limits context archiveSize seen.expanded e.2.entry)
  let parents ← checkParents draft (ups path.length path) seen.parents
  pure { names := nativeName letters path :: seen.names, parents := parents, expanded := expanded }

/-- A directory that has no record of its own. -/
def newDirectory : DraftEntry := { entry := { directory := true }, changed := true }

/-- `try_emplace` of the parents that are missing. -/
def addParents (parents : List Str) (draft : Draft) : Draft :=
  parents.foldl (fun d p => if (d.find p).isSome then d else d.set p newDirectory) draft

/-- A parent that the archive had no record for. -/
def isImplicit (item : DraftEntry) : Bool :=
  item.entry.directory && !item.changed && item.entry.hints.entries.isEmpty

/-- Goes if nothing is beneath it. -/
def dropEmpty (draft : Draft) (path : Str) : Draft :=
  match draft.lowerBound (path ++ [slash]) with
  | some child => if path ++ [slash] <+: child.1 then draft else draft.erase path
  | none => draft.erase path

/-- The loop over `ImplicitParents`. -/
def dropImplicit (draft : Draft) : Draft :=
  ((draft.entries.filter fun e => isImplicit e.2).map Prod.fst).reverse.foldl dropEmpty draft

/-- `plan`. -/
def plan (archiveSize : Nat) (draft : Draft) (changes : List Change) : Except Error Draft := do
  failIf (changes = [] ∨ changes.length > limits.maxEntries) (invalid "archive-change-count")
  let draft ← applyChanges letters limits context 0 changes draft
  let seen ← draft.entries.foldlM (checkEntry letters limits context archiveSize draft) {}
  let draft := dropImplicit (addParents seen.parents draft)
  failIf (draft.entries.length > limits.maxEntries) (budget "archive-entry-budget")
  pure draft

end Plan

end Hc.Archive
