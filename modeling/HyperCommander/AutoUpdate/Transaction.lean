import HyperCommander.AutoUpdate.Journal
import HyperCommander.Lib.OrdMap

/-!
# Applying an update (`updateTransaction.cpp`, `updateProtocol.cpp`)

How `ApplyTransaction` makes its journal out of the two inventories and the files that it finds, how
`PlaceWithinTransaction` adds to it, and the runs of the processes that write it. Signatures,
versions of images and the comparison of the staging tree with its inventory are left out: they only
refuse more.
-/

open Outcome

namespace Hc.Update

scoped instance linearOrderUInt8 : LinearOrder UInt8 := Bytes.linearOrderUInt8

/-! ## Inventories -/

/-- `ProductFile`. -/
structure ProductFile where
  path : Text
  hash : Text
  size : Nat
deriving DecidableEq, Repr

variable (sys : System)

/-- What `ParseInventory` asks of the files of an inventory, after those that it has seen. -/
def checkFiles : List ProductFile → List Unicode.Units → Nat → Except Failure Nat
  | [], _, bytes => .ok bytes
  | file :: files, seen, bytes => do
    checkProductRelative file.path
    let name ← wide file.path
    require (file.path ≠ inventoryName ∧ seen.all (fun n => sys.same n name = false) ∧
      validHash file.hash ∧ file.size ≤ 536870912 ∧ file.size ≤ 2147483648 - bytes)
      "update-inventory-file"
    checkFiles files (name :: seen) (bytes + file.size)

/-- The names are equal without regard to case. -/
def sameName (a b : Text) : Bool :=
  match wide a, wide b with
  | .ok a, .ok b => sys.same a b
  | _, _ => false

/-- Files that every release has. -/
def requiredFiles : List Text :=
  ["HyperCommander.exe", "HyperCommanderAdmin.exe", "HyperEditor.exe",
    "Libs/platforms/qwindows.dll"].map ascii

/-- `Inventory`, as `ParseInventory` gives it. -/
structure Inventory where
  files : List ProductFile
  bytes : Nat
  count_lt : files.length < 4096
  checked : checkFiles sys files [] 0 = .ok bytes
  required : ∀ name ∈ requiredFiles, ∃ file ∈ files, sameName sys file.path name = true

/-- What `ApplyTransaction` finds when it is called. -/
structure Release where
  old : Inventory sys
  next : Inventory sys
  /-- The bytes of the inventory in the root, and the size of that in the staging tree. -/
  oldInventory : Text
  nextInventorySize : Nat
  /-- `Manifest::inventoryHash_`, as `ParseManifest` accepts it. -/
  inventoryHash : Text
  inventoryHash_valid : validHash inventoryHash = true
  /-- The files of the root, by the names that they are asked for. -/
  root : Text → Option Text
  /-- The root's file has a signature of the product. -/
  signed : Text → Bool

/-! ## Applying -/

/-- `std::map::emplace`. -/
def emplace (m : OrdMap Text ProductFile) (name : Text) (file : ProductFile) :
    OrdMap Text ProductFile :=
  match m.find name with
  | some _ => m
  | none => m.set name file

/-- The files of an inventory by their paths, and the inventory itself. -/
def filesOf (files : List ProductFile) (inventory : ProductFile) : OrdMap Text ProductFile :=
  emplace (files.foldl (fun m file => emplace m file.path file) .empty) inventory.path inventory

/-- `Originals` and `Replacements` with one root file that packages carry. -/
def addCarried (r : Release sys) (maps : OrdMap Text ProductFile × OrdMap Text ProductFile)
    (name : Text) : OrdMap Text ProductFile × OrdMap Text ProductFile :=
  match maps.2.find (rootCarrier ++ slash :: name) with
  | none => maps
  | some carried =>
    let replacements := emplace maps.2 name ⟨name, carried.hash, carried.size⟩
    match maps.1.find name, r.root name with
    | none, some content =>
      if r.signed name then
        (emplace maps.1 name ⟨name, sys.hashBytes content, content.length⟩, replacements)
      else maps
    | _, _ => (maps.1, replacements)

/-- `Originals` and `Replacements`. -/
def mapsOf (r : Release sys) : OrdMap Text ProductFile × OrdMap Text ProductFile :=
  carriedRootFiles.foldl (addCarried sys r)
    (filesOf r.old.files ⟨inventoryName, sys.hashBytes r.oldInventory, r.oldInventory.length⟩,
      filesOf r.next.files ⟨inventoryName, r.inventoryHash, r.nextInventorySize⟩)

/-- `Ordered`: every name once, in order, the inventory last. -/
def orderedNames (originals replacements : OrdMap Text ProductFile) : List Text :=
  let names : OrdMap Text Unit :=
    (originals.entries ++ replacements.entries).foldl (fun m e => m.set e.1 ()) .empty
  ((names.erase inventoryName).entries.map Prod.fst) ++ [inventoryName]

/-- The entry of a name in the journal. -/
def entryFor (r : Release sys) (originals replacements : OrdMap Text ProductFile) (name : Text) :
    Except Failure Entry :=
  let replacement :=
    match replacements.find name with
    | some file => file.hash
    | none => []
  match r.root name with
  | none => .ok ⟨name, [], replacement, 0, false⟩
  | some content =>
    match originals.find name with
    | none => .error { code := "update-user-file-conflict" }
    | some file => do
      -- `VerifyProductFile`
      require (content.length = file.size ∧ content.length ≤ 536870912) "update-file-size"
      require (sys.hashBytes content = file.hash) "update-file-hash"
      .ok ⟨name, file.hash, replacement, file.size, true⟩

def entriesFor (r : Release sys) (originals replacements : OrdMap Text ProductFile) :
    List Text → Except Failure (List Entry)
  | [] => .ok []
  | name :: names => do
    let entry ← entryFor sys r originals replacements name
    let entries ← entriesFor r originals replacements names
    pure (entry :: entries)

/-- The journal that `ApplyTransaction` begins with. -/
def prepare (r : Release sys) : Except Failure Journal := do
  let (originals, replacements) := mapsOf sys r
  let names := orderedNames originals replacements
  require (names.length ≤ 4096) "update-journal-count"
  let files ← entriesFor sys r originals replacements names
  pure { state := ascii "prepared", files }

/-! ## Promotion -/

/-- One copy is put into the journal, and whether that changes it. -/
def placeCopy (j : Journal) (copy : RootCopy) : Except Failure (Journal × Bool) := do
  let _ ← wide copy.name
  match j.files.findIdx? fun e => sameName sys e.name copy.name with
  | some i =>
    let replacement := (j.files[i]?.map Entry.replacement).getD []
    if replacement = copy.hash then .ok (j, false)
    else do
      require (replacement = []) "update-promotion-pending"
      .ok ({ j with files := j.files.modify i fun e => { e with replacement := copy.hash } }, true)
  | none =>
    if j.promoted.any fun c => sameName sys c.name copy.name && c.hash = copy.hash then
      .ok (j, false)
    else
      .ok ({ j with
        promoted := (j.promoted.filter fun c => ! sameName sys c.name copy.name) ++ [copy] }, true)

/-- `PlaceWithinTransaction`, of a journal that was loaded. -/
def place : Journal → List RootCopy → Except Failure (Journal × Bool)
  | j, [] => .ok (j, false)
  | j, copy :: copies => do
    let (j, changed) ← placeCopy sys j copy
    let (j, changed') ← place j copies
    pure (j, changed || changed')

/-! ## Runs -/

/-- The journal that the running process holds, the one on disk, and all that was written. -/
structure Updater where
  memory : Option Journal := none
  disk : Option Text := none
  written : List (Journal × Text) := []
deriving DecidableEq

/-- What happens to the journal. -/
inductive Event
  /-- `ApplyTransaction` prepares it. -/
  | prepare (r : Release sys)
  /-- The process that holds it goes on to another state. -/
  | state (s : Text)
  /-- The process is gone, and another one loads it. -/
  | load
  /-- `PlaceWithinTransaction`. -/
  | place (copies : List RootCopy)

namespace Updater

/-- The process is gone. -/
def stopped (u : Updater) : Updater := { u with memory := none }

/-- The journal was written as these bytes, or not at all. -/
def stored (u : Updater) (j : Journal) : Except Failure Text → Updater
  | .ok bytes => ⟨some j, some bytes, u.written ++ [(j, bytes)]⟩
  | .error _ => u.stopped

/-- `Save`. -/
def saved (u : Updater) (j : Journal) : Updater := u.stored j (save j)

/-- `Load`. -/
def loaded (u : Updater) : Updater :=
  { u with memory := u.disk.bind fun bytes => (Update.load sys bytes).toOption }

def step (u : Updater) : Event sys → Updater
  | .prepare r =>
    match Update.prepare sys r with
    | .ok j => u.saved j
    | .error _ => u.stopped
  | .state s =>
    match u.memory with
    | some j => u.saved { j with state := s }
    | none => u
  | .load => u.loaded sys
  | .place copies =>
    match (u.loaded sys).memory with
    | none => u.stopped
    | some j =>
      if j.state = ascii "installed" then
        match Update.place sys j copies with
        | .error _ => u.stopped
        | .ok (j', changed) => if changed then (u.loaded sys).saved j' else u.loaded sys
      else u.stopped

def run (u : Updater) (events : List (Event sys)) : Updater := events.foldl (step sys) u

end Updater

end Hc.Update
