import HyperCommander.AutoUpdate.Paths

/-!
# The journal of an update (`updateTransaction.cpp`)

`Save` writes the journal as JSON, `Load` reads it back and checks it. Comparison and folding of
names by letter case are the operating system's (`System`).
-/

open Outcome

namespace Hc.Update

/-- `ValidHash`. -/
def validHash (text : Text) : Bool :=
  text.length = 64 && text.all fun c => 48 ≤ c && c ≤ 57 || 97 ≤ c && c ≤ 102

/-- What the updater asks of the operating system about texts. -/
structure System where
  /-- `CharLowerBuffW`. -/
  lower : Unicode.Units → Unicode.Units
  /-- `CompareStringOrdinal` without regard to case finds the texts equal. -/
  same : Unicode.Units → Unicode.Units → Bool
  /-- SHA-256, in hexadecimal digits. -/
  hashBytes : Text → Text
  hash_valid : ∀ bytes, validHash (hashBytes bytes) = true

/-- `Entry`. -/
structure Entry where
  name : Text
  original : Text
  replacement : Text
  size : Nat
  existed : Bool
deriving DecidableEq, Repr

/-- `RootCopy`. -/
structure RootCopy where
  name : Text
  hash : Text
deriving DecidableEq, Repr

/-- `Journal`. -/
structure Journal where
  state : Text
  files : List Entry
  promoted : List RootCopy := []
deriving DecidableEq, Repr

/-! ## Writing -/

def entryText (e : Entry) : Text :=
  ascii "\x7b\"path\":" ++ quoteJson e.name ++ ascii ",\"existed\":" ++
    (if e.existed then ascii "true" else ascii "false") ++ ascii ",\"original\":" ++
    quoteJson e.original ++ ascii ",\"replacement\":" ++ quoteJson e.replacement ++
    ascii ",\"size\":" ++ decimal e.size ++ [closeBrace]

def copyText (c : RootCopy) : Text :=
  ascii "\x7b\"path\":" ++ quoteJson c.name ++ ascii ",\"sha256\":" ++ quoteJson c.hash ++
    [closeBrace]

def journalText (j : Journal) : Text :=
  ascii "\x7b\"schema\":1,\"state\":" ++ quoteJson j.state ++ ascii ",\"files\":[" ++
    commas (j.files.map entryText) ++ ascii "]" ++
    (if j.promoted = [] then []
    else ascii ",\"promoted\":[" ++ commas (j.promoted.map copyText) ++ ascii "]") ++
    [closeBrace]

/-- `Save`: the bytes that are written. -/
def save (j : Journal) : Except Failure Text := do
  let bytes := journalText j
  let _ ← parseJson bytes
  require (bytes.length ≤ 1048576) "update-journal-flush"
  pure bytes

/-! ## Reading -/

variable (sys : System)

/-- A name without regard to case, as `Load` compares names. -/
def folded (name : Text) : Except Failure Unicode.Units := do
  let text ← wide name
  pure (sys.lower text)

def loadEntry (seen : List Unicode.Units) (item : Json) :
    Except Failure (Entry × List Unicode.Units) := do
  let name ← item.at_ "path" Json.asString
  let original ← item.at_ "original" Json.asString
  let replacement ← item.at_ "replacement" Json.asString
  let size ← item.at_ "size" Json.asNumber
  let existed ← item.at_ "existed" Json.asBoolean
  checkProductRelative name
  let key ← folded sys name
  require (key ∉ seen ∧ size ≤ 536870912 ∧ (if existed then validHash original else original = []) ∧
    (replacement = [] ∨ validHash replacement)) "update-journal-entry"
  pure (⟨name, original, replacement, size, existed⟩, key :: seen)

def loadFiles : List Json → List Entry → List Unicode.Units →
    Except Failure (List Entry × List Unicode.Units)
  | [], files, seen => .ok (files, seen)
  | item :: items, files, seen => do
    require (files.length < 4096) "update-journal-count"
    let (entry, seen) ← loadEntry sys seen item
    loadFiles items (files ++ [entry]) seen

def loadPromoted : List Json → List RootCopy → List Unicode.Units → Except Failure (List RootCopy)
  | [], promoted, _ => .ok promoted
  | item :: items, promoted, seen => do
    let name ← item.at_ "path" Json.asString
    let hash ← item.at_ "sha256" Json.asString
    checkProductRelative name
    let key ← folded sys name
    require (promoted.length < 64 ∧ slash ∉ name ∧ validHash hash ∧ key ∉ seen)
      "update-journal-promoted"
    loadPromoted items (promoted ++ [⟨name, hash⟩]) (key :: seen)

/-- `Load`, of the bytes of the journal. -/
def load (bytes : Text) : Except Failure Journal := do
  require (bytes.length ≤ 1048576) "update-file-size"
  let value ← parseJson bytes
  let schema ← value.at_ "schema" Json.asNumber
  require (schema = 1) "update-journal-schema"
  let state ← value.at_ "state" Json.asString
  let items ← value.at_ "files" Json.asArray
  let (files, seen) ← loadFiles sys items [] []
  require ((files.getLast?.map Entry.name) = some inventoryName) "update-journal-inventory"
  let promoted ←
    (if (value.field "promoted").isSome then do
      let items ← value.at_ "promoted" Json.asArray
      loadPromoted sys items [] seen
    else pure [])
  pure { state, files, promoted }

end Hc.Update
