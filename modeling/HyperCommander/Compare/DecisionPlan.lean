import HyperCommander.Compare.MergeWork
import HyperCommander.Lib.Segments

/-!
# Decision plans (`HyperCompare/runtime/decisionPlan.cpp`)

A plan is a JSON document that lists the blocks of a merge with a choice for each of them.
`ApplyDecisionPlan` checks it against the one that `MakeDecisionPlan` writes for the session, and
streams the result out of the seed text and the choices.
-/

namespace Hc.Compare

open Slice Outcome

/-! ## JSON values -/

/-- `QJsonValue`. The keys of an object are sorted. -/
inductive QJson
  | undefined
  | bool (value : Bool)
  | number (value : Int)
  | string (text : String)
  | array (values : List QJson)
  | object (fields : List (String × QJson))

/-- `QJsonObject`. -/
abbrev Fields := List (String × QJson)

mutual

/-- `operator==`. -/
def QJson.beq : QJson → QJson → Bool
  | .undefined, .undefined => true
  | .bool a, .bool b => a == b
  | .number a, .number b => a == b
  | .string a, .string b => a == b
  | .array as, .array bs => QJson.beqValues as bs
  | .object as, .object bs => QJson.beqFields as bs
  | _, _ => false

def QJson.beqValues : List QJson → List QJson → Bool
  | [], [] => true
  | a :: as, b :: bs => a.beq b && QJson.beqValues as bs
  | _, _ => false

def QJson.beqFields : Fields → Fields → Bool
  | [], [] => true
  | (k, a) :: as, (l, b) :: bs => k == l && (a.beq b && QJson.beqFields as bs)
  | _, _ => false

end

namespace QJson

/-- `toString`: the empty string for every other value. -/
def toText : QJson → String
  | string text => text
  | _ => ""

def isText : QJson → Bool
  | string _ => true
  | _ => false

/-- `toArray`: the empty array for every other value. -/
def toValues : QJson → List QJson
  | array values => values
  | _ => []

def isArray : QJson → Bool
  | array _ => true
  | _ => false

/-- `toObject`: the empty object for every other value. -/
def toFields : QJson → Fields
  | object fields => fields
  | _ => []

def isObject : QJson → Bool
  | object _ => true
  | _ => false

end QJson

namespace Fields

/-- `keys`. -/
def keys (o : Fields) : List String := o.map Prod.fst

/-- `operator[]` for reading. -/
def value (o : Fields) (key : String) : QJson :=
  ((o.find? fun f => f.1 == key).map Prod.snd).getD .undefined

/-- `operator[]` for writing. -/
def insert (o : Fields) (key : String) (v : QJson) : Fields :=
  match o with
  | [] => [(key, v)]
  | f :: rest =>
    if key = f.1 then (key, v) :: rest
    else if key < f.1 then (key, v) :: f :: rest
    else f :: insert rest key v

/-- `remove`. -/
def remove (o : Fields) (key : String) : Fields := o.filter fun f => f.1 != key

/-- An object from an initializer list. -/
def ofList (fields : Fields) : Fields := fields.foldl (fun o f => insert o f.1 f.2) []

end Fields

/-- `toUtf8`. -/
def utf8 (text : String) : Bytes := text.toUTF8.data.toList

/-- What Qt gives a plan: SHA-256 in hexadecimal digits (`QCryptographicHash`), and the compact
text of an object (`QJsonDocument::toJson`). -/
structure Qt where
  digest : Bytes → String
  compact : Fields → Bytes

/-! ## The session -/

/-- `Snapshot`. -/
structure Snapshot where
  path : String
  encoding : String
  raw : Bytes
  utf8 : Bytes
  bom : Bool

/-- `Request`. -/
structure Request where
  encoding : String
  takeAll : String

/-- `Result`. -/
structure Session where
  inputs : List Snapshot
  merged : MergeResult
  plan : Option MergePlan
  output : Bytes := []
  exitCode : Int := 2
  error : String := ""
  outcome : String := "Unknown"

/-- `textEngineVersion`. -/
def textEngineVersion : String := "myers-bounded-4"

/-- `seed`. -/
def seed (session : Session) (plan : MergePlan) : Bytes :=
  if plan.hasBase then session.merged.text
  else (session.inputs.head?.map Snapshot.utf8).getD []

/-! ## Writing a plan -/

/-- The loop over the inputs of `DecisionIdentity`. -/
def identityInputs (qt : Qt) (limits : Budget) : (i : Nat) → List Snapshot → Run (List QJson)
  | _, [] => pure []
  | i, input :: rest => do
    limits.check
    let more ← identityInputs qt limits (i + 1) rest
    pure (.object (Fields.ofList [
      ("role", .string (if i = 0 then "left" else if i = 1 then "right" else "base")),
      ("path", .string input.path), ("sha256", .string (qt.digest input.raw)),
      ("encoding", .string input.encoding), ("bom", .bool input.bom)]) :: more)

/-- `DecisionIdentity`, with the plan of the session. -/
def decisionIdentity (qt : Qt) (limits : Budget) (input : Request) (session : Session) :
    Run (MergePlan × Fields) :=
  match session.plan with
  | none => throw ⟨"InvalidDecisionSession"⟩
  | some plan => do
    throwIf (session.inputs.length < 2) "InvalidDecisionSession"
    throwIf (plan.blocks.length > decisionBlockLimit) "DecisionBlockLimit"
    let inputs ← identityInputs qt limits 0 session.inputs
    let policy := Fields.ofList [("encoding", .string input.encoding),
      ("comparison", .string "exact-lines-v1"),
      ("seed", .string (if plan.hasBase then "base-with-independent-changes" else "left")),
      ("outputEncoding", .string "left")]
    let policy := if plan.hasBase then policy.insert "blockLayout" (.string "all-change-regions-v1")
      else policy
    let result := Fields.ofList [("schemaVersion", .number 1),
      ("kind", .string "text-merge-decisions"), ("engineVersion", .string textEngineVersion),
      ("policyDigest", .string (qt.digest (qt.compact policy))), ("inputs", .array inputs)]
    pure (plan, result.insert "generation" (.string (qt.digest (qt.compact result))))

/-- The names of the choices, in the order of `Resolution`. -/
def choiceNames : List (String × Resolution) :=
  [("unresolved", .unresolved), ("left", .left), ("right", .right), ("base", .base),
    ("leftThenRight", .leftThenRight), ("rightThenLeft", .rightThenLeft), ("manual", .manual),
    ("omit", .omit)]

/-- The loop over the blocks of `MakeDecisionPlan`. The lists of a plan have one length. -/
def planBlocks (qt : Qt) (limits : Budget) (hasBase : Bool) (generation : String)
    (initial : Bytes) :
    (i : Nat) → List MergeBlock → List BlockState → Run (List QJson)
  | _, [], _ => pure []
  | _, _ :: _, [] => throw ⟨outOfRange⟩
  | i, block :: blocks, range :: ranges => do
    limits.check
    throwIf (range.begin_ > range.end_ ∨ range.end_ > initial.length) "InvalidMergeLocation"
    let spanDigest := qt.digest (slice initial range.begin_ range.end_)
    let more ← planBlocks qt limits hasBase generation initial (i + 1) blocks ranges
    pure (.object (Fields.ofList [
      ("changeId",
        .string (qt.digest (utf8 generation ++ utf8 ":" ++ utf8 (toString i) ++ utf8 ":" ++
        utf8 spanDigest))),
      ("expectedSpanDigest", .string spanDigest),
      ("leftLine", .number (block.leftLine + 1)), ("rightLine", .number (block.rightLine + 1)),
      ("baseLine", .number (if hasBase then block.baseLine + 1 else 0)),
      ("choice", .string (if range.resolution = .left then "left"
        else if range.resolution = .right then "right" else "unresolved")),
      ("replacement", .string "")]) :: more)

/-- `MakeDecisionPlan`, with the plan of the session. -/
def makeDecisionPlan (qt : Qt) (limits : Budget) (input : Request) (session : Session) :
    Run (MergePlan × Fields) := do
  throwIf (input.takeAll ≠ "") "InvalidDecisionSession"
  let found ← decisionIdentity qt limits input session
  let blocks ← planBlocks qt limits found.1.hasBase (found.2.value "generation").toText
    (seed session found.1) 0 found.1.blocks found.1.initial
  pure (found.1, found.2.insert "blocks" (.array blocks))

/-! ## Applying a plan -/

/-- The `append` lambda. -/
def appendResult (output bytes : Bytes) : Run Bytes := do
  throwIf (bytes.length > resultLimit - output.length) "ResultSizeLimit"
  pure (output ++ bytes)

/-- What the loop of `ApplyDecisionPlan` carries. -/
structure Applied where
  output : Bytes := []
  initial : List BlockState
  cursor : Nat := 0
  unresolved : Nat := 0

/-- The checks on one block of the document: its choice, and the text of a manual one. -/
def readChoice (hasBase : Bool) (choice reference : QJson) : Run (Resolution × Bytes) := do
  throwIf (choice.isObject = false) "InvalidDecisionPlan"
  let fields := choice.toFields
  let expected := reference.toFields
  throwIf (fields.keys ≠ expected.keys ∨ (fields.value "choice").isText = false ∨
    (fields.value "replacement").isText = false) "InvalidDecisionPlan"
  let name := (fields.value "choice").toText
  let manual := utf8 (fields.value "replacement").toText
  throwIf ((QJson.object ((fields.remove "choice").remove "replacement")).beq
    (.object ((expected.remove "choice").remove "replacement")) = false) "StalePlan"
  match choiceNames.find? fun c => c.1 == name with
  | none => throw ⟨"InvalidDecisionChoice"⟩
  | some c => do
    throwIf (c.2 = .base ∧ hasBase = false ∨ c.2 ≠ .manual ∧ manual ≠ []) "InvalidDecisionChoice"
    pure (c.2, manual)

/-- The text that block `i` gets. -/
def chosenText (model : MergeModel) (initial manual : Bytes) (i : Nat) (range : BlockState) :
    Resolution → Run Bytes
  | .unresolved => pure (slice initial range.begin_ range.end_)
  | .manual => pure manual
  | resolution =>
    match model.prepare (i + 1) model.revision resolution with
    | .ok edit => pure edit.replacement
    | .error failure => throw failure

/-- The loop over the blocks. -/
def applyChoices (limits : Budget) (model : MergeModel) (initial : Bytes) :
    (i : Nat) → List (QJson × QJson) → Applied → Run Applied
  | _, [], a => pure a
  | i, (choice, reference) :: rest, a => do
    limits.check
    let read ← readChoice model.plan.hasBase choice reference
    match model.state[i]? with
    | none => throw ⟨outOfRange⟩
    | some range => do
      throwIf (range.begin_ < a.cursor ∨ range.end_ > initial.length) "InvalidMergeLocation"
      let before ← appendResult a.output (slice initial a.cursor range.begin_)
      let text ← chosenText model initial read.2 i range read.1
      let output ← appendResult before text
      applyChoices limits model initial (i + 1) rest
        ⟨output, a.initial.set i ⟨before.length, output.length, read.1, true⟩, range.end_,
          a.unresolved + if read.1 = .unresolved then 1 else 0⟩

/-- `ApplyDecisionPlan` of the document that `ReadCompareJson` found in the file. `revision` is what
`nextRevision` gives to its model. -/
def applyDecisionPlan (qt : Qt) (limits : Budget) (revision : Nat) (input : Request)
    (session : Session) (document : Fields) : Run Session := do
  let made ← makeDecisionPlan qt limits input session
  let plan := made.1
  let expected := made.2
  throwIf (document.keys ≠ expected.keys) "InvalidDecisionPlan"
  throwIf ((document.value "schemaVersion").beq (.number 1) = false) "UnsupportedDecisionSchema"
  throwIf ((document.value "blocks").isArray = false) "InvalidDecisionPlan"
  let choices := (document.value "blocks").toValues
  let blocks := (expected.value "blocks").toValues
  throwIf ((QJson.object (document.remove "blocks")).beq
    (.object (expected.remove "blocks")) = false) "StalePlan"
  throwIf (choices.length ≠ blocks.length) "IncompleteDecisionPlan"
  let initial := seed session plan
  let a ← applyChoices limits (.new plan revision) initial 0 (choices.zip blocks)
    { initial := plan.initial }
  let output ← appendResult a.output (slice initial a.cursor initial.length)
  limits.check
  pure { session with
    plan := some { plan with initial := a.initial }
    output := output
    exitCode := if a.unresolved = 0 then 0 else 1
    error := if a.unresolved = 0 then "" else "DecisionsRequired"
    outcome := if a.unresolved = 0 then "Planned" else "Conflicted" }

/-- The blocks of `order` decided in the editor, one after another; `choices` tells the decision on
every block and `revisions` what `nextRevision` gives. -/
def chooseEach (left right : Bytes) (revisions : Nat → Nat) (choices : Nat → Resolution) :
    (n : Nat) → (order : List Nat) → Editor → Except Failure Editor
  | _, [], e => pure e
  | n, i :: order, e => do
    let e ← e.act left right (revisions n) (.choose (i + 1) e.model.revision (choices i))
    chooseEach left right revisions choices (n + 1) order e

/-- The choice that a block of a document names. -/
def decisionOf (block : QJson) : Resolution :=
  ((choiceNames.find? fun c => c.1 == (block.toFields.value "choice").toText).map Prod.snd).getD
    .unresolved

/-- The choices of a document, block by block. -/
def decisions (document : Fields) : List Resolution :=
  (document.value "blocks").toValues.map decisionOf

end Hc.Compare
