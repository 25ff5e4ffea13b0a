import HyperCommander.Compare.DecisionPlan
import HyperCommander.Compare.SimilarLines
import HyperCommander.Lib.Unicode
import Mathlib.Data.List.Dedup

/-!
# Function matching (`HyperCompare/runtime/functionMatch.cpp`)

The functions of two analysed sources are paired: by name and signature, then by unique bodies, by
bodies that differ in numeric literals, and by token sequences that differ in a few tokens. What
keeps its order in a scope is not moved.

A function is the JSON object that the analysis gives for it, and is spoken of by its index.
-/

namespace Hc.Compare

open Slice

/-- `toInt`: zero for every other value. -/
def QJson.toInt : QJson → Int
  | .number value => value
  | _ => 0

/-- The UTF-16 units of a text, by which `QString` counts and compares. -/
def textUnits (text : String) : List UInt16 := text.toList.flatMap Unicode.units

/-- `(*this)[key].toString()`. -/
def Fields.text (o : Fields) (key : String) : String := (o.value key).toText

/-- `(*this)[key].toInt()`. -/
def Fields.int (o : Fields) (key : String) : Int := (o.value key).toInt

/-- Whether a field is the same in both objects. -/
def Fields.sameField (a b : Fields) (key : String) : Bool := (a.value key).beq (b.value key)

/-- Whether a text is a digest, by its length. -/
def isDigest (text : String) : Bool := (textUnits text).length == 64

/-! ## Groups -/

/-- `Group`: functions of both sides. -/
structure FunctionGroup where
  left : List Nat
  right : List Nat

/-- The map from keys to groups, filled with the functions `as` and `bs`, in the order of its
keys. -/
def groupBy (keyLeft keyRight : Nat → String) (as bs : List Nat) : List FunctionGroup :=
  (((as.map keyLeft ++ bs.map keyRight).dedup).mergeSort fun a b =>
      decide (textUnits a ≤ textUnits b)).map fun key =>
    ⟨as.filter fun i => keyLeft i == key, bs.filter fun i => keyRight i == key⟩

/-- What the passes carry: the partners, and what is known of the functions. -/
structure Matching where
  partner : Nat → Option Nat := fun _ => none
  used : Nat → Bool := fun _ => false
  ambiguousLeft : Nat → Bool := fun _ => false
  ambiguousRight : Nat → Bool := fun _ => false
  renamed : Nat → Bool := fun _ => false
  literalChanged : Nat → Bool := fun _ => false
  tokenChanged : Nat → Bool := fun _ => false

namespace Matching

/-- `partner[a] = b; used[b] = true`. -/
def pair (s : Matching) (a b : Nat) : Matching := { s with
  partner := Function.update s.partner a (some b)
  used := Function.update s.used b true }

/-- Neither function has a partner or is ambiguous. -/
def free (s : Matching) (a b : Nat) : Bool :=
  (s.partner a).isNone && !s.used b && !s.ambiguousLeft a && !s.ambiguousRight b

end Matching

/-! ## Names -/

/-- The loop body over the signatures of a name; their order makes no difference. -/
def pairSignature (s : Matching) (group : FunctionGroup) : Matching :=
  match group.left, group.right with
  | [a], [b] => s.pair a b
  | _, _ => s

/-- The loop body over the names. -/
def matchName (left right : Nat → Fields) (s : Matching) (group : FunctionGroup) : Matching :=
  let s :=
    (groupBy (fun i => (left i).text "signature") (fun i => (right i).text "signature") group.left
    group.right).foldl pairSignature s
  let as := group.left.filter fun i => (s.partner i).isNone
  let bs := group.right.filter fun i => !s.used i
  match as, bs with
  | [a], [b] => s.pair a b
  | as, bs =>
    if as ≠ [] ∧ bs ≠ [] then { s with
      ambiguousLeft := fun i => s.ambiguousLeft i || as.contains i
      ambiguousRight := fun i => s.ambiguousRight i || bs.contains i }
    else s

/-! ## Bodies -/

/-- `scope + QChar(0) + renameSignature`. -/
def shapeKey (f : Fields) : String := f.text "scope" ++ "\x00" ++ f.text "renameSignature"

/-- The functions that the second pass looks at. -/
def hasBody (f : Fields) : Bool :=
  isDigest (f.text "renameSignature") && decide (12 ≤ f.int "bodyTokens")

/-- The loop body over the groups with one body. -/
def matchBody (left right : Nat → Fields) (s : Matching) (group : FunctionGroup) : Matching :=
  match group.left, group.right with
  | [a], [b] =>
    if s.free a b = false ∨ (left a).sameField (right b) "name" = true then s
    else { s.pair a b with renamed := Function.update s.renamed a true }
  | _, _ => s

/-- The functions that the third pass looks at. -/
def hasLiterals (f : Fields) : Bool :=
  let tokens := f.int "bodyTokens"
  let numbers := f.int "numberTokens"
  isDigest (f.text "renameSignature") && isDigest (f.text "literalShape") &&
    decide (24 ≤ tokens ∧ tokens ≤ 4096 ∧ 1 ≤ numbers ∧ numbers ≤ 4 ∧ numbers * 10 ≤ tokens)

/-- The loop body over the groups with one shape of a body. -/
def matchLiterals (left right : Nat → Fields) (s : Matching) (group : FunctionGroup) : Matching :=
  match group.left, group.right with
  | [a], [b] =>
    let source := left a
    let target := right b
    if s.free a b = false ∨ source.sameField target "name" = true ∨
      source.sameField target "body" = true ∨
        source.sameField target "bodyTokens" = false ∨
        source.sameField target "numberTokens" = false then s
    else { s.pair a b with
      renamed := Function.update s.renamed a true
      literalChanged := Function.update s.literalChanged a true }
  | _, _ => s

/-! ## Token sequences -/

/-- The lambda `step`. -/
def similarityStep (limits : Budget) (work : Nat) : Run Nat := do
  throwIf (work + 1 > min limits.steps 4000000) "FunctionSimilarityWorkLimit"
  (if (work + 1) % 1024 = 0 then limits.check else pure ())
  pure (work + 1)

/-- The loop over the tokens that two sequences begin with: their number, and the work. -/
def commonTokens (limits : Budget) : List QJson → List QJson → (work : Nat) → Run (Nat × Nat)
  | x :: xs, y :: ys, work => do
    let work ← similarityStep limits work
    if x.beq y = false then pure (0, work)
    else do
      let more ← commonTokens limits xs ys work
      pure (more.1 + 1, more.2)
  | _, _, work => pure (0, work)

/-- A cell of the band. -/
def bandCell (limits : Budget) (x : QJson) (y : List QJson) (previous : List Int)
    (row : List Int × Nat) (j : Nat) : Run (List Int × Nat) := do
  let work ← similarityStep limits row.2
  let value := max (previous.getD j 0) (row.1.getD (j - 1) 0)
  let value :=
    if x.beq (y.getD (j - 1) .undefined) then max value (previous.getD (j - 1) 0 + 1) else value
  pure (row.1.set j value, work)

/-- A row of the band. -/
def bandRow (limits : Budget) (x y : List QJson) (rows : List Int × Nat) (i : Nat) :
    Run (List Int × Nat) :=
  let first := max 1 (i - 3)
  let last := min y.length (i + 3)
  let current := List.replicate 257 (-1000)
  (List.range' first (last + 1 - first)).foldlM
    (bandCell limits (x.getD (i - 1) .undefined) y rows.1)
    (if i ≤ 3 then current.set 0 0 else current, rows.2)

/-- The score of two sequences out of 1000, and the work. -/
def tokenScore (limits : Budget) (x y : List QJson) (work : Nat) : Run (Nat × Nat) := do
  let start ← commonTokens limits x y work
  let end_ ← commonTokens limits (x.drop start.1).reverse (y.drop start.1).reverse start.2
  let common := start.1 + end_.1
  let band ← if (x.length - common > 3 ∨ y.length - common > 3) ∧
      x.length ≤ y.length + 3 ∧ y.length ≤ x.length + 3 then
    (List.range' 1 x.length).foldlM (bandRow limits x y)
      (List.replicate (min 3 y.length + 1) 0 ++
        List.replicate (256 - min 3 y.length) (-1000), end_.2)
    else pure ([], end_.2)
  let matched : Int := max common (band.1.getD y.length 0)
  pure (if x.length - matched ≤ 3 ∧ y.length - matched ≤ 3 then
    (2000 * matched / (x.length + y.length)).toNat else 0, band.2)

/-- The best scores of the functions of a group, by their places in it. -/
structure GroupScores where
  left : Nat → Best := fun _ => {}
  right : Nat → Best := fun _ => {}

/-- The loop over the pairs of a group. -/
def scorePairs (limits : Budget) (python : Bool) (left right : List Fields) :
    List (Nat × Nat) → GroupScores → (work : Nat) → Run (GroupScores × Nat)
  | [], scores, work => pure (scores, work)
  | (a, b) :: pairs, scores, work => do
    let x := left.getD a []
    let y := right.getD b []
    if python = true ∧ (isDigest (x.text "tokenStructure") = false ∨
        x.sameField y "tokenStructure" = false) then
      scorePairs limits python left right pairs scores work
    else do
      let score ← tokenScore limits (x.value "bodySequence").toValues
        (y.value "bodySequence").toValues work
      scorePairs limits python left right pairs
        ⟨Function.update scores.left a ((scores.left a).add score.1 b),
          Function.update scores.right b ((scores.right b).add score.1 a)⟩ score.2

/-- The loop body over the functions of a group. -/
def matchSimilar (left right : Nat → Fields) (group : FunctionGroup) (scores : GroupScores)
    (s : Matching) (a : Nat) : Matching :=
  let best := scores.left a
  let other := scores.right best.choice
  match group.left[a]?, group.right[best.choice]? with
  | some i, some j =>
    if best.first < 900 ∨ best.first < best.second + 50 ∨ other.choice ≠ a ∨
        other.first < other.second + 50 ∨ s.free i j = false ∨
        (left i).sameField (right j) "name" = true ∨
        (left i).sameField (right j) "body" = true then s
    else { s.pair i j with
      renamed := Function.update s.renamed i true
      literalChanged := Function.update s.literalChanged i true
      tokenChanged := Function.update s.tokenChanged i true }
  | _, _ => s

/-- What the last pass carries. -/
structure SimilarityState where
  matching : Matching
  limited : Bool := false
  work : Nat := 0

/-- Whether the token sequence of a function was left out of the analysis. -/
def sequenceOmitted (f : Fields) : Bool :=
  (f.value "bodySequence").toValues.isEmpty &&
    decide (32 ≤ f.int "bodyTokens" ∧ f.int "bodyTokens" ≤ 256)

/-- Whether the token sequence of a function cannot be compared. -/
def sequenceMissing (f : Fields) : Bool :=
  let size := (f.value "bodySequence").toValues.length
  decide (size < 32 ∨ size > 256 ∨ (size : Int) ≠ f.int "bodyTokens")

/-- The loop body over the groups of the last pass. -/
def matchSequences (limits : Budget) (python : Bool) (left right : Nat → Fields)
    (s : SimilarityState) (group : FunctionGroup) : Run SimilarityState := do
  limits.check
  if group.left = [] ∨ group.right = [] then pure s
  else if (group.left.all fun i => (s.matching.partner i).isSome) ∨
      (group.right.all fun i => s.matching.used i) then pure s
  else if group.left.length > 32 ∨ group.right.length > 32 then pure { s with limited := true }
  else
    let functions := group.left.map left ++ group.right.map right
    let s := { s with limited := s.limited || functions.any sequenceOmitted }
    -- Omitted tokens must not make a match of competing functions look unique.
    if functions.any sequenceMissing then pure s
    else do
      let pairs := (List.range group.left.length).flatMap fun a =>
        (List.range group.right.length).map fun b => (a, b)
      let scores ← scorePairs limits python (group.left.map left) (group.right.map right)
        pairs {} s.work
      pure { s with
        matching :=
          (List.range group.left.length).foldl (matchSimilar left right group scores.1) s.matching
        work := scores.2 }

/-! ## Moves -/

/-- The functions of a scope that keep their order. -/
def keptInScope (s : Matching) (indexes : List Nat) : List Nat :=
  (longestChain (indexes.map fun i => (i, (s.partner i).getD 0))).map Prod.fst

/-- The loop body over the scopes. -/
def markMoved (s : Matching) (moved : Nat → Bool) (indexes : List Nat) : Nat → Bool :=
  let kept := keptInScope s indexes
  fun i => if indexes.contains i then !kept.contains i else moved i

/-- `scopes`: the matched functions, by the scope on the left. -/
def scopesOf (left : Nat → Fields) (s : Matching) (n : Nat) : List (List Nat) :=
  (groupBy (fun i => (left i).text "scope") (fun _ => "")
    ((List.range n).filter fun i => (s.partner i).isSome) []).map FunctionGroup.left

/-! ## Relations -/

/-- An object of `relations`. -/
structure Relation where
  name : QJson
  status : String
  left : Int
  right : Int
  newName : Option QJson := none
  match_ : Option String := none

/-- The status of a function of the left side. -/
def relationStatus (complete ambiguous matched renamed literal moved modified : Bool) : String :=
  if ambiguous then "Ambiguous"
  else if !matched then (if complete then "Removed" else "Unmatched")
  else if renamed then
    if literal then (if moved then "MovedRenamedModified" else "RenamedModified")
    else (if moved then "MovedRenamed" else "Renamed")
  else if moved then (if modified then "MovedModified" else "Moved")
  else if modified then "Modified" else "Unchanged"

/-- Whether a pair says something else on the right. -/
def isModified (left right : Nat → Fields) (s : Matching) (i : Nat) : Bool :=
  match s.partner i with
  | none => false
  | some j => !(left i).sameField (right j) "body" ||
      (!s.renamed i && !(left i).sameField (right j) "signature")

/-- The relation of a function of the left side. -/
def leftRelation (complete : Bool) (left right : Nat → Fields) (s : Matching) (moved : Nat → Bool)
    (i : Nat) : Relation where
  name := (left i).value "name"
  status := relationStatus complete (s.ambiguousLeft i) (s.partner i).isSome (s.renamed i)
    (s.literalChanged i) (moved i) (isModified left right s i)
  left := i
  right := match s.partner i with
    | none => -1
    | some j => j
  newName := match s.partner i with
    | none => none
    | some j => if s.renamed i then some ((right j).value "name") else none
  match_ := match s.partner i with
    | none => some "None"
    | some j =>
      if s.renamed i then
        some (if s.tokenChanged i then "UniqueTokenEdit"
          else if s.literalChanged i then "UniqueNumericLiteralShape" else "UniqueBodySignature")
      else some (if (left i).sameField (right j) "signature" then "Signature" else "UniqueName")

/-- The relation of a function of the right side that has no partner. -/
def rightRelation (complete : Bool) (right : Nat → Fields) (s : Matching) (j : Nat) : Relation where
  name := (right j).value "name"
  status := if s.ambiguousRight j then "Ambiguous" else if complete then "Added" else "Unmatched"
  left := -1
  right := j

/-- What `MatchFunctions` returns. -/
structure FunctionMatch where
  status : String
  reason : Option String := none
  relations : List Relation := []
  moved : Nat := 0
  modified : Nat := 0
  renamed : Nat := 0
  ambiguous : Nat := 0
  bodySimilarityLimited : Bool := false

/-- The lambda `ready`. -/
def isReady (value : Fields) : Bool :=
  (value.value "status").beq (.string "Complete") || (value.value "status").beq (.string "Partial")

def isComplete (value : Fields) : Bool := (value.value "status").beq (.string "Complete")

def isPython (value : Fields) : Bool := (value.value "language").beq (.string "python")

/-- The passes that look at bodies. -/
def matchBodies (limits : Budget) (python : Bool) (left right : Nat → Fields) (n m : Nat)
    (s : Matching) :
    Run SimilarityState := do
  let byBody := groupBy (fun i => shapeKey (left i) ++ (left i).text "body")
    (fun i => shapeKey (right i) ++ (right i).text "body")
    ((List.range n).filter fun i => hasBody (left i))
      ((List.range m).filter fun i => hasBody (right i))
  checkMany limits (n + m + byBody.length)
  let s := byBody.foldl (matchBody left right) s
  let byShape := groupBy (fun i => shapeKey (left i) ++ (left i).text "literalShape")
    (fun i => shapeKey (right i) ++ (right i).text "literalShape")
    ((List.range n).filter fun i => hasLiterals (left i))
    ((List.range m).filter fun i => hasLiterals (right i))
  checkMany limits (n + m + byShape.length)
  let s := byShape.foldl (matchLiterals left right) s
  checkMany limits (n + m)
  (groupBy (fun i => shapeKey (left i)) (fun i => shapeKey (right i))
    ((List.range n).filter fun i => isDigest ((left i).text "renameSignature"))
    ((List.range m).filter fun i => isDigest ((right i).text "renameSignature"))).foldlM
      (matchSequences limits python left right) { matching := s }

/-- The passes over the functions, and what is moved. -/
def matchLists (limits : Budget) (python complete : Bool) (lefts rights : List Fields) :
    Run FunctionMatch := do
  throwIf (lefts.length > 10000 ∨ rights.length > 10000) "FunctionLimit"
  let left := fun i => lefts.getD i []
  let right := fun i => rights.getD i []
  let names := groupBy (fun i => (left i).text "name") (fun i => (right i).text "name")
    (List.range lefts.length) (List.range rights.length)
  checkMany limits (lefts.length + rights.length + names.length)
  let s := names.foldl (matchName left right) {}
  let similar ← if complete then matchBodies limits python left right lefts.length rights.length s
    else pure { matching := s }
  let s := similar.matching
  let scopes := scopesOf left s lefts.length
  checkMany limits (scopes.map List.length).sum
  let moved := scopes.foldl (markMoved s) fun _ => false
  checkMany limits lefts.length
  let unused := (List.range rights.length).filter fun j => !s.used j
  checkMany limits unused.length
  let all := List.range lefts.length
  let ambiguous := all.countP s.ambiguousLeft + unused.countP s.ambiguousRight
  pure {
    status := if complete = true ∧ ambiguous = 0 ∧ similar.limited = false then "Complete"
      else "Partial"
    relations := all.map (leftRelation complete left right s moved) ++
      unused.map (rightRelation complete right s)
    moved := all.countP moved
    modified := all.countP (isModified left right s)
    renamed := all.countP s.renamed
    ambiguous := ambiguous
    bodySimilarityLimited := similar.limited }

/-- `MatchFunctions`. -/
def matchFunctions (limits : Budget) (left right : Fields) : Run FunctionMatch :=
  if isReady left = false ∨ isReady right = false then pure { status := "Unavailable" }
  else
    let python := isPython left || isPython right
    if python = true ∧ left.sameField right "language" = false then
      pure { status := "Unavailable", reason := some "LanguageMismatch" }
    else matchLists limits python (isComplete left && isComplete right)
      ((left.value "functions").toValues.map QJson.toFields)
      ((right.value "functions").toValues.map QJson.toFields)

end Hc.Compare
