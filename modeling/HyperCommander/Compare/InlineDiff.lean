import HyperCommander.Compare.MultiSimilar
import HyperCommander.Lib.Erasure

/-!
# Inline differences (`HyperCompare/core/inlineDiff.cpp`)

The changed lines of two texts are paired, and within a pair the ranges are found that the sides do
not share. Unique words that both lines have anchor a pair; between them grapheme clusters are
compared by a table of longest common subsequences.

The boundary finder and the letters of Qt are parameters (`Clusters`). A failure carries what was
found so far, since the time limit ends the search with the pairs done until then.
-/

namespace Hc.Compare

open Slice Erasure

/-- `ByteRange`. -/
abbrev ByteRange := Nat × Nat

/-- `Ranges`. -/
abbrev SideRanges := Sides (List ByteRange)

/-- What Qt knows of characters: `QTextBoundaryFinder::isAtBoundary` at a UTF-16 position, and
`QChar::isLetterOrNumber`. -/
structure Clusters where
  isAtBoundary : Bytes → Nat → Bool
  isLetterOrNumber : Nat → Bool

/-- The lambda `content`: a line without its terminator. -/
def lineContent (line : Line) : Bytes :=
  let line := if line.getLast? = some lf then line.dropLast else line
  if line.getLast? = some cr then line.dropLast else line

/-! ## Grapheme clusters -/

/-- The bytes of the character that `lead` begins. -/
def scalarWidth (lead : UInt8) : Nat :=
  if lead < 0x80 then 1 else if lead < 0xe0 then 2 else if lead < 0xf0 then 3 else 4

/-- The character at the front. -/
def scalarOf : Bytes → Nat
  | [] => 0
  | lead :: rest =>
    if lead < 0x80 then lead.toNat
    else (rest.take (scalarWidth lead - 1)).foldl
      (fun scalar byte => (scalar <<< 6) ||| (byte &&& 0x3f).toNat)
      (lead.toNat &&& (0x7f >>> scalarWidth lead))

/-- Whether a cluster begins at a character; only consecutive regional indicators count. -/
def clusterBegins (qt : Clusters) (text : Bytes) (position regionalRun : Nat)
    (regional : Bool) : Bool :=
  if regional = true ∧ regionalRun ≠ 0 then decide (regionalRun % 2 = 0)
  else qt.isAtBoundary text position

/-- The loop over the characters from byte `i` and UTF-16 position `position` on. -/
def boundariesFrom (qt : Clusters) (text : Bytes) : (fuel i position regionalRun : Nat) → List Nat
  | 0, _, _, _ => []
  | fuel + 1, i, position, regionalRun =>
    if text.length ≤ i then []
    else
      let lead := text.getD i 0
      let scalar := scalarOf (text.drop i)
      let regional := decide (0x1f1e6 ≤ scalar ∧ scalar ≤ 0x1f1ff)
      let more := boundariesFrom qt text fuel (i + scalarWidth lead)
        (position + if lead ≥ 0xf0 then 2 else 1) (if regional then regionalRun + 1 else 0)
      if clusterBegins qt text position regionalRun regional then i :: more else more

/-- `Graphemes`. -/
structure Graphemes where
  text : Bytes
  offsets : List Nat

namespace Graphemes

/-- The constructor. -/
def ofText (qt : Clusters) (text : Bytes) : Graphemes where
  text := text
  offsets := if text.all (· < 0x80) then List.range (text.length + 1)
    else boundariesFrom qt text text.length 0 0 0 ++ [text.length]

/-- `offsets_[i]`. -/
def offset (g : Graphemes) (i : Nat) : Nat := g.offsets.getD i 0

/-- `Size`. -/
def size (g : Graphemes) : Nat := g.offsets.length - 1

/-- `At`. -/
def at_ (g : Graphemes) (i : Nat) : Bytes := slice g.text (g.offset i) (g.offset (i + 1))

/-- The clusters. -/
def all (g : Graphemes) : List Bytes := (List.range g.size).map g.at_

end Graphemes

/-! ## Words -/

/-- `Word`. -/
abbrev Word := Nat × Nat

/-- The loop of `words` from cluster `i` on; `count` clusters of a word begin at `begin_`. -/
def wordsFrom (qt : Clusters) (g : Graphemes) : (fuel i begin_ count : Nat) → List Word
  | 0, _, _, _ => []
  | fuel + 1, i, begin_, count =>
    let scalar := scalarOf (g.at_ i)
    if i < g.size ∧ (scalar = 95 ∨ qt.isLetterOrNumber scalar = true) then
      wordsFrom qt g fuel (i + 1) (if count = 0 then i else begin_) (count + 1)
    else
      let more := wordsFrom qt g fuel (i + 1) begin_ 0
      if count ≥ 2 then (g.offset begin_, g.offset i) :: more else more

/-- `words`. -/
def words (qt : Clusters) (g : Graphemes) : List Word := wordsFrom qt g (g.size + 1) 0 0 0

/-- A word as text. -/
def wordText (text : Bytes) (word : Word) : Bytes := slice text word.1 word.2

/-- `Anchor`: a word of the left line and one of the right line. -/
abbrev Anchor := Word × Word

/-- The words that stand in both lines once, by their places in the left one. -/
def anchorCandidates (left right : Bytes) (lefts rights : List Word) : List Anchor :=
  lefts.filterMap fun word =>
    let text := wordText left word
    if (lefts.countP fun w => wordText left w == text) = 1 ∧
        (rights.countP fun w => wordText right w == text) = 1 then
      (rights.find? fun w => wordText right w == text).map fun other => (word, other)
    else none

/-- The longest chain of candidates that go up in the right line. -/
def chosenAnchors (candidates : List Anchor) : List Anchor :=
  (longestChain (candidates.zipIdx.map fun c => (c.2, c.1.2.1))).filterMap fun p => candidates[p.1]?

/-- `wordAnchors`. -/
def wordAnchors (qt : Clusters) (limits : Budget) (left right : Bytes) : Run (List Anchor) := do
  let a := Graphemes.ofText qt left
  let b := Graphemes.ofText qt right
  checkMany limits (a.size / 256 + 1)
  checkMany limits (b.size / 256 + 1)
  let candidates := anchorCandidates left right (words qt a) (words qt b)
  checkMany limits candidates.length
  pure (chosenAnchors candidates)

/-! ## A span -/

/-- The clusters that two lists begin with. -/
def sharedPrefix : List Bytes → List Bytes → Nat
  | x :: a, y :: b => if x = y then sharedPrefix a b + 1 else 0
  | _, _ => 0

/-- A row of the table, for cluster `x`; `below` is the row of the next cluster. -/
def tableRow (x : Bytes) : List Bytes → (below : List Nat) → List Nat
  | [], _ => [0]
  | y :: bs, below =>
    let row := tableRow x bs below.tail
    (if x = y then (below.tail.headD 0 + 1) % 2 ^ 16 else max (below.headD 0) (row.headD 0)) :: row

/-- The table, row by row. -/
def lcsTable : List Bytes → List Bytes → List (List Nat)
  | [], bs => [List.replicate (bs.length + 1) 0]
  | x :: as, bs =>
    let rows := lcsTable as bs
    tableRow x bs (rows.headD []) :: rows

/-- The lambda `at`. -/
def tableAt (table : List (List Nat)) (i j : Nat) : Nat := (table.getD i []).getD j 0

/-- The inner loop: the places up to which the sides differ. -/
def skipFrom (as bs : List Bytes) (table : List (List Nat)) : (fuel i j : Nat) → Nat × Nat
  | 0, i, j => (i, j)
  | fuel + 1, i, j =>
    let next :=
      if i < as.length ∧ (j = bs.length ∨ tableAt table (i + 1) j ≥ tableAt table i (j + 1)) then
      (i + 1, j) else (i, j + 1)
    if (next.1 < as.length ∨ next.2 < bs.length) ∧
        ¬ (next.1 < as.length ∧ next.2 < bs.length ∧ as[next.1]? = bs[next.2]?) then
      skipFrom as bs table fuel next.1 next.2
    else next

/-- The outer loop, from the clusters `i` and `j` on. -/
def tracebackFrom (as bs : List Bytes) (table : List (List Nat)) (a b : Nat → Nat) :
    (fuel i j : Nat) → SideRanges
  | 0, _, _ => ([], [])
  | fuel + 1, i, j =>
    if ¬ (i < as.length ∨ j < bs.length) then ([], [])
    else if i < as.length ∧ j < bs.length ∧ as[i]? = bs[j]? then
      tracebackFrom as bs table a b fuel (i + 1) (j + 1)
    else
      let next := skipFrom as bs table (as.length + bs.length) i j
      let more := tracebackFrom as bs table a b fuel next.1 next.2
      ((if next.1 ≠ i then [(a i, a next.1)] else []) ++ more.1,
        (if next.2 ≠ j then [(b j, b next.2)] else []) ++ more.2)

/-- `constexpr maxLine`. -/
def inlineLineLimit : Nat := 16384

/-- `compareSpan`: the ranges, unless the span is too long, and the cells used until then. -/
def compareSpan (qt : Clusters) (limits : Budget) (left right : Bytes) (cells lineStart : Nat) :
    Charged (Option SideRanges × Nat) :=
  if left.length > inlineLineLimit ∨ right.length > inlineLineLimit then pure (none, cells)
  else
    let a := Graphemes.ofText qt left
    let b := Graphemes.ofText qt right
    let start := sharedPrefix a.all b.all
    let shared := sharedPrefix (a.all.drop start).reverse (b.all.drop start).reverse
    let n := a.size - start - shared
    let m := b.size - start - shared
    if n = 0 ∧ m = 0 then pure (some ([], []), cells)
    else if n = 0 ∨ m = 0 then
      pure (some (if n ≠ 0 then [(a.offset start, a.offset (start + n))] else [],
        if m ≠ 0 then [(b.offset start, b.offset (start + m))] else []), cells)
    else
      let count := (n + 1) * (m + 1)
      let maximum := min 4000000 limits.steps
      if count > 262144 - min (cells - lineStart) 262144 ∨ count * 2 > limits.traceBytes ∨
          count > maximum - min cells maximum then pure (none, cells)
      else do
        charge (cells + count) (checkMany limits n)
        let as := slice a.all start (start + n)
        let bs := slice b.all start (start + m)
        pure (some (tracebackFrom as bs (lcsTable as bs) (fun i => a.offset (start + i))
          (fun j => b.offset (start + j)) (n + m) 0 0), cells + count)

/-! ## A line -/

/-- The ranges of a part, in the whole. -/
def placeRanges (ranges : SideRanges) (left right : Nat) : SideRanges :=
  (ranges.1.map (moveUp left), ranges.2.map (moveUp right))

/-- The ranges of both. -/
def joinRanges (a b : SideRanges) : SideRanges := (a.1 ++ b.1, a.2 ++ b.2)

/-- The loop over the anchors. -/
def compareAnchors (qt : Clusters) (limits : Budget) (a b : Bytes) (lineStart : Nat) :
    (left right : Nat) → List Anchor → SideRanges → (cells : Nat) →
      Charged (Option SideRanges × Nat)
  | _, _, [], out, cells => pure (some out, cells)
  | left, right, anchor :: anchors, out, cells => do
    charge cells limits.check
    let found ← compareSpan qt limits (slice a left anchor.1.1) (slice b right anchor.2.1)
      cells lineStart
    match found.1 with
    | none => pure (none, found.2)
    | some ranges =>
      compareAnchors qt limits a b lineStart anchor.1.2 anchor.2.2 anchors
        (joinRanges out (placeRanges ranges left right)) found.2

/-- `compareLine`. -/
def compareLine (qt : Clusters) (limits : Budget) (a b : Bytes) (cells : Nat) :
    Charged (Option SideRanges × Nat) :=
  if a.length > 16384 ∨ b.length > 16384 then pure (none, cells)
  else if a = b then pure (some ([], []), cells)
  else do
    let anchors ← charge cells (wordAnchors qt limits a b)
    compareAnchors qt limits a b cells 0 0
      (anchors ++ [((a.length, a.length), (b.length, b.length))]) ([], []) cells

/-! ## The texts -/

/-- `InlineDiff`. -/
structure InlineDiff where
  ranges : SideRanges := ([], [])
  pairedLines : Nat := 0
  skippedLines : Nat := 0
  cells : Nat := 0
deriving DecidableEq

/-- What the loops of `BuildInlineDiff` carry. -/
structure InlineState where
  ranges : SideRanges := ([], [])
  cells : Nat := 0
  attempted : Nat := 0
  completed : Nat := 0
  /-- `ranges`: how many there are. -/
  count : Nat := 0

/-- A run that keeps what it found when it fails. -/
abbrev InlineRun := StateT Work (Except (Failure × InlineState))

/-- A step that leaves the findings. -/
def keepFound {α : Type} (s : InlineState) (m : Run α) : InlineRun α := fun w =>
  match m.run w with
  | .ok r => .ok r
  | .error e => .error (e, s)

/-- A step that leaves the findings but for the cells. -/
def keepCells {α : Type} (s : InlineState) (m : Charged α) : InlineRun α := fun w =>
  match m.run w with
  | .ok r => .ok r
  | .error e => .error (e.1, { s with cells := e.2 })

/-- Where a line begins. -/
def lineBegin (text : List Line) (line : Nat) : Nat := (append text 0 line).length

/-- The loop over the paired lines of an edit. -/
def inlineLines (qt : Clusters) (limits : Budget) (left right : List Line) (edit : Edit) :
    (count line : Nat) → InlineState → InlineRun InlineState
  | 0, _, s => pure s
  | count + 1, line, s => do
    keepFound s limits.check
    if s.attempted ≥ 4096 then pure { s with attempted := s.attempted + 1 }
    else do
      let a := lineContent (lineAt left (edit.begin_ + line))
      let b := lineContent (lineAt right (edit.otherBegin + line))
      let s := { s with attempted := s.attempted + 1 }
      let found ← keepCells s (compareLine qt limits a b s.cells)
      let s := { s with cells := found.2 }
      match found.1 with
      | none => inlineLines qt limits left right edit count (line + 1) s
      | some pair =>
        let added := pair.1.length + pair.2.length
        if added > 32768 - s.count then inlineLines qt limits left right edit count (line + 1) s
        else inlineLines qt limits left right edit count (line + 1) { s with
          ranges := joinRanges s.ranges (placeRanges pair (lineBegin left (edit.begin_ + line))
            (lineBegin right (edit.otherBegin + line)))
          count := s.count + added
          completed := s.completed + 1 }

/-- The lines of an edit that are paired. -/
def pairCount (edit : Edit) : Nat := min (edit.end_ - edit.begin_) (edit.otherEnd - edit.otherBegin)

/-- The loop over the edits. -/
def inlineEdits (qt : Clusters) (limits : Budget) (left right : List Line) :
    List Edit → InlineState → InlineRun InlineState
  | [], s => pure s
  | edit :: edits, s => do
    keepFound s limits.check
    let s ← inlineLines qt limits left right edit (pairCount edit) 0 s
    if s.attempted ≥ 4096 then pure s else inlineEdits qt limits left right edits s

/-- The `try` block around the loops. -/
def searchEdits (qt : Clusters) (limits : Budget) (left right : List Line) (edits : List Edit) :
    InlineRun InlineState := do
  let s ← inlineEdits qt limits left right edits {}
  keepFound s limits.check
  pure s

/-- The loop that checks the edits. -/
def checkEdits (leftLines rightLines : Nat) :
    (previousLeft previousRight : Nat) → List Edit → Run Unit
  | _, _, [] => pure ()
  | previousLeft, previousRight, edit :: edits => do
    throwIf (edit.begin_ < previousLeft ∨ edit.otherBegin < previousRight ∨
      edit.begin_ > edit.end_ ∨
      edit.otherBegin > edit.otherEnd ∨ edit.end_ > leftLines ∨ edit.otherEnd > rightLines)
      "InvalidInlineEdits"
    checkEdits leftLines rightLines edit.end_ edit.otherEnd edits

/-- `pairedLines_`. -/
def pairedLines (edits : List Edit) : Nat := (edits.map pairCount).sum

/-- The lines of both texts, unless the time is up. -/
def splitBoth (limits : Budget) (left right : Bytes) : Run (Option (List Line × List Line)) :=
  catchTimeout (do
    let a ← splitLines limits left
    let b ← splitLines limits right
    pure (some (a, b))) none

/-- The `catch` block of the search. -/
def catchFound (m : InlineRun InlineState) : Run InlineState := fun w =>
  match m.run w with
  | .ok r => .ok r
  | .error e => if e.1.code = "Timeout" then .ok (e.2, w) else .error e.1

/-- `BuildInlineDiff` without an alignment. -/
def inlineDiff (qt : Clusters) (limits : Budget) (left right : Bytes) (edits : List Edit) :
    Run InlineDiff :=
  if edits = [] then do
    catchTimeout limits.check ()
    pure {}
  else do
    let split ← splitBoth limits left right
    match split with
    | none => do
      throwIf (∃ edit ∈ edits, edit.begin_ > edit.end_ ∨ edit.otherBegin > edit.otherEnd)
        "InvalidInlineEdits"
      pure { pairedLines := pairedLines edits, skippedLines := pairedLines edits }
    | some (leftLines, rightLines) => do
      checkEdits leftLines.length rightLines.length 0 0 edits
      let s ← catchFound (searchEdits qt limits leftLines rightLines edits)
      pure {
        ranges := s.ranges
        pairedLines := pairedLines edits
        skippedLines := pairedLines edits - s.completed
        cells := s.cells }

/-- The edits that `BuildInlineDiff` works on. -/
def refinedEdits (edits : List Edit) : Option AlignmentMap → List Edit
  | none => edits
  | some map =>
    if map.similar then
      (map.runs.filter AlignmentRun.changed).map fun run =>
        ⟨run.begin_.1, run.end_.1, run.begin_.2, run.end_.2, []⟩
    else edits

/-- `BuildInlineDiff`. -/
def buildInlineDiff (qt : Clusters) (limits : Budget) (left right : Bytes) (edits : List Edit)
    (alignment : Option AlignmentMap) : Run InlineDiff :=
  inlineDiff qt limits left right (refinedEdits edits alignment)

end Hc.Compare
