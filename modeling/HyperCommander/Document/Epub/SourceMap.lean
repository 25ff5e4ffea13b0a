import HyperCommander.Document.Epub.Markup

/-!
# The source map (`commonLibs/document/epub/epubSourceMap.cpp`)

`Load` cuts a source into the spans of its elements and texts. `Anchor` names the smallest span
around a position, and `Position` finds the place that an anchor names. What Qt reads is a
parameter.
-/

namespace Hc.Document.Epub

open Unicode

/-- A token of `QXmlStreamReader`, as far as `Load` looks at it. -/
inductive XmlToken
  | startElement
  | endElement
  /-- A document type, and whether `PassiveDoctype` accepts it. -/
  | dtd (passive : Bool)
  | other
deriving DecidableEq, Repr

/-- What `Load` asks of Qt. -/
structure XmlQt where
  /-- The tokens that `QXmlStreamReader` reads, and `hasError` after them. -/
  read : Units → List XmlToken × Bool
  /-- `toUInt(&Ok, base)`. -/
  toUInt : Units → (base : Nat) → Option Nat

/-- `Span`. -/
structure Span where
  path : List Nat := []
  child : Int := -1
  begin_ : Nat
  end_ : Nat
  offsets : List Nat := []
deriving DecidableEq, Repr

/-- `Frame`. -/
structure Frame where
  span : Nat
  elements : Nat := 0
  children : Nat := 0
deriving DecidableEq, Repr

/-- The spans so far and the open elements, the innermost one first. -/
structure Loading where
  spans : List Span := []
  stack : List Frame := []
deriving DecidableEq, Repr

/-- The loop over the tokens of the reader. -/
def readerAccepts : (nodes depth : Int) → List XmlToken → Bool
  | _, _, [] => true
  | nodes, depth, .startElement :: rest =>
    if nodes + 1 > 32768 ∨ depth + 1 > 128 then false
    else readerAccepts (nodes + 1) (depth + 1) rest
  | nodes, depth, .endElement :: rest => readerAccepts nodes (depth - 1) rest
  | nodes, depth, .dtd passive :: rest => passive && readerAccepts nodes depth rest
  | nodes, depth, .other :: rest => readerAccepts nodes depth rest

/-- The units that a reference stands for. -/
def entityUnits (qt : XmlQt) (entity : Units) : Option Nat :=
  if entity.head? = some 0x23 then
    let hex := lit "#x" <+: entity
    (qt.toUInt (entity.drop (if hex then 2 else 1)) (if hex then 16 else 10)).map fun point =>
      if point > 0xffff then 2 else 1
  else some 1

/-- The positions that the units of a text are read from. -/
def offsetsFrom (qt : XmlQt) (cdata : Bool) (pos : Nat) : Units → Option (List Nat)
  | [] => some []
  | c :: rest =>
    if cdata = false ∧ c = 0x26 then
      match findText [0x3b] rest with
      | none => none
      | some n =>
        match entityUnits qt (rest.take n) with
        | none => none
        | some units =>
          (offsetsFrom qt cdata (pos + n + 2) (rest.drop (n + 1))).map
            (List.replicate units pos ++ ·)
    else if c = 0x0d ∧ rest.head? = some 0x0a then
      (offsetsFrom qt cdata (pos + 2) (rest.drop 1)).map (pos :: ·)
    else (offsetsFrom qt cdata (pos + 1) rest).map (pos :: ·)
termination_by text => text.length
decreasing_by all_goals (simp only [List.length_drop, List.length_cons]; omega)

/-- The units of a token. -/
def slice (source : Units) (begin_ end_ : Nat) : Units := (source.drop begin_).take (end_ - begin_)

/-- The path of the innermost open element. -/
def Loading.path (s : Loading) : List Nat :=
  ((s.stack.head?.bind fun f => s.spans[f.span]?).map Span.path).getD []

/-- One more child of the innermost open element. -/
def Loading.countChild (s : Loading) : Loading :=
  match s.stack with
  | [] => s
  | f :: rest => { s with stack := { f with children := f.children + 1 } :: rest }

/-- `Text`. A text that cannot be read still counts as a child. -/
def Loading.addText (qt : XmlQt) (source : Units) (s : Loading) (begin_ end_ : Nat)
    (cdata : Bool) : Loading :=
  match s.stack with
  | [] => s
  | f :: _ =>
    if begin_ = end_ then s
    else
      match offsetsFrom qt cdata begin_ (slice source begin_ end_) with
      | none => s.countChild
      | some offsets =>
        { s.countChild with
          spans := s.spans ++ [
            { path := s.path, child := f.children, begin_, end_, offsets := offsets ++ [end_] }] }

/-- A start tag or an empty tag. -/
def Loading.addElement (s : Loading) (begin_ end_ : Nat) (isStart : Bool) : Loading :=
  let span := s.spans.length
  match s.stack with
  | [] =>
    { spans := s.spans ++ [{ begin_, end_ }], stack := if isStart then [{ span }] else [] }
  | f :: rest =>
    let stack := { f with elements := f.elements + 1, children := f.children + 1 } :: rest
    { spans := s.spans ++ [{ path := s.path ++ [f.elements], begin_, end_ }]
      stack := if isStart then { span } :: stack else stack }

/-- The visitor of `Load`. -/
def Loading.step (qt : XmlQt) (source : Units) (s : Loading) (t : MarkupToken) : Option Loading :=
  if s.spans.length > 32768 ∨ s.stack.length > 128 then none
  else
    match t.kind with
    | .text => some (s.addText qt source t.begin_ t.end_ false)
    | .cdata => some (s.addText qt source t.begin_ t.end_ true)
    | .comment => some s.countChild
    | .other => some (if source[t.begin_ + 1]? = some 0x3f then s.countChild else s)
    | .end_ =>
      match s.stack with
      | [] => none
      | f :: rest =>
        some { spans := s.spans.modify f.span fun sp => { sp with end_ := t.end_ }, stack := rest }
    | .start => some (s.addElement t.begin_ t.end_ true)
    | .empty => some (s.addElement t.begin_ t.end_ false)

/-- The visitor over all tokens. -/
def Loading.run (qt : XmlQt) (source : Units) : Loading → List MarkupToken → Option Loading
  | s, [] => some s
  | s, t :: rest => (s.step qt source t).bind fun s => s.run qt source rest

/-- `Load`: the spans, or `none` where it returns false. -/
def load (qt : XmlQt) (source : Units) : Option (List Span) :=
  if source.length > 2 * 1024 * 1024 then none
  else if !readerAccepts 0 0 (qt.read source).1 || (qt.read source).2 then none
  else
    match (scanMarkup source).bind (({} : Loading).run qt source) with
    | none => none
    | some s => if s.stack = [] ∧ s.spans ≠ [] then some s.spans else none

/-! ### Anchors -/

/-- The object that `Anchor` makes. -/
structure SourceAnchor where
  path : List Nat
  child : Int
  offset : Nat
deriving DecidableEq, Repr

/-- The loop body of `Anchor`. -/
def nearer (p : Nat) (best : Option Span) (s : Span) : Option Span :=
  if s.begin_ ≤ p ∧ p < s.end_ ∧ best.all (fun b => s.end_ - s.begin_ < b.end_ - b.begin_) then
    some s
  else best

/-- The first of the smallest spans around a position. -/
def nearest (spans : List Span) (p : Nat) : Option Span := spans.foldl (nearer p) none

/-- `upper_bound` in a sorted table. -/
def upperBound (table : List Nat) (v : Nat) : Nat := (table.takeWhile (· ≤ v)).length

/-- `lower_bound` in a sorted table. -/
def lowerBound (table : List Nat) (v : Nat) : Nat := (table.takeWhile (· < v)).length

/-- The offset of a position in a span. -/
def Span.offsetOf (s : Span) (p : Nat) : Nat :=
  if s.offsets = [] ∨ upperBound s.offsets p = 0 then 0
  else lowerBound s.offsets (s.offsets.getD (upperBound s.offsets p - 1) 0)

/-- `Anchor`. -/
def anchor (spans : List Span) (p : Nat) : Option SourceAnchor :=
  (nearest spans p).map fun s => { path := s.path, child := s.child, offset := s.offsetOf p }

/-- `Position`; `none` is -1. -/
def position (spans : List Span) (a : SourceAnchor) : Option Nat :=
  if a.path.length > 128 then none
  else
    (spans.find? fun s => s.path = a.path ∧ s.child = a.child).bind fun s =>
      if s.child ≥ 0 then s.offsets[a.offset]? else some s.begin_

end Hc.Document.Epub
