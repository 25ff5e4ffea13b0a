import HyperCommander.Compare.SparseDiff

/-!
# Bounded history (`HyperCompare/core/compare.cpp`, the trace loop of `Diff`)

The greedy search by rows: row `d` holds the furthest `x` on the diagonals `-d, -d + 2, …, d`,
and points may leave the two line ranges. The rows are kept, the operations are read back from
them, and the operations are joined to edits.
-/

namespace Hc.Compare

inductive Op
  | keep
  | delete
  | insert
deriving DecidableEq

/-- `i == 0 || (i != d && previous[i - 1] < previous[i])`: diagonal `i` of row `d` is reached by
an insertion. -/
def takesInsert (previous : List Int) (d i : Nat) : Bool :=
  i == 0 || (i != d && previous.getD (i - 1) 0 < previous.getD i 0)

/-- Where the snake on diagonal `i` of row `d` starts. -/
def rowStart (previous : List Int) (d i : Nat) : Int :=
  if d = 0 then 0
  else if takesInsert previous d i then previous.getD i 0
  else previous.getD (i - 1) 0 + 1

/-- The loop over the diagonals of row `d`, `fuel` of them left; whether the end was reached.
The rest of a row that ends the search stays zero. -/
def traceRow (limits : Budget) (left right : List Line) (pre n m d : Nat) (previous : List Int) :
    (fuel i : Nat) → (row : List Int) → Run (List Int × Bool)
  | 0, _, row => pure (row, false)
  | fuel + 1, i, row => do
    limits.step
    let k : Int := -d + 2 * i
    let x := rowStart previous d i
    let y := x - k
    let run ← countWhile limits
      (fun j => x + j < n && (y + j < m && (0 ≤ x + j && (0 ≤ y + j &&
        lineAt left (pre + (x + j).toNat) == lineAt right (pre + (y + j).toNat))))) n 0
    let row := row ++ [x + run]
    if n ≤ x + run ∧ m ≤ y + run then pure (row ++ List.replicate (d - i) 0, true)
    else traceRow limits left right pre n m d previous fuel (i + 1) row

/-- How the trace loop ends. -/
inductive TraceEnd
  | found (distance : Nat) (trace : List (List Int))
  | exceeded

/-- The loop over `d`, with `fuel` rows left. -/
def traceFrom (limits : Budget) (left right : List Line) (pre n m traceLimit : Nat) :
    (fuel d : Nat) → (trace : List (List Int)) → (bytes : Nat) → Run TraceEnd
  | 0, _, trace, _ => pure (.found 0 trace)
  | fuel + 1, d, trace, bytes => do
    limits.check
    let cost := (d + 1) * 8
    if cost > traceLimit ∨ bytes > traceLimit - cost then pure .exceeded
    else do
      let (row, done) ← traceRow limits left right pre n m d (trace.getLastD []) (d + 1) 0 []
      let trace := trace ++ [row]
      if done then pure (.found d trace)
      else traceFrom limits left right pre n m traceLimit fuel (d + 1) trace (bytes + cost)

/-- The turns of `while (x > px && y > py)`. -/
def slideCount (px py x y : Int) : Nat := (min (x - px) (y - py)).toNat

/-- The way back from `(x, y)` in row `d`. The source appends the operations and reverses them
at the end. -/
def backtrack (limits : Budget) (trace : List (List Int)) :
    (d : Nat) → (x y : Int) → List Op → Run (List Op)
  | 0, x, y, ops => pure (List.replicate (slideCount 0 0 x y) Op.keep ++ ops)
  | d + 1, x, y, ops => do
    limits.check
    let k := x - y
    let i := ((k + (d + 1 : Nat)) / 2).toNat
    let previous := trace.getD d []
    let insert := takesInsert previous (d + 1) i
    let px := previous.getD (if insert then i else i - 1) 0
    let py := px - (k + (if insert then 1 else -1))
    let keeps := List.replicate (slideCount px py x y) Op.keep
    backtrack limits trace d px py ((if insert then Op.insert else Op.delete) :: (keeps ++ ops))

/-- `edits.back()` and the edits before it, after a new one was pushed unless `isOpen`. -/
def backOf (isOpen : Bool) (edits : List Edit) (a b : Nat) : Edit × List Edit :=
  match isOpen, edits with
  | true, e :: older => (e, older)
  | _, _ => (⟨a, a, b, b, []⟩, edits)

/-- The loop over the operations; the edits stand newest first. -/
def joinOps (rangesOnly : Bool) (right : List Line) :
    List Op → List Edit → (a b : Nat) → (isOpen : Bool) → List Edit
  | [], edits, _, _, _ => edits
  | .keep :: ops, edits, a, b, _ => joinOps rangesOnly right ops edits (a + 1) (b + 1) false
  | .delete :: ops, edits, a, b, isOpen =>
    let back := backOf isOpen edits a b
    joinOps rangesOnly right ops ({ back.1 with end_ := a + 1 } :: back.2) (a + 1) b true
  | .insert :: ops, edits, a, b, isOpen =>
    let back := backOf isOpen edits a b
    let bytes := back.1.replacement ++ if rangesOnly then [] else lineAt right b
    joinOps rangesOnly right ops ({ back.1 with otherEnd := b + 1, replacement := bytes } :: back.2)
      a (b + 1) true

end Hc.Compare
