import HyperCommander.Compare.Diff
import Mathlib.Data.List.Sort

/-!
# Three-way merge (`HyperCompare/core/compare.cpp`, `Merge`)

The edits of both sides, sorted by their base range, are cut into groups that overlap, directly
or through others. Each group becomes a region of the result: the text of the one side that
changed it, or the base text with a conflict.
-/

namespace Hc.Compare

open Slice

/-- `MergeOrigin`. -/
inductive MergeOrigin
  | conflict
  | left
  | right
deriving DecidableEq, Repr

/-- `Conflict`. -/
structure Conflict where
  baseBegin : Nat
  baseEnd : Nat
  resultBegin : Nat
  resultEnd : Nat
  leftBegin : Nat
  rightBegin : Nat
  base : Bytes
  left : Bytes
  right : Bytes
deriving DecidableEq, Repr

/-- `MergeRegion`. -/
structure MergeRegion where
  baseBegin : Nat
  baseEnd : Nat
  leftBegin : Nat
  rightBegin : Nat
  leftBytes : Nat
  rightBytes : Nat
  resultBegin : Nat
  resultEnd : Nat
  origin : MergeOrigin
deriving DecidableEq, Repr

/-- `MergeResult`. -/
structure MergeResult where
  text : Bytes := []
  conflicts : List Conflict := []
  regions : List MergeRegion := []
deriving DecidableEq, Repr

/-- `overlaps`; only the base ranges count. -/
def overlaps (A B : Edit) : Bool :=
  if A.begin_ = A.end_ ∧ B.begin_ = B.end_ then A.begin_ = B.begin_
  else if A.begin_ = A.end_ then B.begin_ < A.begin_ ∧ A.begin_ < B.end_
  else if B.begin_ = B.end_ then A.begin_ < B.begin_ ∧ B.begin_ < A.end_
  else max A.begin_ B.begin_ < min A.end_ B.end_

/-- `variant`: the base lines `[cursor, End)` with the edits applied. -/
def variant (base : List Line) (cursor end_ : Nat) : List Edit → Bytes
  | [] => append base cursor end_
  | e :: es => append base cursor e.begin_ ++ e.replacement ++ variant base e.end_ end_ es

/-- The line behind the edit before `line`, if there is one. -/
def behind (line : Nat) : Option Edit → Nat
  | none => line
  | some previous =>
    if previous.end_ > line then previous.otherBegin
    else previous.otherEnd + line - previous.end_

/-- `sideLine` after the edits up to `previous`. `std::lower_bound` on the ordered edits is the
first one that does not begin before `line`. -/
def sideLineFrom (line : Nat) (gap : Bool) (previous : Option Edit) : List Edit → Nat
  | [] => behind line previous
  | e :: es =>
    if e.begin_ < line then sideLineFrom line gap (some e) es
    else if e.begin_ = line then (if gap ∨ e.end_ > line then e.otherBegin else e.otherEnd)
    else behind line previous

/-- `sideLine`. -/
def sideLine (line : Nat) (gap : Bool) (edits : List Edit) : Nat :=
  sideLineFrom line gap none edits

/-- An edit with its side. -/
structure Tagged where
  edit : Edit
  isLeft : Bool

/-- The order of `std::stable_sort`: `b` does not come before `a`. -/
def notAfter (a b : Tagged) : Bool :=
  if a.edit.begin_ ≠ b.edit.begin_ then a.edit.begin_ < b.edit.begin_
  else a.edit.end_ ≤ b.edit.end_

/-- `all`: the edits of both sides, sorted. -/
def sortedEdits (l r : List Edit) : List Tagged :=
  (l.map (Tagged.mk · true) ++ r.map (Tagged.mk · false)).insertionSort fun a b => notAfter a b

/-- The inner loop: the further edits of the group `[beginLine, endLine)`, where it ends then, and
the edits after it. -/
def takeGroup (beginLine endLine : Nat) : List Tagged → List Tagged × Nat × List Tagged
  | [] => ([], endLine, [])
  | t :: ts =>
    if overlaps ⟨beginLine, endLine, 0, 0, []⟩ t.edit then
      let more := takeGroup beginLine (max endLine t.edit.end_) ts
      (t :: more.1, more.2)
    else ([], endLine, t :: ts)

/-- The edits of one side in a group. -/
def ofSide (isLeft : Bool) (group : List Tagged) : List Edit :=
  (group.filter fun t => t.isLeft == isLeft).map Tagged.edit

/-- One region: what the loop body adds to the result after the lines up to `cursor`. -/
def addRegion (base : List Line) (l r : List Edit) (cursor beginLine endLine : Nat)
    (group : List Tagged) (result : MergeResult) : MergeResult :=
  let ls := ofSide true group
  let rs := ofSide false group
  let left := variant base beginLine endLine ls
  let right := variant base beginLine endLine rs
  let gap := beginLine == endLine
  let text := result.text ++ append base cursor beginLine
  let region : MergeRegion := ⟨beginLine, endLine, sideLine beginLine gap l,
    sideLine beginLine gap r, left.length, right.length, text.length, 0, .conflict⟩
  if ls = [] then
    { result with
      text := text ++ right
      regions := result.regions ++ [{ region with
        origin := .right, resultEnd := (text ++ right).length }] }
  else if rs = [] ∨ left = right then
    { result with
      text := text ++ left
      regions := result.regions ++ [{ region with
        origin := .left, resultEnd := (text ++ left).length }] }
  else
    let same := append base beginLine endLine
    let conflict : Conflict := ⟨beginLine, endLine, text.length, (text ++ same).length,
      sideLine beginLine gap l, sideLine beginLine gap r, same, left, right⟩
    { text := text ++ same
      conflicts := result.conflicts ++ [conflict]
      regions := result.regions ++ [{ region with resultEnd := (text ++ same).length }] }

/-- The loop over the groups; every turn takes at least one of the edits. -/
def mergeFrom (limits : Budget) (base : List Line) (l r : List Edit) :
    (fuel : Nat) → List Tagged → (cursor : Nat) → MergeResult → Run MergeResult
  | 0, _, _, result => pure result
  | _ + 1, [], cursor, result =>
    pure { result with text := result.text ++ append base cursor base.length }
  | fuel + 1, t :: ts, cursor, result => do
    limits.check
    let more := takeGroup t.edit.begin_ t.edit.end_ ts
    let result := addRegion base l r cursor t.edit.begin_ more.2.1 (t :: more.1) result
    mergeFrom limits base l r fuel more.2.2 more.2.1 result

/-- `Merge`. -/
def merge (limits : Budget) (lib : Library) (base left right : Bytes) : Run MergeResult := do
  throwIf (limits.rangesOnly = true) "RangesOnlyRequiresDiff"
  let l ← diff limits lib base left
  let r ← diff limits lib base right
  let lines ← countLines limits base
  limits.reserve (lines * 16 + (l.length + r.length) * (2 * 144 + 2 * 72 + 64) +
    (base.length + left.length + right.length) * 6)
  let all := sortedEdits l r
  let baseLines ← splitLines limits base
  mergeFrom limits baseLines l r (all.length + 1) all 0 {}

end Hc.Compare
