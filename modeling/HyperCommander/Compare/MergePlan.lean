import HyperCommander.Compare.Merge

/-!
# Merge plans (`HyperCompare/core/mergeModel.cpp`, `TwoWayPlan` and `ThreeWayPlan`)

A plan cuts the texts of the choices out of the inputs and gives the first range of every block
in the result. `vector::at` and `string_view::substr` throw on a position past the end, which the
model does as well.
-/

namespace Hc.Compare

/-- `Resolution`. -/
inductive Resolution
  | unresolved
  | left
  | right
  | base
  | leftThenRight
  | rightThenLeft
  | manual
  | omit
deriving DecidableEq, Repr

/-- `BlockState`. -/
structure BlockState where
  begin_ : Nat
  end_ : Nat
  resolution : Resolution
  mapped : Bool
deriving DecidableEq, Repr

/-- `MergeBlock`. -/
structure MergeBlock where
  id : Nat
  leftBegin : Nat
  rightBegin : Nat
  baseBegin : Nat
  leftLine : Nat
  rightLine : Nat
  baseLine : Nat
  left : Bytes
  right : Bytes
  base : Bytes
  automatic : Bool
deriving DecidableEq, Repr

/-- `MergePlan`. -/
structure MergePlan where
  hasBase : Bool := false
  blocks : List MergeBlock := []
  initial : List BlockState := []
deriving DecidableEq, Repr

def outOfRange : String := "std::out_of_range"

/-- `vector::at`. -/
def at_ (values : List Nat) (i : Nat) : Run Nat := do
  throwIf (values.length ≤ i) outOfRange
  pure (values.getD i 0)

/-- `string_view::substr`. -/
def substr (text : Bytes) (position count : Nat) : Run Bytes := do
  throwIf (position > text.length) outOfRange
  pure ((text.drop position).take count)

/-- The loop of `offsets`: the offset after every line. -/
def offsetsFrom (offset : Nat) : List Line → List Nat
  | [] => [offset]
  | line :: rest => offset :: offsetsFrom (offset + line.length) rest

/-- `offsets`. It splits under a budget of its own. -/
def offsets (expired : Nat → Bool) (text : Bytes) : Run (List Nat) := do
  let ls ← splitLines (Budget.unattended expired) text
  pure (offsetsFrom 0 ls)

/-- The loop body of `TwoWayPlan`. -/
def twoWayBlock (left : Bytes) (leftOffsets rightOffsets : List Nat) (seed : Resolution)
    (plan : MergePlan) (edit : Edit) : Run MergePlan := do
  let leftBegin ← at_ leftOffsets edit.begin_
  let rightBegin ← at_ rightOffsets edit.otherBegin
  let leftEnd ← at_ leftOffsets edit.end_
  let leftText ← substr left leftBegin (leftEnd - leftBegin)
  let block : MergeBlock := ⟨plan.blocks.length + 1, leftBegin, rightBegin, 0, edit.begin_,
    edit.otherBegin, 0, leftText, edit.replacement, [], false⟩
  let start := if seed = .right then block.rightBegin else block.leftBegin
  let length := if seed = .right then block.right.length else block.left.length
  pure { plan with
    blocks := plan.blocks ++ [block]
    initial := plan.initial ++ [⟨start, start + length, seed, true⟩] }

/-- `TwoWayPlan`. -/
def twoWayPlan (expired : Nat → Bool) (left right : Bytes) (edits : List Edit)
    (seed : Resolution) : Run MergePlan := do
  let leftOffsets ← offsets expired left
  let rightOffsets ← offsets expired right
  edits.foldlM (twoWayBlock left leftOffsets rightOffsets seed) {}

/-- The decision that a merge made for a region. -/
def choiceOf : MergeOrigin → Resolution
  | .left => .left
  | .right => .right
  | .conflict => .unresolved

/-- The loop body of `ThreeWayPlan`. -/
def threeWayBlock (base left right : Bytes) (baseOffsets leftOffsets rightOffsets : List Nat)
    (text : Bytes) (plan : MergePlan) (region : MergeRegion) : Run MergePlan := do
  let leftBegin ← at_ leftOffsets region.leftBegin
  let rightBegin ← at_ rightOffsets region.rightBegin
  let baseBegin ← at_ baseOffsets region.baseBegin
  throwIf (region.leftBytes > left.length - leftBegin ∨
    region.rightBytes > right.length - rightBegin ∨ region.resultBegin > region.resultEnd ∨
    region.resultEnd > text.length) "InvalidMergeLocation"
  let leftText ← substr left leftBegin region.leftBytes
  let rightText ← substr right rightBegin region.rightBytes
  let baseEnd ← at_ baseOffsets region.baseEnd
  let baseText ← substr base baseBegin (baseEnd - baseBegin)
  let block : MergeBlock := ⟨plan.blocks.length + 1, leftBegin, rightBegin, baseBegin,
    region.leftBegin, region.rightBegin, region.baseBegin, leftText, rightText, baseText,
    region.origin ≠ .conflict⟩
  pure { plan with
    blocks := plan.blocks ++ [block]
    initial := plan.initial ++
      [⟨region.resultBegin, region.resultEnd, choiceOf region.origin, true⟩] }

/-- `ThreeWayPlan`. -/
def threeWayPlan (expired : Nat → Bool) (base left right : Bytes) (merged : MergeResult) :
    Run MergePlan := do
  let baseOffsets ← offsets expired base
  let leftOffsets ← offsets expired left
  let rightOffsets ← offsets expired right
  merged.regions.foldlM
    (threeWayBlock base left right baseOffsets leftOffsets rightOffsets merged.text)
    { hasBase := true }

end Hc.Compare
