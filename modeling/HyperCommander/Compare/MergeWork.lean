import HyperCommander.Compare.MergeModel

/-!
# Saved merge work (`HyperCompare/runtime/mergeWork.cpp`, `validate`)

Work is checked before it is saved and after it is loaded. Whether the text is well-formed UTF-8 is
for the text codec to say, a parameter here.
-/

namespace Hc.Compare

open Slice

/-- `resultLimit`. -/
def resultLimit : Nat := 32 * 1024 * 1024

/-- `decisionBlockLimit`. -/
def decisionBlockLimit : Nat := 100000

/-- A byte that continues a character. -/
def isContinuation (c : UInt8) : Bool := c &&& 0xc0 == 0x80

/-- The `boundary` lambda. -/
def boundary (text : Bytes) (at_ : Nat) : Bool :=
  at_ ≤ text.length && (at_ == text.length || !isContinuation (text.getD at_ 0))

/-- The text that a decision promises for its range; none for a range the user may write in. -/
def promised (block : MergeBlock) : Resolution → Option Bytes
  | .left => some block.left
  | .right => some block.right
  | .base => some block.base
  | .leftThenRight => some (block.left ++ block.right)
  | .rightThenLeft => some (block.right ++ block.left)
  | .omit => some []
  | .manual => none
  | .unresolved => none

/-- The loop of `validate`; `end_` is where the last mapped range ended. -/
def validateBlocks (limits : Budget) (hasBase : Bool) (text : Bytes) :
    (end_ : Nat) → List (BlockState × MergeBlock) → Run Unit
  | _, [] => pure ()
  | end_, (state, block) :: rest => do
    limits.check
    throwIf (state.resolution = .base ∧ hasBase = false) "InvalidWorkResolution"
    if state.mapped = false then do
      throwIf (state.resolution ≠ .unresolved ∧ state.resolution ≠ .manual) "InvalidWorkResolution"
      validateBlocks limits hasBase text end_ rest
    else do
      throwIf (state.begin_ < end_ ∨ state.begin_ > state.end_ ∨ !boundary text state.begin_ ∨
        !boundary text state.end_) "InvalidWorkRange"
      throwIf (∃ expected ∈ promised block state.resolution,
        slice text state.begin_ state.end_ ≠ expected) "InvalidWorkResolutionText"
      validateBlocks limits hasBase text state.end_ rest

/-- `validate` of the state and text of an editor; `decodes` is whether `DecodeDocumentText`
takes a text as UTF-8. -/
def validate (limits : Budget) (decodes : Bytes → Bool) (plan : MergePlan)
    (states : List BlockState) (text : Bytes) : Run Unit := do
  throwIf (states.length ≠ plan.blocks.length) "InvalidWorkBlocks"
  throwIf (text.length > resultLimit ∨ states.length > decisionBlockLimit) "WorkSizeLimit"
  throwIf (text.contains 0 ∨ decodes text = false) "InvalidWorkText"
  validateBlocks limits plan.hasBase text 0 (states.zip plan.blocks)
  limits.check

end Hc.Compare
