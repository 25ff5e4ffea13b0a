import HyperCommander.Compare.MergePlan
import HyperCommander.Lib.Outcome

/-!
# The merge editor (`HyperCompare/core/mergeModel.cpp`, `HyperCompare/widgets/mergeController.cpp`)

`MergeModel` keeps the result range and the decision of every block while the user chooses sides
and types. `Editor` is the model with the text of the editor and its native undo history, and
`Editor.act` are the operations of `MergeController`.

`nextRevision` is a process-wide counter; the model takes its next value as an argument.
-/

namespace Hc.Compare

open Slice Outcome

/-- `BlockEdit`. -/
structure BlockEdit where
  id : Nat
  revision : Nat
  begin_ : Nat
  end_ : Nat
  resolution : Resolution
  replacement : Bytes
deriving DecidableEq, Repr

/-- `MergeModel`. -/
structure MergeModel where
  plan : MergePlan
  state : List BlockState
  revision : Nat
  reviewRequired : Bool := false
deriving DecidableEq, Repr

/-- `shift`. No position before the removed bytes is shifted, so the difference is never cut. -/
def shift (value removed inserted : Nat) : Nat :=
  if inserted ≥ removed then value + (inserted - removed) else value - (removed - inserted)

namespace MergeModel

/-- The constructor. -/
def new (plan : MergePlan) (revision : Nat) : MergeModel := ⟨plan, plan.initial, revision, false⟩

/-- `index`; an identifier past the blocks finds none. -/
def index (m : MergeModel) (id : Nat) : Except Failure (BlockState × MergeBlock) :=
  match m.state[id - 1]?, m.plan.blocks[id - 1]? with
  | some state, some block => do
    failIf (id = 0 ∨ block.id ≠ id) ⟨"UnknownMergeBlock"⟩
    pure (state, block)
  | _, _ => .error ⟨"UnknownMergeBlock"⟩

/-- The `switch` of `Prepare`. -/
def choiceText (block : MergeBlock) : Resolution → Except Failure Bytes
  | .left => .ok block.left
  | .right => .ok block.right
  | .base => .ok block.base
  | .leftThenRight => .ok (block.left ++ block.right)
  | .rightThenLeft => .ok (block.right ++ block.left)
  | .manual => .ok []
  | .omit => .ok []
  | .unresolved => .error ⟨"InvalidMergeChoice"⟩

/-- `Prepare`. -/
def prepare (m : MergeModel) (id expectedRevision : Nat) (choice : Resolution) :
    Except Failure BlockEdit := do
  failIf (expectedRevision ≠ m.revision) ⟨"StaleMergeDecision"⟩
  let found ← m.index id
  failIf (found.1.mapped = false) ⟨"AmbiguousMergeLocation"⟩
  failIf (choice = .unresolved ∨ choice = .base ∧ m.plan.hasBase = false) ⟨"InvalidMergeChoice"⟩
  let replacement ← choiceText found.2 choice
  pure ⟨id, m.revision, found.1.begin_, found.1.end_, choice, replacement⟩

/-- A mapped range behind an edit. -/
def shiftBlock (removed inserted : Nat) (s : BlockState) : BlockState :=
  if s.mapped then
    { s with begin_ := shift s.begin_ removed inserted, end_ := shift s.end_ removed inserted }
  else s

/-- The state after a decision on the block at `at_`. -/
def applyAt (states : List BlockState) (at_ : Nat) (edit : BlockEdit) : List BlockState :=
  match states[at_]? with
  | none => states
  | some target =>
    let removed := target.end_ - target.begin_
    let inserted := edit.replacement.length
    if edit.resolution = .manual then states.set at_ { target with resolution := .manual }
    else states.take at_ ++
      { target with end_ := target.begin_ + inserted, resolution := edit.resolution } ::
        (states.drop (at_ + 1)).map (shiftBlock removed inserted)

/-- `Apply`. -/
def apply (m : MergeModel) (edit : BlockEdit) (next : Nat) : Except Failure MergeModel := do
  let verified ← m.prepare edit.id edit.revision edit.resolution
  failIf (verified.begin_ ≠ edit.begin_ ∨ verified.end_ ≠ edit.end_ ∨
    verified.replacement ≠ edit.replacement) ⟨"InvalidMergeDecision"⟩
  pure { m with state := applyAt m.state (edit.id - 1) edit, revision := next }

/-- The `map` lambda of `TextChanged`. -/
def mapPoint (position removed inserted point : Nat) (right : Bool) : Nat :=
  if point < position then point
  else if point ≥ position + removed then shift point removed inserted
  else position + if right then inserted else 0

/-- The loop body of `TextChanged`. -/
def changeBlock (position removed inserted : Nat) (s : BlockState) : BlockState :=
  if !s.mapped then s
  else if position + removed ≤ s.begin_ ∧ ¬ (removed = 0 ∧ position = s.begin_) then
    { s with begin_ := shift s.begin_ removed inserted, end_ := shift s.end_ removed inserted }
  else if position ≥ s.end_ ∧ ¬ (position = s.begin_ ∧ s.begin_ = s.end_) then s
  else if position ≥ s.begin_ ∧ position + removed ≤ s.end_ then
    { s with resolution := .unresolved, end_ := shift s.end_ removed inserted }
  else
    { s with
      resolution := .unresolved
      mapped := false
      begin_ := mapPoint position removed inserted s.begin_ false
      end_ := mapPoint position removed inserted s.end_ true }

/-- The second loop of `TextChanged` from block `s` on: neighbours that overlap are both
unmapped. -/
def unmapFrom (s : BlockState) : List BlockState → List BlockState
  | [] => [s]
  | t :: rest =>
    if s.mapped && (t.mapped && s.end_ > t.begin_) then
      { s with mapped := false } :: unmapFrom { t with mapped := false } rest
    else s :: unmapFrom t rest

def unmapTies : List BlockState → List BlockState
  | [] => []
  | s :: rest => unmapFrom s rest

/-- `TextChanged`. -/
def textChanged (m : MergeModel) (position removed inserted next : Nat) : MergeModel :=
  { m with
    state := unmapTies (m.state.map (changeBlock position removed inserted))
    revision := next }

/-- The loop body of `SelectAll`. -/
def selectBlock (choice : Resolution) (s : BlockState) (block : MergeBlock) : BlockState :=
  if choice = .manual then { s with resolution := choice }
  else
    let begin_ := if choice = .left then block.leftBegin else block.rightBegin
    ⟨begin_, begin_ + if choice = .left then block.left.length else block.right.length,
      choice, true⟩

/-- `SelectAll`. -/
def selectAll (m : MergeModel) (choice : Resolution) (next : Nat) : Except Failure MergeModel := do
  failIf (choice ≠ .left ∧ choice ≠ .right ∧ choice ≠ .manual) ⟨"InvalidMergeChoice"⟩
  pure { m with
    state := List.zipWith (selectBlock choice) m.state m.plan.blocks
    revision := next
    reviewRequired := false }

/-- `Restore`. -/
def restore (m : MergeModel) (state : List BlockState) (reviewRequired : Bool) (next : Nat) :
    Except Failure MergeModel := do
  failIf (state.length ≠ m.state.length) ⟨"InvalidMergeHistory"⟩
  pure { m with state := state, reviewRequired := reviewRequired, revision := next }

/-- `Invalidate`. -/
def invalidate (m : MergeModel) (next : Nat) : MergeModel :=
  { m with
    state := m.state.map fun s => { s with mapped := false, resolution := .unresolved }
    reviewRequired := true
    revision := next }

end MergeModel

/-! ## The editor -/

/-- What the undo history of the editor can bring back. -/
structure History where
  state : List BlockState
  reviewRequired : Bool
  text : Bytes
deriving DecidableEq, Repr

/-- The model, the text in the editor, and the pairs that were current before. -/
structure Editor where
  model : MergeModel
  text : Bytes
  history : List History := []
deriving DecidableEq, Repr

/-- What the user does. -/
inductive Action
  /-- `Choose`. -/
  | choose (id revision : Nat) (choice : Resolution)
  /-- Typing, or `ReplaceRange`: the `removed` bytes at `position` give way to `inserted`. -/
  | change (position removed : Nat) (inserted : Bytes)
  /-- `ChooseAll` with the text of that input. -/
  | chooseAll (choice : Resolution)
  /-- Undo or redo to an earlier pair. -/
  | restore (entry : Nat)
  /-- Undo or redo to a text whose states were dropped, or an edit that failed halfway. -/
  | invalidate (text : Bytes)
deriving DecidableEq, Repr

/-- `remember`: the pair that is current joins the history. -/
def Editor.remember (model : MergeModel) (text : Bytes) (history : List History) : Editor :=
  ⟨model, text, ⟨model.state, model.reviewRequired, text⟩ :: history⟩

def Editor.start (plan : MergePlan) (revision : Nat) (text : Bytes) : Editor :=
  .remember (.new plan revision) text []

/-- One action; one that fails leaves the editor as it was. `left` and `right` are the inputs. -/
def Editor.act (left right : Bytes) (next : Nat) (e : Editor) : Action → Except Failure Editor
  | .choose id revision choice => do
    let edit ← e.model.prepare id revision choice
    let model ← e.model.apply edit next
    let text := if choice = .manual then e.text
      else splice e.text edit.begin_ (edit.end_ - edit.begin_) edit.replacement
    pure (.remember model text e.history)
  | .change position removed inserted => do
    failIf (position + removed > e.text.length) ⟨"InvalidMergeLocation"⟩
    let model := e.model.textChanged position removed inserted.length next
    pure (.remember model (splice e.text position removed inserted) e.history)
  | .chooseAll choice => do
    let model ← e.model.selectAll choice next
    let text := if choice = .manual then e.text else if choice = .left then left else right
    pure (.remember model text e.history)
  | .restore entry =>
    match e.history[entry]? with
    | none => .error ⟨"InvalidMergeHistory"⟩
    | some earlier => do
      let model ← e.model.restore earlier.state earlier.reviewRequired next
      pure (.remember model earlier.text e.history)
  | .invalidate text => pure (.remember (e.model.invalidate next) text e.history)

/-- The editors reached from `start` by successful actions that all satisfy `P`. -/
inductive Reaches (left right : Bytes) (P : Editor → Action → Prop) (start : Editor) :
    Editor → Prop
  | start : Reaches left right P start start
  | act {e e' action next} (h : Reaches left right P start e) (hp : P e action)
    (ha : e.act left right next action = .ok e') : Reaches left right P start e'

end Hc.Compare
