import HyperCommander.Compare.LargeText
import HyperCommander.Lib.Agree

/-!
# Merge sessions of large texts (`HyperCompare/runtime/largeTextSession.cpp`)

`mergeLargeText` merges three documents into a fourth one without holding a text in memory, and
`resolveLargeTextConflict` puts a chosen side in place of a conflict. The sorting and grouping of
the edits is written as in `Merge`, so that the definitions of that module are used for it.

A comparison is cached with the indexes it was made of; here it is made again.
-/

namespace Hc.Compare

open Slice Pieces

/-- `LargeTextConflict`. -/
structure LargeTextConflict where
  base : LargeTextDocument
  left : LargeTextDocument
  right : LargeTextDocument
  begin_ : Nat
  end_ : Nat
  choice : Resolution := .unresolved
deriving DecidableEq, Repr

/-- `LargeTextSession` with a result. The documents are the left one, the right one, the base and
the result. -/
structure LargeTextSession where
  documents : List LargeTextDocument
  result : Nat
  reviewRequired : Bool := false
  conflicts : List LargeTextConflict := []
  pair : Nat × Nat := (0, 1)
deriving DecidableEq, Repr

/-- `documents_[i]`. -/
def LargeTextSession.document (session : LargeTextSession) (i : Nat) : LargeTextDocument :=
  session.documents.getD i {}

/-- `compare`. -/
def compareSession (limits : Budget) (lib : Library) (disk : Disk)
    (left right : LargeTextDocument) :
    Run LargeTextComparison := do
  limits.check
  let value ← compareLargeText limits lib disk left right
  limits.reserve (value.changes.length * 64)
  pure value

/-! ## The merge -/

/-- The loop of `variant` from base line `cursor` on. -/
def largeVariantFrom (limits : Budget) (disk : Disk) (base side : LargeTextDocument)
    (baseLines sideLines : List Nat) (end_ : Nat) :
    List Edit → (cursor : Nat) → LargeTextDocument → Run LargeTextDocument
  | [], cursor, result => do
    let same ← range limits disk base (baseLines.getD cursor 0) (baseLines.getD end_ 0)
    appendLargeText result same
  | e :: es, cursor, result => do
    let same ← range limits disk base (baseLines.getD cursor 0) (baseLines.getD e.begin_ 0)
    let result ← appendLargeText result same
    let new ← range limits disk side (sideLines.getD e.otherBegin 0) (sideLines.getD e.otherEnd 0)
    let result ← appendLargeText result new
    largeVariantFrom limits disk base side baseLines sideLines end_ es e.end_ result

/-- `variant`. -/
def largeVariant (limits : Budget) (disk : Disk) (base side : LargeTextDocument)
    (baseLines sideLines : List Nat) (begin_ end_ : Nat) (changes : List Edit) :
    Run LargeTextDocument :=
  largeVariantFrom limits disk base side baseLines sideLines end_ changes begin_ {}

/-- What the loop of `merge` carries: the result and the conflicts so far. -/
structure LargeMerge where
  result : LargeTextDocument := {}
  conflicts : List LargeTextConflict := []

/-- The body of the loop of `merge`: one group of edits behind the base lines up to `cursor`. -/
def mergeLargeGroup (limits : Budget) (disk : Disk) (base left right : LargeTextDocument)
    (a b : LargeTextComparison) (cursor first last : Nat) (group : List Tagged) (m : LargeMerge) :
    Run LargeMerge := do
  let l ← largeVariant limits disk base left a.left a.right first last (ofSide true group)
  let r ← largeVariant limits disk base right b.left b.right first last (ofSide false group)
  let before ← range limits disk base (a.left.getD cursor 0) (a.left.getD first 0)
  let result ← appendLargeText m.result before
  if ofSide true group = [] then do
    let result ← appendLargeText result r
    pure { m with result := result }
  else do
    let same ← (if ofSide false group = [] then pure true else equal limits disk l r)
    if same = true then do
      let result ← appendLargeText result l
      pure { m with result := result }
    else do
      let kept ← range limits disk base (a.left.getD first 0) (a.left.getD last 0)
      let whole ← appendLargeText result kept
      pure ⟨whole, m.conflicts ++ [⟨kept, l, r, result.bytes, whole.bytes, .unresolved⟩]⟩

/-- The loop of `merge`; every turn takes at least one of the edits. -/
def mergeLargeFrom (limits : Budget) (disk : Disk) (base left right : LargeTextDocument)
    (a b : LargeTextComparison) :
    (fuel : Nat) → List Tagged → (cursor : Nat) → LargeMerge → Run LargeMerge
  | 0, _, _, m => pure m
  | _ + 1, [], cursor, m => do
    let rest ← range limits disk base (a.left.getD cursor 0) base.bytes
    let result ← appendLargeText m.result rest
    pure { m with result := result }
  | fuel + 1, t :: ts, cursor, m => do
    limits.check
    let more := takeGroup t.edit.begin_ t.edit.end_ ts
    let m ← mergeLargeGroup limits disk base left right a b cursor t.edit.begin_ more.2.1
      (t :: more.1) m
    mergeLargeFrom limits disk base left right a b fuel more.2.2 more.2.1 m

/-- `merge`. -/
def mergeLargeText (limits : Budget) (lib : Library) (disk : Disk)
    (left right base : LargeTextDocument) :
    Run LargeTextSession := do
  let a ← compareSession limits lib disk base left
  let b ← compareSession limits lib disk base right
  limits.reserve ((a.changes.length + b.changes.length) * 4096)
  let all := sortedEdits a.changes b.changes
  let m ← mergeLargeFrom limits disk base left right a b (all.length + 1) all 0 {}
  pure { documents := [left, right, base, m.result], result := 3, conflicts := m.conflicts }

/-! ## Sessions -/

/-- The loop over the documents that counts their lines, from document `i` on; the result does not
count. -/
def countDocuments (limits : Budget) (disk : Disk) (result : Nat) :
    (i total : Nat) → List LargeTextDocument → Run Unit
  | _, _, [] => pure ()
  | i, total, document :: rest => do
    let index ← indexLargeText limits disk document
    let total := if i = result then total else total + index.2.1
    throwIf (i ≠ result ∧ total > defaultMaxLines) "LineLimit"
    countDocuments limits disk result (i + 1) total rest

/-- `PairLargeTextSession` of a session with a result. -/
def pairLargeTextSession (limits : Budget) (lib : Library) (disk : Disk)
    (session : LargeTextSession) (pair : Nat × Nat) : Run LargeTextSession := do
  throwIf (pair.1 = pair.2 ∨ session.documents.length ≤ max pair.1 pair.2) "LargeTextPairInvalid"
  countDocuments limits disk session.result 0 0 session.documents
  let _ ← compareSession limits lib disk (session.document pair.1) (session.document pair.2)
  pure { session with pair := pair }

/-- `OpenLargeTextSession` of a merge with a base, behind the reading of its three files. -/
def openLargeTextMerge (limits : Budget) (lib : Library) (disk : Disk)
    (left right base : LargeTextDocument) : Run LargeTextSession := do
  countDocuments limits disk 3 0 0 [left, right, base]
  let session ← mergeLargeText limits lib disk left right base
  pairLargeTextSession limits lib disk session (0, 3)

/-- The replacement of a choice. -/
def chosenDocument (conflict : LargeTextConflict) : Resolution → Run LargeTextDocument
  | .left => pure conflict.left
  | .right => pure conflict.right
  | .base => pure conflict.base
  | .omit => pure {}
  | .leftThenRight => do
    let replacement ← appendLargeText {} conflict.left
    appendLargeText replacement conflict.right
  | .rightThenLeft => do
    let replacement ← appendLargeText {} conflict.right
    appendLargeText replacement conflict.left
  | _ => throw ⟨"LargeTextConflictChoiceInvalid"⟩

/-- A conflict behind the resolved one. -/
def shiftConflict (delta : Int) (c : LargeTextConflict) : LargeTextConflict :=
  { c with begin_ := (c.begin_ + delta).toNat, end_ := (c.end_ + delta).toNat }

/-- `ResolveLargeTextConflict`. -/
def resolveLargeTextConflict (limits : Budget) (lib : Library) (disk : Disk)
    (session : LargeTextSession) (index : Nat) (choice : Resolution) : Run LargeTextSession :=
  match session.conflicts[index]? with
  | none => throw ⟨"LargeTextConflictReviewRequired"⟩
  | some conflict => do
    throwIf (session.reviewRequired = true) "LargeTextConflictReviewRequired"
    let replacement ← chosenDocument conflict choice
    let result ← replaceLargeText limits disk (session.document session.result) conflict.begin_
      conflict.end_ replacement 0 replacement.bytes
    let resolved := { conflict with end_ := conflict.begin_ + replacement.bytes, choice := choice }
    let delta : Int := resolved.end_ - conflict.end_
    pairLargeTextSession limits lib disk { session with
      documents := session.documents.set session.result result
      conflicts := session.conflicts.take index ++
        resolved :: (session.conflicts.drop (index + 1)).map (shiftConflict delta) } session.pair

/-- The sessions reached by calls that resolve conflicts, the last call first, each under a budget
of its own. -/
inductive Resolves (lib : Library) (disk : Disk) (start : LargeTextSession) :
    List (Nat × Resolution) → LargeTextSession → Prop
  | start : Resolves lib disk start [] start
  | resolve {calls session next limits index choice} (h : Resolves lib disk start calls session)
    (hr : Returns (resolveLargeTextConflict limits lib disk session index choice) next) :
    Resolves lib disk start ((index, choice) :: calls) next

/-- The last choice for conflict `i`. -/
def lastChoice : List (Nat × Resolution) → Nat → Resolution
  | [], _ => .unresolved
  | call :: calls, i => if call.1 = i then call.2 else lastChoice calls i

end Hc.Compare
