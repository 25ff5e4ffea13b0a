import HyperCommander.Compare.Trace

/-!
# `Diff` (`HyperCompare/core/compare.cpp`)

Common lines at both ends are skipped. What is left is one replacement, when a side is empty or
the hashes of the sides have nothing in common; else the trace loop finds the script, and beyond
its memory `SparseDiff` or `LinearDiff` does.
-/

namespace Hc.Compare

/-- The loop that adds up the bytes of the right lines `[i, i + count)`. -/
def sumBytes (limits : Budget) (right : List Line) : (count i sum : Nat) → Run Nat
  | 0, _, sum => pure sum
  | count + 1, i, sum => do
    limits.step
    sumBytes limits right count (i + 1) (sum + (lineAt right i).length)

/-- The `replace` lambda. -/
def replaceAll (limits : Budget) (left right : List Line) (pre suf : Nat) : Run (List Edit) := do
  let bytes ← (if limits.rangesOnly then pure []
    else appendLines limits right (right.length - suf - pre) pre [])
  limits.check
  pure [⟨pre, left.length - suf, pre, right.length - suf, bytes⟩]

/-- `std::binary_search`. -/
def binarySearch (limits : Budget) (values : List Nat) (value : Nat) : Run Bool := do
  let i ← lowerBound limits (fun j => values.getD j 0 < value) values.length 0 values.length
  if i = values.length then pure false
  else do
    limits.step
    pure (!(value < values.getD i 0))

/-- The loop that hashes the lines `[i, i + count)`. -/
def hashLines (limits : Budget) (lib : Library) (text : List Line) :
    (count i : Nat) → Run (List Nat)
  | 0, _ => pure []
  | count + 1, i => do
    limits.step
    let rest ← hashLines limits lib text count (i + 1)
    pure (lib.hash (lineAt text i) :: rest)

/-- The loop that looks for a line of `large` with a hash of `small`. -/
def anyHash (limits : Budget) (lib : Library) (hashes : List Nat) (large : List Line) :
    (count i : Nat) → Run Bool
  | 0, _ => pure false
  | count + 1, i => do
    limits.step
    let found ← binarySearch limits hashes (lib.hash (lineAt large i))
    if found then pure true else anyHash limits lib hashes large count (i + 1)

/-- Whether the changed lines of the two sides have a hash in common. -/
def commonHash (limits : Budget) (lib : Library) (left right : List Line) (pre suf n m : Nat) :
    Run Bool := do
  let small := if n ≤ m then left else right
  let large := if n ≤ m then right else left
  let hashes ← hashLines limits lib small (small.length - suf - pre) pre
  stepMany limits (lib.sortCompares hashes.length fun i j => hashes.getD i 0 < hashes.getD j 0)
  let sorted := hashes.mergeSort fun a b => a ≤ b
  anyHash limits lib sorted large (large.length - suf - pre) pre

def resetSteps : Run Unit := modify fun w => { w with steps := 0 }

/-- `Diff` after the two line indexes are built. -/
def diffLines (limits : Budget) (lib : Library) (left right : List Line) : Run (List Edit) := do
  resetSteps
  let pre ← countWhile limits (fun i => i < left.length && (i < right.length &&
    lineAt left i == lineAt right i)) left.length 0
  let suf ← countWhile limits (fun i => i < left.length - pre && (i < right.length - pre &&
    lineAt left (left.length - i - 1) == lineAt right (right.length - i - 1))) left.length 0
  let n := left.length - pre - suf
  let m := right.length - pre - suf
  let changed := n + m
  let replacementBytes ← (if limits.rangesOnly then pure 0
    else sumBytes limits right (right.length - suf - pre) pre 0)
  let history := if n ≠ 0 ∧ m ≠ 0 then
    min limits.traceBytes ((changed + 1) * (changed + 2) / 2 * 8) else 0
  limits.reserve (changed * (2 * 64 + 64) + replacementBytes * 2 + history)
  if n = 0 ∨ m = 0 then replaceAll limits left right pre suf
  else do
    let disjoint ← (if n + m > 2048 ∧ min n m ≤ limits.traceBytes / 8 then
        (do let common ← commonHash limits lib left right pre suf n m; pure !common)
      else pure false)
    if disjoint then replaceAll limits left right pre suf
    else do
      let traceLimit := if linearDiffWorkspaceBytes (n + m) ≤ limits.traceBytes then
        min limits.traceBytes (8 * 1024 * 1024) else limits.traceBytes
      let ending ← traceFrom limits left right pre n m traceLimit (n + m + 1) 0 [] 0
      match ending with
      | .exceeded =>
        let sparse ← sparseDiff limits lib left right pre suf
        match sparse with
        | some edits => pure edits
        | none => linearDiff limits left right pre suf
      | .found distance trace =>
        let ops ← backtrack limits trace distance n m []
        limits.check
        pure (joinOps limits.rangesOnly right ops [] pre pre false).reverse

/-- `Diff`. -/
def diff (limits : Budget) (lib : Library) (left right : Bytes) : Run (List Edit) := do
  limits.check
  if left = right then pure []
  else do
    let leftCount ← countLines limits left
    let rightCount ← countLines limits right (defaultMaxLines - leftCount)
    limits.reserve ((leftCount + rightCount) * 16)
    let leftLines ← splitLines limits left
    let rightLines ← splitLines limits right (defaultMaxLines - leftLines.length)
    diffLines limits lib leftLines rightLines

end Hc.Compare
