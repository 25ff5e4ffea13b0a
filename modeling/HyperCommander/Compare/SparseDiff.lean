import HyperCommander.Compare.LinearDiff

/-!
# Sparse-match diff (`HyperCompare/core/linearDiff.cpp`, `SparseDiff`)

For inputs with few equal line pairs: the positions of the right lines are sorted by their text,
every left line looks up its matches, and a longest chain of matches is kept through `tails`, the
best last match of a chain of each length. The chain becomes the unchanged lines of the script.

`SparseDiff` tests its step budget before it counts and `LinearDiff` after; both throw at the
same step.
-/

namespace Hc.Compare

open Slice

/-- What the engines take from the C++ library: the hash of a line, and how often `std::sort`
calls the comparator on `n` elements that compare by the given function of their positions. -/
structure Library where
  hash : Line → Nat
  sortCompares : Nat → (Nat → Nat → Bool) → Nat

/-- `operator<` of `std::string_view`. -/
def lineLess : Line → Line → Bool
  | _, [] => false
  | [], _ :: _ => true
  | a :: s, b :: t => a < b || (a == b && lineLess s t)

/-- `count` steps, one for each call of a comparator. -/
def stepMany (limits : Budget) : (count : Nat) → Run Unit
  | 0 => pure ()
  | count + 1 => do
    limits.step
    stepMany limits count

/-- `std::lower_bound` over the `count` positions from `first`: the first one that is not
`before`. A step for each call of the comparator. -/
def lowerBound (limits : Budget) (before : Nat → Bool) : (fuel first count : Nat) → Run Nat
  | 0, first, _ => pure first
  | fuel + 1, first, count =>
    if count = 0 then pure first
    else do
      limits.step
      let half := count / 2
      if before (first + half) then
        lowerBound limits before fuel (first + half + 1) (count - half - 1)
      else lowerBound limits before fuel first half

/-- `Node`; `none` is the source's `none`, the largest `std::size_t`. -/
structure Node where
  a_ : Nat
  b_ : Nat
  previous_ : Option Nat

/-- The order of two right positions: by text, then by position. -/
def orderLess (right : List Line) (pre A B : Nat) : Bool :=
  if lineAt right (pre + A) ≠ lineAt right (pre + B) then
    lineLess (lineAt right (pre + A)) (lineAt right (pre + B))
  else A < B

/-- `std::sort` of the positions `0..m-1`. -/
def sortOrder (right : List Line) (pre m : Nat) : List Nat :=
  (List.range m).mergeSort fun A B => !orderLess right pre B A

/-- The `matches` lambda: the positions in `order` that hold the text of left line `A`. -/
def matchesOf (limits : Budget) (left right : List Line) (pre : Nat) (order : List Nat) (A : Nat) :
    Run (Nat × Nat) := do
  let text := lineAt left (pre + A)
  let first ← lowerBound limits (fun i => lineLess (lineAt right (pre + order.getD i 0)) text)
    order.length 0 order.length
  let last ← lowerBound limits (fun i => !lineLess text (lineAt right (pre + order.getD i 0)))
    (order.length - first) first (order.length - first)
  pure (first, last)

/-- The loop that counts the matches; `none` once there are more than `maximum`. -/
def countMatches (limits : Budget) (left right : List Line) (pre : Nat) (order : List Nat)
    (maximum : Nat) : (fuel i count : Nat) → Run (Option Nat)
  | 0, _, count => pure (some count)
  | fuel + 1, i, count => do
    limits.step
    let (first, last) ← matchesOf limits left right pre order i
    if last - first > maximum - count then pure none
    else countMatches limits left right pre order maximum fuel (i + 1) (count + (last - first))

/-- The nodes so far and, for each length, the last node of the best chain of that length. -/
structure Chains where
  nodes : List Node := []
  tails : List Nat := []

def Chains.b (c : Chains) (node : Nat) : Nat := ((c.nodes[node]?).map Node.b_).getD 0

/-- A match of left line `i` with right line `b` goes to position `index` of `tails`. -/
def Chains.insert (c : Chains) (i b index : Nat) : Chains where
  nodes := c.nodes ++ [⟨i, b, if index = 0 then none else c.tails[index - 1]?⟩]
  tails := if index = c.tails.length then c.tails ++ [c.nodes.length]
    else c.tails.set index c.nodes.length

/-- The matches of left line `i`, the last one first. -/
def insertMatches (limits : Budget) (i : Nat) : List Nat → Chains → Run Chains
  | [], c => pure c
  | b :: bs, c => do
    limits.step
    let index ← lowerBound limits (fun j => c.b (c.tails.getD j 0) < b) c.tails.length 0
      c.tails.length
    insertMatches limits i bs (c.insert i b index)

/-- The loop over the left lines. -/
def insertAll (limits : Budget) (left right : List Line) (pre : Nat) (order : List Nat) :
    (fuel i : Nat) → Chains → Run Chains
  | 0, _, c => pure c
  | fuel + 1, i, c => do
    limits.step
    let (first, last) ← matchesOf limits left right pre order i
    let c ← insertMatches limits i (slice order first last).reverse c
    insertAll limits left right pre order fuel (i + 1) c

/-- The walk back from the best chain's last node. The chain is as long as `tails`
(`collect_yields`), so the turns never run out. -/
def collect (limits : Budget) (nodes : List Node) :
    (fuel : Nat) → Option Nat → Run (List (Nat × Nat))
  | _, none => pure []
  | 0, some _ => throw ⟨"OutOfFuel"⟩
  | fuel + 1, some at_ => do
    limits.step
    let node := nodes.getD at_ ⟨0, 0, none⟩
    let rest ← collect limits nodes fuel node.previous_
    pure ((node.a_, node.b_) :: rest)

/-- The `emit` lambda of `SparseDiff`. -/
def emitGap (limits : Budget) (right : List Line) (pre a b endA endB : Nat) : Run (List Edit) :=
  if a = endA ∧ b = endB then pure []
  else do
    let bytes ← (if limits.rangesOnly then pure []
      else appendLines limits right (endB - b) (pre + b) [])
    pure [⟨pre + a, pre + endA, pre + b, pre + endB, bytes⟩]

/-- The loop over the anchors from `(a, b)`, with the last `emit`. -/
def emitGaps (limits : Budget) (right : List Line) (pre n m : Nat) :
    List (Nat × Nat) → (a b : Nat) → Run (List Edit)
  | [], a, b => emitGap limits right pre a b n m
  | anchor :: anchors, a, b => do
    limits.step
    let gap ← emitGap limits right pre a b anchor.1 anchor.2
    let rest ← emitGaps limits right pre n m anchors (anchor.1 + 1) (anchor.2 + 1)
    pure (gap ++ rest)

/-- `SparseDiff`; `none` leaves a dense input to `LinearDiff`. -/
def sparseDiff (limits : Budget) (lib : Library) (left right : List Line) (pre suf : Nat) :
    Run (Option (List Edit)) := do
  limits.check
  throwIf (pre > left.length ∨ pre > right.length ∨ suf > left.length - pre ∨
    suf > right.length - pre) "InvalidAlignmentInput"
  let n := left.length - pre - suf
  let m := right.length - pre - suf
  let common := min n m
  let fixed := m * 8 + common * (8 + 16)
  if fixed ≥ limits.traceBytes then pure none
  else do
    let maximum := min 1000000 ((limits.traceBytes - fixed) / 24)
    stepMany limits m
    stepMany limits (lib.sortCompares m (orderLess right pre))
    let order := sortOrder right pre m
    let total ← countMatches limits left right pre order maximum n 0 0
    match total with
    | none => pure none
    | some _ =>
      limits.check
      let c ← insertAll limits left right pre order n 0 {}
      let back ← collect limits c.nodes c.tails.length c.tails.getLast?
      let edits ← emitGaps limits right pre n m back.reverse 0 0
      limits.check
      pure (some edits)

end Hc.Compare
