import HyperCommander.Compare.Script

/-!
# Linear-space diff (`HyperCompare/core/linearDiff.cpp`, `LinearDiff`)

A stack of line ranges is worked off front to back. A range loses its common ends; one with an
empty side or a single line on one side is emitted; any other one is cut in two at a point where
a forward and a reverse furthest-reaching frontier meet (`partition`).

The two frontiers are vectors indexed by `offset + k`. A diagonal whose next point lies outside
the range is set to `-1`, and `-1` then takes part in the choice between the neighbours like any
other value.
-/

namespace Hc.Compare

open EditGraph Slice Lcs

/-- `Range`. -/
structure Range where
  a_ : Nat
  endA : Nat
  b_ : Nat
  endB : Nat

/-- `LinearDiffWorkspaceBytes`: two frontiers of 64-bit entries and a stack of 128 ranges. -/
def linearDiffWorkspaceBytes (lines : Nat) : Nat :=
  (2 * ((lines + 1) / 2) + 3) * 2 * 8 + 128 * 32

def pendingLimit : Nat := 128

abbrev Frontier := List Int

def Frontier.at (f : Frontier) (offset k : Int) : Int := f.getD (offset + k).toNat (-1)

def Frontier.put (f : Frontier) (offset k x : Int) : Frontier := f.set (offset + k).toNat x

/-- The body of both `for` loops over `k`: the new value of diagonal `k`, from the values of the
diagonals below and above it. -/
def diagonal (limits : Budget) (n m : Nat) (same : Nat → Nat → Bool) (d : Nat)
    (k low high : Int) : Run Int := do
  limits.step
  let x := if k = -(d : Int) ∨ (k ≠ d ∧ low < high) then high else low + 1
  let y := x - k
  if x < 0 ∨ y < 0 ∨ x > n ∨ y > m then pure (-1)
  else do
    let run ← countWhile limits
      (fun i => x.toNat + i < n && (y.toNat + i < m && same (x.toNat + i) (y.toNat + i)))
      (n - x.toNat) 0
    pure (x + run)

/-- A `for` loop over `k` with `fuel` diagonals left; `hit` is its exit condition and result. -/
def phase (limits : Budget) (n m : Nat) (same : Nat → Nat → Bool) (offset : Int) (d : Nat)
    (hit : Int → Int → Option (Nat × Nat)) :
    (fuel : Nat) → (k : Int) → Frontier → Run (Frontier × Option (Nat × Nat))
  | 0, _, f => pure (f, none)
  | fuel + 1, k, f => do
    let x ← diagonal limits n m same d k (f.at offset (k - 1)) (f.at offset (k + 1))
    let f := f.put offset k x
    match (if 0 ≤ x then hit k x else none) with
    | some point => pure (f, some point)
    | none => phase limits n m same offset d hit fuel (k + 2) f

/-- The exit of the forward loop: the reverse frontier of the last turn is reached. -/
def forwardHit (r : Range) (n delta offset : Int) (d : Nat) (reverse : Frontier)
    (k x : Int) : Option (Nat × Nat) :=
  let opposing := delta - k
  if delta % 2 ≠ 0 ∧ -((d : Int) - 1) ≤ opposing ∧ opposing ≤ (d : Int) - 1 ∧
      0 ≤ reverse.at offset opposing ∧ n - reverse.at offset opposing ≤ x then
    some (r.a_ + x.toNat, r.b_ + (x - k).toNat)
  else none

/-- The exit of the reverse loop: the forward frontier of this turn is reached. -/
def reverseHit (r : Range) (n delta offset : Int) (d : Nat) (forward : Frontier)
    (k x : Int) : Option (Nat × Nat) :=
  let opposing := delta - k
  let fx := forward.at offset opposing
  if ¬ delta % 2 ≠ 0 ∧ -(d : Int) ≤ opposing ∧ opposing ≤ d ∧ 0 ≤ fx ∧ n - x ≤ fx then
    some (r.a_ + fx.toNat, r.b_ + (fx - opposing).toNat)
  else none

/-- The `for` loop over `d`, with `fuel` turns left. -/
def partitionFrom (limits : Budget) (left right : List Line) (r : Range) (offset : Int) :
    (fuel d : Nat) → (forward reverse : Frontier) → Run (Nat × Nat)
  | 0, _, _, _ => throw ⟨"DiffPartition"⟩
  | fuel + 1, d, forward, reverse => do
    let n := r.endA - r.a_
    let m := r.endB - r.b_
    let delta : Int := n - m
    limits.check
    let (forward, met) ← phase limits n m
      (fun x y => lineAt left (r.a_ + x) == lineAt right (r.b_ + y)) offset d
      (forwardHit r n delta offset d reverse) (d + 1) (-d) forward
    match met with
    | some point => pure point
    | none =>
      let (reverse, met) ← phase limits n m
        (fun x y => lineAt left (r.endA - 1 - x) == lineAt right (r.endB - 1 - y)) offset d
        (reverseHit r n delta offset d forward) (d + 1) (-d) reverse
      match met with
      | some point => pure point
      | none => partitionFrom limits left right r offset fuel (d + 1) forward reverse

/-- The `partition` lambda. Only the first `used` entries of the frontiers are refilled and
read. -/
def partition (limits : Budget) (left right : List Line) (r : Range) : Run (Nat × Nat) :=
  let n := r.endA - r.a_
  let m := r.endB - r.b_
  let maximum := (n + m + 1) / 2
  let offset : Int := maximum + 1
  let used := 2 * maximum + 3
  let start := Frontier.put (List.replicate used (-1)) offset 1 0
  partitionFrom limits left right r offset (maximum + 1) 0 start start

/-- The loop of the `emit` lambda that copies the right lines `[i, i + count)`. -/
def appendLines (limits : Budget) (right : List Line) : (count i : Nat) → Bytes → Run Bytes
  | 0, _, out => pure out
  | count + 1, i, out => do
    limits.step
    appendLines limits right count (i + 1) (out ++ lineAt right i)

/-- `edits.back()`, after a new edit was pushed unless the last one ends at `(a, b)`; and the
edits before it. -/
def openEdit (edits : List Edit) (a b : Nat) : Edit × List Edit :=
  match edits with
  | [] => (⟨a, a, b, b, []⟩, [])
  | e :: older => if e.end_ ≠ a ∨ e.otherEnd ≠ b then (⟨a, a, b, b, []⟩, edits) else (e, older)

/-- `edit.end_ = r.endA_; edit.otherEnd_ = r.endB_`, with the bytes the edit has then. -/
def closeEdit (opened : Edit × List Edit) (endA endB : Nat) (bytes : Bytes) : List Edit :=
  { opened.1 with end_ := endA, otherEnd := endB, replacement := bytes } :: opened.2

/-- The `emit` lambda; the edits stand newest first. -/
def emitRange (limits : Budget) (right : List Line) (edits : List Edit) (a endA b endB : Nat) :
    Run (List Edit) :=
  if a = endA ∧ b = endB then pure edits
  else do
    let old := (openEdit edits a b).1.replacement
    let bytes ← (if limits.rangesOnly then pure old
      else appendLines limits right (endB - b) b old)
    pure (closeEdit (openEdit edits a b) endA endB bytes)

/-- The scan for the one line of a side on the other side: `fuel` positions from `i` are left. -/
def search (limits : Budget) (found : Nat → Bool) : (fuel i : Nat) → Run (Option Nat)
  | 0, _ => pure none
  | fuel + 1, i => do
    limits.step
    if found i then pure (some i) else search limits found fuel (i + 1)

/-- A range without its common first and last lines. -/
def trimRange (limits : Budget) (left right : List Line) (r : Range) : Run Range := do
  let i ← countWhile limits
    (fun i => r.a_ + i < r.endA && (r.b_ + i < r.endB &&
      lineAt left (r.a_ + i) == lineAt right (r.b_ + i))) (r.endA - r.a_) 0
  let r := { r with a_ := r.a_ + i, b_ := r.b_ + i }
  let j ← countWhile limits
    (fun j => r.a_ < r.endA - j && (r.b_ < r.endB - j &&
      lineAt left (r.endA - j - 1) == lineAt right (r.endB - j - 1))) (r.endA - r.a_) 0
  pure { r with endA := r.endA - j, endB := r.endB - j }

/-- The `while (count)` loop. Every turn takes a range off the stack and puts back at most two
with fewer lines, so `fuel` turns suffice (`linearDiff_yields` never meets the last failure). -/
def linearDiffFrom (limits : Budget) (left right : List Line) :
    (fuel : Nat) → (pending : List Range) → List Edit → Run (List Edit)
  | _, [], edits => pure edits
  | 0, _ :: _, _ => throw ⟨"OutOfFuel"⟩
  | fuel + 1, r :: pending, edits => do
    limits.check
    let r ← trimRange limits left right r
    if r.a_ = r.endA ∨ r.b_ = r.endB then
      let edits ← emitRange limits right edits r.a_ r.endA r.b_ r.endB
      linearDiffFrom limits left right fuel pending edits
    else if r.endA - r.a_ = 1 then
      let at? ← search limits (fun i => lineAt left r.a_ == lineAt right i) (r.endB - r.b_) r.b_
      match at? with
      | none =>
        let edits ← emitRange limits right edits r.a_ r.endA r.b_ r.endB
        linearDiffFrom limits left right fuel pending edits
      | some i =>
        let edits ← emitRange limits right edits r.a_ r.a_ r.b_ i
        let edits ← emitRange limits right edits r.endA r.endA (i + 1) r.endB
        linearDiffFrom limits left right fuel pending edits
    else if r.endB - r.b_ = 1 then
      let at? ← search limits (fun i => lineAt left i == lineAt right r.b_) (r.endA - r.a_) r.a_
      match at? with
      | none =>
        let edits ← emitRange limits right edits r.a_ r.endA r.b_ r.endB
        linearDiffFrom limits left right fuel pending edits
      | some i =>
        let edits ← emitRange limits right edits r.a_ i r.b_ r.b_
        let edits ← emitRange limits right edits (i + 1) r.endA r.endB r.endB
        linearDiffFrom limits left right fuel pending edits
    else
      let (a, b) ← partition limits left right r
      throwIf ((a = r.a_ ∧ b = r.b_) ∨ (a = r.endA ∧ b = r.endB) ∨ a < r.a_ ∨ a > r.endA ∨
        b < r.b_ ∨ b > r.endB) "DiffPartition"
      throwIf (pending.length + 2 > pendingLimit) "DiffMemoryLimit"
      linearDiffFrom limits left right fuel
        (⟨r.a_, a, r.b_, b⟩ :: ⟨a, r.endA, b, r.endB⟩ :: pending)
        edits

/-- `LinearDiff`. -/
def linearDiff (limits : Budget) (left right : List Line) (pre suf : Nat) : Run (List Edit) := do
  limits.check
  throwIf (pre > left.length ∨ pre > right.length ∨ suf > left.length - pre ∨
    suf > right.length - pre) "InvalidDiffRange"
  let size := left.length + right.length - 2 * (pre + suf)
  throwIf (linearDiffWorkspaceBytes size > limits.traceBytes) "DiffMemoryLimit"
  let edits ← linearDiffFrom limits left right (2 * size + 1)
    [⟨pre, left.length - suf, pre, right.length - suf⟩] []
  limits.check
  pure edits.reverse

end Hc.Compare
