import HyperCommander.Lib.Yields
import Mathlib.Algebra.Order.Ring.Int

/-!
# Budgets and line indexes (`HyperCompare/core/compare.cpp`)

The text engine works on byte strings cut into lines that keep their terminators (LF, CR and
CRLF). Every loop calls `Budget::Check`, which looks at a cancel flag, a deadline and a memory
guard. They belong to the outside, so a `Budget` here says what the `t`-th look finds, and the
engine's state (`Work`) counts the looks.

`lines` is the line index without limits; `scanLines_yields` relates the source's scan to it.
-/

namespace Hc.Compare

open List

abbrev Bytes := List UInt8

/-- A line with its terminator. -/
abbrev Line := List UInt8

structure Failure where
  code : String
deriving DecidableEq, Repr

/-- `Budget`. The three outside conditions and the memory lease are indexed by the number of
looks before, since the clock and the flag move on while a comparison runs. -/
structure Budget where
  canceled : Nat → Bool
  expired : Nat → Bool
  memoryCheck : Nat → Option Failure
  memoryReserve : Nat → Nat → Option Failure
  traceBytes : Nat := 64 * 1024 * 1024
  steps : Nat := 50000000
  rangesOnly : Bool := false

/-- The counters of a run: the work steps and the looks at the outside. -/
structure Work where
  steps : Nat := 0
  looks : Nat := 0
deriving DecidableEq

abbrev Run := StateT Work (Except Failure)

def throwIf (c : Prop) [Decidable c] (code : String) : Run Unit :=
  if c then throw ⟨code⟩ else pure ()

def throwSome : Option Failure → Run Unit
  | some failure => throw failure
  | none => pure ()

/-- `Budget{}`: only the clock can end a run. -/
def Budget.unattended (expired : Nat → Bool) : Budget where
  canceled _ := false
  expired := expired
  memoryCheck _ := none
  memoryReserve _ _ := none

/-- A budget that never ends a run. -/
def Budget.unlimited : Budget := Budget.unattended fun _ => false

def look : Run Nat := do
  let w ← get
  set { w with looks := w.looks + 1 }
  pure w.looks

/-- `Budget::Check`. -/
def Budget.check (limits : Budget) : Run Unit := do
  let t ← look
  throwIf (limits.canceled t) "Canceled"
  throwIf (limits.expired t) "Timeout"
  throwSome (limits.memoryCheck t)

/-- `memoryReserve_(bytes)`: the lease itself carries nothing. -/
def Budget.reserve (limits : Budget) (bytes : Nat) : Run Unit := do
  let t ← look
  throwSome (limits.memoryReserve t bytes)

/-- Counts one unit of work. -/
def tick : Run Nat := do
  let w ← get
  set { w with steps := w.steps + 1 }
  pure (w.steps + 1)

/-- The `step` lambda of the engines. -/
def Budget.step (limits : Budget) : Run Unit := do
  let steps ← tick
  throwIf (steps > limits.steps) "DiffWorkLimit"
  (if steps % 1024 = 0 then limits.check else pure ())

def lf : UInt8 := 10
def cr : UInt8 := 13

def isTerminator (c : UInt8) : Bool := c == lf || c == cr

/-- The `emit` lambda of `scanLines`. -/
def emit (maxLines count : Nat) (line : Line) : Run Line := do
  throwIf (count = maxLines) "LineLimit"
  pure line

/-- `scanLines` from byte `i`: `line` holds the bytes from `start` to `i`, `count` lines were
emitted. A CRLF pair is one turn of the loop. -/
def scanFrom (limits : Budget) (maxLines maxLineBytes : Nat) :
    Bytes → Line → (i count nextCheck : Nat) → Run (List Line)
  | [], line, _, count, _ =>
    if line.isEmpty then pure [] else do
      let out ← emit maxLines count line
      pure [out]
  | [c], line, i, count, nextCheck => do
    (if nextCheck ≤ i then limits.check else pure ())
    throwIf (line.length + 1 > maxLineBytes) "LongLineLimit"
    let out ← emit maxLines count (line ++ [c])
    pure [out]
  | c :: d :: rest, line, i, count, nextCheck => do
    (if nextCheck ≤ i then limits.check else pure ())
    let nextCheck := if nextCheck ≤ i then i + 4096 else nextCheck
    if c = cr ∧ d = lf then
      throwIf (line.length + 2 > maxLineBytes) "LongLineLimit"
      let out ← emit maxLines count (line ++ [c, d])
      let more ← scanFrom limits maxLines maxLineBytes rest [] (i + 2) (count + 1) nextCheck
      pure (out :: more)
    else
      throwIf (line.length + 1 > maxLineBytes) "LongLineLimit"
      if isTerminator c then
        let out ← emit maxLines count (line ++ [c])
        let more ← scanFrom limits maxLines maxLineBytes (d :: rest) [] (i + 1)
          (count + 1) nextCheck
        pure (out :: more)
      else scanFrom limits maxLines maxLineBytes (d :: rest) (line ++ [c]) (i + 1) count nextCheck

/-- `scanLines`: the emitted lines; the source also returns their number. -/
def scanLines (limits : Budget) (text : Bytes) (maxLines maxLineBytes : Nat) : Run (List Line) := do
  limits.check
  let out ← scanFrom limits maxLines maxLineBytes text [] 0 0 0
  limits.check
  return out

def defaultMaxLines : Nat := 2000000

/-- `std::numeric_limits<std::size_t>::max()`. -/
def sizeMax : Nat := 2 ^ 64 - 1

def countLines (limits : Budget) (text : Bytes) (maxLines : Nat := defaultMaxLines)
    (maxLineBytes : Nat := sizeMax) : Run Nat := do
  let out ← scanLines limits text maxLines maxLineBytes
  return out.length

def splitLines (limits : Budget) (text : Bytes) (maxLines : Nat := defaultMaxLines)
    (maxLineBytes : Nat := sizeMax) : Run (List Line) := do
  let _ ← countLines limits text maxLines maxLineBytes
  scanLines limits text maxLines maxLineBytes

/-- `while (cond(i)) { step(); ++i; }`, where `cond` fails after `fuel` turns at the latest. -/
def countWhile (limits : Budget) (cond : Nat → Bool) : (fuel i : Nat) → Run Nat
  | 0, i => pure i
  | fuel + 1, i =>
    if cond i then do
      limits.step
      countWhile limits cond fuel (i + 1)
    else pure i

/-! ## The line index without limits -/

/-- The lines of a text whose current line already holds `line`. -/
def linesFrom : Bytes → Line → List Line
  | [], line => if line.isEmpty then [] else [line]
  | [c], line => [line ++ [c]]
  | c :: d :: rest, line =>
    if c = cr ∧ d = lf then (line ++ [c, d]) :: linesFrom rest []
    else if isTerminator c then (line ++ [c]) :: linesFrom (d :: rest) []
    else linesFrom (d :: rest) (line ++ [c])

/-- The lines of a text, with their terminators. -/
def lines (text : Bytes) : List Line := linesFrom text []

theorem linesFrom_flatten (text : Bytes) (line : Line) :
    (linesFrom text line).flatten = line ++ text := by
  induction text, line using linesFrom.induct with
  | case1 line h => simp_all [linesFrom]
  | case2 line h => simp_all [linesFrom]
  | case3 c line => simp [linesFrom]
  | case4 c d rest line h ih => simp [linesFrom, h, ih]
  | case5 c d rest line h hc ih => simp [linesFrom, h, hc, ih]
  | case6 c d rest line h hc ih => simp [linesFrom, h, hc, ih]

/-- Cutting into lines loses no byte. -/
theorem lines_flatten (text : Bytes) : (lines text).flatten = text := linesFrom_flatten text []

theorem lines_injective {s t : Bytes} (h : lines s = lines t) : s = t := by
  rw [← lines_flatten s, ← lines_flatten t, h]

theorem linesFrom_ne_nil (text : Bytes) (line : Line) : ∀ x ∈ linesFrom text line, x ≠ [] := by
  induction text, line using linesFrom.induct with
  | case1 line h => simp_all [linesFrom]
  | case2 line h => simp_all [linesFrom]
  | case3 c line => simp [linesFrom]
  | case4 c d rest line h ih => simpa [linesFrom, h] using ih
  | case5 c d rest line h hc ih => simpa [linesFrom, h, hc] using ih
  | case6 c d rest line h hc ih => simpa [linesFrom, h, hc] using ih

/-! ## What the scan returns -/

/-- The failures of the outside. -/
def Budget.Outside (limits : Budget) (e : Failure) : Prop :=
  (e = ⟨"Canceled"⟩ ∧ ∃ t, limits.canceled t) ∨ (e = ⟨"Timeout"⟩ ∧ ∃ t, limits.expired t) ∨
    (∃ t, limits.memoryCheck t = some e) ∨ ∃ t n, limits.memoryReserve t n = some e

/-- Only the clock ends a run of the default budget. -/
theorem Budget.unattended_outside {expired : Nat → Bool} {e : Failure}
    (h : (Budget.unattended expired).Outside e) : e = ⟨"Timeout"⟩ ∧ ∃ t, expired t := by
  rcases h with ⟨-, t, ht⟩ | h | ⟨t, ht⟩ | ⟨t, n, ht⟩
  · cases ht
  · exact h
  · cases ht
  · cases ht

section Yields

variable {E : Failure → Prop} {limits : Budget}

theorem throwIf_yields {c : Prop} [Decidable c] {code : String} (h : c → E ⟨code⟩) :
    Yields E (throwIf c code) fun _ => ¬ c :=
  .ite (fun hc => .fail (h hc)) fun hc => .pure hc

/-- What follows a check, whatever its failure. -/
theorem throwIf_past {c : Prop} [Decidable c] {code : String} {α : Type} {f : Unit → Run α}
    {R : α → Prop} (hf : ¬ c → Yields (fun _ => True) (f ()) R) :
    Yields (fun _ => True) (throwIf c code >>= f) R :=
  (throwIf_yields fun _ => trivial).bind fun _ => hf

theorem look_yields : Yields E look fun _ => True := fun _ => trivial

theorem tick_yields : Yields E tick fun _ => True := fun _ => trivial

theorem throwSome_yields {o : Option Failure} (h : ∀ e, o = some e → E e) :
    Yields E (throwSome o) fun _ => True := by
  cases o with
  | some e => exact .fail (h e rfl)
  | none => exact .pure trivial

theorem Budget.check_yields (h : ∀ e, limits.Outside e → E e) :
    Yields E limits.check fun _ => True := by
  refine look_yields.bind fun t _ => ?_
  refine (throwIf_yields fun hc => h _ (.inl ⟨rfl, t, hc⟩)).bind fun _ _ => ?_
  refine (throwIf_yields fun hc => h _ (.inr (.inl ⟨rfl, t, hc⟩))).bind fun _ _ => ?_
  exact throwSome_yields fun e he => h e (.inr (.inr (.inl ⟨t, he⟩)))

theorem Budget.reserve_yields {bytes : Nat} (h : ∀ e, limits.Outside e → E e) :
    Yields E (limits.reserve bytes) fun _ => True := by
  refine look_yields.bind fun t _ => ?_
  exact throwSome_yields fun e he => h e (.inr (.inr (.inr ⟨t, bytes, he⟩)))

theorem Budget.step_yields (h : ∀ e, limits.Outside e → E e) (hw : E ⟨"DiffWorkLimit"⟩) :
    Yields E limits.step fun _ => True := by
  refine tick_yields.bind fun n _ => ?_
  refine (throwIf_yields fun _ => hw).bind fun _ _ => ?_
  exact .ite (fun _ => Budget.check_yields h) fun _ => .pure trivial

variable {maxLines maxLineBytes : Nat} {text : Bytes}

theorem emit_yields {count : Nat} {line : Line} (h : count = maxLines → E ⟨"LineLimit"⟩) :
    Yields E (emit maxLines count line) fun out => out = line ∧ count ≠ maxLines :=
  (throwIf_yields h).bind fun _ hc => .pure ⟨rfl, hc⟩

/-- The scan returns the lines. It fails by itself only on more than `maxLines` lines or, at
most, on a line beyond `maxLineBytes`. -/
theorem scanFrom_yields (hE : ∀ e, limits.Outside e → E e) (text : Bytes) (line : Line)
    (i count nextCheck : Nat)
    (hL : maxLines < count + (linesFrom text line).length → E ⟨"LineLimit"⟩)
    (hB : maxLineBytes < line.length + text.length → E ⟨"LongLineLimit"⟩) (hc : count ≤ maxLines) :
    Yields E (scanFrom limits maxLines maxLineBytes text line i count nextCheck)
      fun out => out = linesFrom text line ∧ count + out.length ≤ maxLines := by
  have check : ∀ c : Prop, [Decidable c] →
      Yields E (if c then limits.check else pure ()) fun _ => True := by
    intro c _
    exact .ite (fun _ => Budget.check_yields hE) fun _ => .pure trivial
  induction text, line using linesFrom.induct generalizing i count nextCheck with
  | case1 line h =>
    rw [scanFrom, linesFrom, if_pos h, if_pos h]
    exact .pure ⟨rfl, hc⟩
  | case2 line h =>
    rw [linesFrom, if_neg h] at hL ⊢
    rw [scanFrom, if_neg h]
    refine (emit_yields fun he => hL ?_).bind fun out ho => .pure ?_
    · simp only [length_singleton]; omega
    · exact ⟨by rw [ho.1], by simp only [length_singleton]; omega⟩
  | case3 c line =>
    rw [linesFrom] at hL ⊢
    rw [scanFrom]
    simp only [length_singleton] at hL hB
    refine (check _).skip fun _ => ?_
    refine (throwIf_yields fun h => hB (by omega)).bind fun _ _ => ?_
    refine (emit_yields fun _ => hL (by omega)).bind fun out ho => .pure ?_
    exact ⟨by rw [ho.1], by simp only [length_singleton]; omega⟩
  | case4 c d rest line h ih =>
    rw [linesFrom, if_pos h] at hL ⊢
    rw [scanFrom]
    simp only [length_cons, length_nil] at hL hB ih
    refine (check _).skip fun _ => ?_
    simp only [if_pos h]
    refine (throwIf_yields fun h => hB (by omega)).bind fun _ _ => ?_
    refine (emit_yields fun _ => hL (by omega)).bind fun out ho => ?_
    refine (ih _ _ _ (fun h => hL (by omega)) (fun h => hB (by omega)) (by omega)).bind
      fun more hm => .pure ?_
    exact ⟨by rw [ho.1, hm.1], by simp only [length_cons]; omega⟩
  | case5 c d rest line h ht ih =>
    rw [linesFrom, if_neg h, if_pos ht] at hL ⊢
    rw [scanFrom]
    simp only [length_cons, length_nil] at hL hB ih
    refine (check _).skip fun _ => ?_
    simp only [if_neg h, if_pos ht]
    refine (throwIf_yields fun h => hB (by omega)).bind fun _ _ => ?_
    refine (emit_yields fun _ => hL (by omega)).bind fun out ho => ?_
    refine (ih _ _ _ (fun h => hL (by omega)) (fun h => hB (by omega)) (by omega)).bind
      fun more hm => .pure ?_
    exact ⟨by rw [ho.1, hm.1], by simp only [length_cons]; omega⟩
  | case6 c d rest line h ht ih =>
    rw [linesFrom, if_neg h, if_neg ht] at hL ⊢
    rw [scanFrom]
    simp only [length_cons, length_append, length_nil] at hB ih
    refine (check _).skip fun _ => ?_
    simp only [if_neg h, if_neg ht]
    refine (throwIf_yields fun h => hB (by omega)).bind fun _ _ => ?_
    exact ih _ _ _ hL (fun h => hB (by omega)) hc

theorem scanLines_yields (hE : ∀ e, limits.Outside e → E e)
    (hL : maxLines < (lines text).length → E ⟨"LineLimit"⟩)
    (hB : maxLineBytes < text.length → E ⟨"LongLineLimit"⟩) :
    Yields E (scanLines limits text maxLines maxLineBytes)
      fun out => out = lines text ∧ out.length ≤ maxLines := by
  refine (Budget.check_yields hE).skip fun _ => ?_
  refine (scanFrom_yields hE text [] 0 0 0 (by simpa [lines] using hL) (by simpa using hB)
    (Nat.zero_le _)).bind fun out ho => ?_
  refine (Budget.check_yields hE).skip fun _ => .pure ?_
  exact ⟨ho.1, by simpa using ho.2⟩

theorem countLines_yields (hE : ∀ e, limits.Outside e → E e)
    (hL : maxLines < (lines text).length → E ⟨"LineLimit"⟩)
    (hB : maxLineBytes < text.length → E ⟨"LongLineLimit"⟩) :
    Yields E (countLines limits text maxLines maxLineBytes)
      fun n => n = (lines text).length ∧ n ≤ maxLines :=
  (scanLines_yields hE hL hB).bind fun _ ho => .pure ⟨by rw [ho.1], ho.2⟩

theorem splitLines_yields (hE : ∀ e, limits.Outside e → E e)
    (hL : maxLines < (lines text).length → E ⟨"LineLimit"⟩)
    (hB : maxLineBytes < text.length → E ⟨"LongLineLimit"⟩) :
    Yields E (splitLines limits text maxLines maxLineBytes)
      fun out => out = lines text ∧ out.length ≤ maxLines :=
  (countLines_yields hE hL hB).bind fun _ _ => scanLines_yields hE hL hB

theorem countWhile_yields {cond : Nat → Bool} (hs : Yields E limits.step fun _ => True)
    (fuel i : Nat) :
    Yields E (countWhile limits cond fuel i) fun j =>
      i ≤ j ∧ j ≤ i + fuel ∧ (∀ t, i ≤ t → t < j → cond t) ∧ (j < i + fuel → ¬ cond j) := by
  induction fuel generalizing i with
  | zero => exact .pure ⟨Nat.le_refl _, Nat.le_refl _, fun t _ _ => by omega, fun h => by omega⟩
  | succ fuel ih =>
    rw [countWhile]
    refine .ite (fun hc => ?_) fun hc => .pure ⟨Nat.le_refl _, by omega, fun t _ _ => by omega,
      fun _ => hc⟩
    refine hs.skip fun _ => (ih (i + 1)).weaken ?_
    rintro j ⟨h1, h2, h3, h4⟩
    refine ⟨by omega, by omega, fun t ht htj => ?_, fun hj => h4 (by omega)⟩
    rcases Nat.eq_or_lt_of_le ht with rfl | ht
    · exact hc
    · exact h3 t ht htj

end Yields

end Hc.Compare
