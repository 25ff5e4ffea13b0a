import HyperCommander.Columns.ColumnSort
import Mathlib.Order.WithBot

/-!
# Conditions over column fields (`commonLibs/columns/fieldCondition.hpp`)

A compiled condition over a cell. Texts are compared, searched and matched by Qt; doubles that are
not finite come from operands with a unit.

* `within_iff`: the 64-bit comparison of a relative date condition is exact.
* `FieldCondition.evaluate_congr`: only a relative date looks at the reference time.
-/

namespace Hc.Columns

open Unicode

/-- `Truth`. -/
inductive Truth
  | no
  | yes
  | unknown
deriving DecidableEq, Repr

def Truth.of (hit : Bool) : Truth := if hit then .yes else .no

/-- A `double` that is a number. -/
abbrev Double := WithBot (WithTop Rat)

/-- What Qt and the compiler supply. -/
structure Engine where
  /-- `double(x)` of an integer. -/
  toDouble : Int → Double
  /-- `Raw().toString()`. -/
  rawText : Payload → Units
  /-- `compare(.., Qt::CaseInsensitive) == 0`. -/
  equalFolded : Units → Units → Bool
  /-- `contains(.., Qt::CaseInsensitive)`. -/
  containsFolded : Units → Units → Bool
  /-- `match` of a compiled pattern; `none` when it is not valid. -/
  matchPattern : Units → Units → Option Bool

/-- `FieldNumber`. -/
inductive FieldNumber
  | signed (value : Int64)
  | unsigned (value : UInt64)
  | real (value : Double)

/-- `FieldNumber::AsReal`. -/
def FieldNumber.asReal (engine : Engine) : FieldNumber → Double
  | .signed v => engine.toDouble v.toInt
  | .unsigned v => engine.toDouble v.toNat
  | .real v => v

/-- `FieldNumber::From`. -/
def FieldNumber.of : Payload → Option FieldNumber
  | .integer v => some (.signed v)
  | .unsignedInteger v => some (.unsigned v)
  | .real v => some (.real ((v : WithTop Rat) : Double))
  | _ => none

def order {α : Type} [LT α] [DecidableLT α] (l r : α) : Int :=
  if l < r then -1 else if r < l then 1 else 0

/-- `Compare`. -/
def FieldNumber.compare (engine : Engine) : FieldNumber → FieldNumber → Int
  | .signed a, .signed b => order a b
  | .unsigned a, .unsigned b => order a b
  | .signed a, .unsigned b => if a < 0 then -1 else order a.toUInt64 b
  | .unsigned a, .signed b => if b < 0 then 1 else order a b.toUInt64
  | a, b => order (a.asReal engine) (b.asReal engine)

/-- `FieldCondition::Op`. -/
inductive FieldOp
  | eq
  | ne
  | gt
  | ge
  | lt
  | le
  | between
  | contains
  | notContains
  | isMatch
  | notMatch
  | isFlag
  | before
  | after
  | within
  | isIn
  | notIn
  | exists_
  | notExists
deriving DecidableEq

/-- `FieldCondition`. -/
structure FieldCondition where
  field : Units
  type : FieldType
  op : FieldOp
  low : FieldNumber := .unsigned 0
  high : FieldNumber := .unsigned 0
  text : Units := []
  choices : List Units := []
  numbers : List FieldNumber := []
  patterns : List Units := []
  flag : Bool := false
  instant : Int64 := 0
  span : UInt64 := 0
  time : Int := 0

/-- The test of a relative date: not after the reference time, and at most `span` before it. -/
def within (instant reference : Int64) (span : UInt64) : Bool :=
  instant ≤ reference && reference.toUInt64 - instant.toUInt64 ≤ span

/-- The instant of a cell: days begin at midnight UTC. -/
def Payload.instant : Payload → Option Int64
  | .timestamp msec => msec.map Int64.ofInt
  | .date day => day.map fun d => Int64.ofInt ((d - 2440588) * 86400000)
  | _ => none

/-- The patterns of a text condition; `none` when one of them cannot be evaluated. -/
def matchAny (engine : Engine) (text : Units) : List Units → Option Bool
  | [] => some false
  | pattern :: patterns =>
    match engine.matchPattern pattern text with
    | none => none
    | some true => some true
    | some false => matchAny engine text patterns

/-- `In` and `NotIn`: whether the value is one of the list. -/
def FieldCondition.listed (engine : Engine) (c : FieldCondition) (value : Payload) : Bool :=
  match FieldNumber.of value with
  | some number =>
    if c.numbers ≠ [] then c.numbers.any fun item => number.compare engine item == 0
    else c.choices.any fun choice => engine.equalFolded (engine.rawText value) choice
  | none => c.choices.any fun choice => engine.equalFolded (engine.rawText value) choice

/-- The numeric types. -/
def FieldCondition.numeric (engine : Engine) (c : FieldCondition) (number : FieldNumber) : Truth :=
  let place := number.compare engine c.low
  match c.op with
  | .eq => .of (place == 0)
  | .ne => .of (place != 0)
  | .gt => .of (0 < place)
  | .ge => .of (0 ≤ place)
  | .lt => .of (place < 0)
  | .le => .of (place ≤ 0)
  | .between => .of (0 ≤ place && number.compare engine c.high ≤ 0)
  | _ => .no

/-- The type `Text`. -/
def FieldCondition.textual (engine : Engine) (c : FieldCondition) (text : Units) : Truth :=
  match c.op with
  | .eq => .of (engine.equalFolded text c.text)
  | .contains => .of (engine.containsFolded text c.text)
  | .notContains => .of (!engine.containsFolded text c.text)
  | .isMatch => match matchAny engine text c.patterns with
    | none => .no
    | some hit => .of hit
  | .notMatch => match matchAny engine text c.patterns with
    | none => .no
    | some hit => .of (!hit)
  | _ => .no

/-- The types `Date` and `Timestamp`. -/
def FieldCondition.dated (c : FieldCondition) (instant reference : Int64) : Truth :=
  match c.op with
  | .before => .of (instant < c.instant)
  | .after => .of (instant > c.instant)
  | _ => .of (within instant reference c.span)

/-- The comparison of a value that is there. -/
def FieldCondition.compareValue (engine : Engine) (c : FieldCondition) (value : Payload)
    (reference : Int64) : Truth :=
  match c.type with
  | .integer | .unsignedInteger | .real => match FieldNumber.of value with
    | none => .no
    | some number => c.numeric engine number
  | .boolean => match value with
    | .boolean flag => .of (flag == c.flag)
    | _ => .no
  | .time => match value with
    | .time msec =>
      .of (if c.op = .before then decide (msec.getD (-1) < c.time)
        else decide (msec.getD (-1) > c.time))
    | _ => .no
  | .date | .timestamp => match value.instant with
    | none => .no
    | some instant => c.dated instant reference
  | .text => c.textual engine (engine.rawText value)

/-- `EvaluateFieldCondition`. -/
def FieldCondition.evaluate (engine : Engine) (c : FieldCondition) (value : CellValue)
    (reference : Int64) : Truth :=
  match value with
  | .missing .pending => .unknown
  | .missing .onDemand => .unknown
  | .missing .empty => .of (c.op == .notExists)
  | .missing .unsupported => .no
  | .missing .error => .no
  | .ready value => match c.op with
    | .exists_ => .yes
    | .notExists => .no
    | .isIn => .of (c.listed engine value)
    | .notIn => .of (!c.listed engine value)
    | _ => c.compareValue engine value reference

/-! ### Reference times -/

section Within

variable {instant reference later : Int64} {span : UInt64}

/-- A signed number and its unsigned bits. -/
theorem toInt_cases (x : Int64) :
    (x.toInt = x.toUInt64.toNat ∧ x.toUInt64.toNat < 2 ^ 63) ∨
      (x.toInt = (x.toUInt64.toNat : Int) - 2 ^ 64 ∧ 2 ^ 63 ≤ x.toUInt64.toNat ∧
        x.toUInt64.toNat < 2 ^ 64) := by
  have hint : x.toInt = x.toBitVec.toInt := rfl
  have hnat : x.toUInt64.toNat = x.toBitVec.toNat := rfl
  rw [hint, hnat, BitVec.toInt_eq_toNat_cond]
  split <;> omega

/-- The distance of two instants fits in 64 unsigned bits. -/
theorem toNat_sub_toUInt64 (h : instant.toInt ≤ reference.toInt) :
    ((reference.toUInt64 - instant.toUInt64).toNat : Int) = reference.toInt - instant.toInt := by
  have h1 := toInt_cases instant
  have h2 := toInt_cases reference
  rw [UInt64.toNat_sub]
  omega

theorem within_iff :
    within instant reference span = true ↔
      instant.toInt ≤ reference.toInt ∧ reference.toInt - instant.toInt ≤ span.toNat := by
  unfold within
  rw [Bool.and_eq_true, decide_eq_true_eq, decide_eq_true_eq, Int64.le_iff_toInt_le]
  refine and_congr_right fun h => ?_
  rw [UInt64.le_iff_toNat_le, ← toNat_sub_toUInt64 h]
  omega

end Within

/-- The conditions that end in the test of a relative date: those with `Within`, and those on dates
with an operator that dates do not have. -/
def FieldCondition.relative (c : FieldCondition) : Bool :=
  (c.type == .date || c.type == .timestamp) &&
    !([.before, .after, .exists_, .notExists, .isIn, .notIn] : List FieldOp).contains c.op

/-- Only a relative date looks at the reference time. -/
theorem FieldCondition.evaluate_congr (engine : Engine) (c : FieldCondition) (value : CellValue)
    {reference later : Int64}
    (h : c.relative = true → ∀ payload instant, value = .ready payload →
      payload.instant = some instant →
        within instant reference c.span = within instant later c.span) :
    c.evaluate engine value reference = c.evaluate engine value later := by
  cases value with
  | missing state => cases state <;> rfl
  | ready payload =>
    have hcompare : c.op ∉ ([.exists_, .notExists, .isIn, .notIn] : List FieldOp) →
        c.compareValue engine payload reference = c.compareValue engine payload later := by
      intro hop
      unfold FieldCondition.compareValue
      split <;> try rfl
      all_goals
        cases hi : payload.instant with
        | none => rfl
        | some instant =>
          dsimp only
          unfold FieldCondition.dated
          split <;> try rfl
          rw [h ?_ payload instant rfl hi]
          simp_all [FieldCondition.relative]
    unfold FieldCondition.evaluate
    dsimp only
    split <;> try rfl
    exact hcompare (by simp_all)

/-- A relative date over a cell that has a date. -/
theorem FieldCondition.evaluate_relative (engine : Engine) {c : FieldCondition}
    (h : c.relative = true) {payload : Payload} {instant : Int64}
    (hi : payload.instant = some instant) (reference : Int64) :
    c.evaluate engine (.ready payload) reference = .of (within instant reference c.span) := by
  obtain ⟨ht, hop⟩ : (c.type = .date ∨ c.type = .timestamp) ∧
      c.op ∉ ([.before, .after, .exists_, .notExists, .isIn, .notIn] : List FieldOp) := by
    simpa [FieldCondition.relative] using h
  have hcompare : c.compareValue engine payload reference =
      .of (within instant reference c.span) := by
    unfold FieldCondition.compareValue
    rcases ht with ht | ht <;> rw [ht] <;> simp only [hi] <;>
      unfold FieldCondition.dated <;> split <;>
      simp_all
  unfold FieldCondition.evaluate
  split <;> simp_all

end Hc.Columns
