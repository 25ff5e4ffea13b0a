import HyperCommander.Lib.ThreeWay
import HyperCommander.Lib.Unicode
import Mathlib.Algebra.Order.Ring.Rat

/-!
# The order of rows (`commonLibs/columns/columnSort.hpp`)

* `naturalCompare_eq`: texts whose digits are all ASCII digits are compared as rows of characters
  and numbers.
* `sortLess_iff`: `SortLess` is "less" by `rowCompare`, the comparison of the parent rows, the
  directories, the columns and the identities in a row.
* `sortLess_strictWeak_iff`: for which rows that is a strict weak order.
-/

namespace Hc.Columns

open List Unicode ThreeWay

/-! ## Values -/

/-- `FieldType`. -/
inductive FieldType
  | text
  | integer
  | unsignedInteger
  | real
  | boolean
  | date
  | time
  | timestamp
deriving DecidableEq

/-- `Payload`. A real is finite (`CellValue::Ready`); of dates and times, `none` is the invalid
one. -/
inductive Payload
  | text (value : Units)
  | integer (value : Int64)
  | unsignedInteger (value : UInt64)
  | real (value : Rat)
  | boolean (value : Bool)
  | date (day : Option Int)
  | time (msec : Option Int)
  | timestamp (msec : Option Int)

/-- `CellValue::Type`, of a value. -/
def Payload.type : Payload → FieldType
  | .text _ => .text
  | .integer _ => .integer
  | .unsignedInteger _ => .unsignedInteger
  | .real _ => .real
  | .boolean _ => .boolean
  | .date _ => .date
  | .time _ => .time
  | .timestamp _ => .timestamp

/-- A `ValueState` other than `Ready`. -/
inductive Missing
  | empty
  | pending
  | onDemand
  | unsupported
  | error

/-- `CellValue`. It has a value if and only if its state is `Ready`. -/
inductive CellValue
  | ready (value : Payload)
  | missing (state : Missing)

/-- The default `CellValue`. -/
def CellValue.empty : CellValue := .missing .empty

structure SortRow where
  id : Units
  parent : Bool := false
  directory : Bool := false
  values : List CellValue := []

/-- `Left.values_.value(Index)`. -/
def SortRow.value (r : SortRow) (index : Nat) : CellValue := r.values.getD index .empty

inductive CaseSensitivity
  | caseInsensitive
  | caseSensitive

inductive SortOrder
  | ascendingOrder
  | descendingOrder

/-- What `SortLess` is called with, besides the rows. -/
structure SortSpec where
  orders : List SortOrder
  locale : Bool := true
  numeric : Bool := true
  case_ : CaseSensitivity := .caseInsensitive

/-! ## The comparison -/

/-- The zeros of the decimal digits below U+10000. -/
def digitZeros : List Nat :=
  [0x30, 0x660, 0x6f0, 0x7c0, 0x966, 0x9e6, 0xa66, 0xae6, 0xb66, 0xbe6, 0xc66, 0xce6, 0xd66, 0xde6,
    0xe50, 0xed0, 0xf20, 0x1040, 0x1090, 0x17e0, 0x1810, 0x1946, 0x19d0, 0x1a80, 0x1a90, 0x1b50,
    0x1bb0, 0x1c40, 0x1c50, 0xa620, 0xa8d0, 0xa900, 0xa9d0, 0xa9f0, 0xaa50, 0xabf0, 0xff10]

/-- `QChar::isDigit`. -/
def isDigit (c : UInt16) : Bool := digitZeros.any fun z => z ≤ c.toNat && c.toNat < z + 10

/-- An ASCII digit. -/
def IsAsciiDigit (n : Nat) : Prop := 0x30 ≤ n ∧ n ≤ 0x39

/-- What Qt supplies: case folding, `QCollator::compare`, and `QVariant::compare` between a number
or text and one of another type. -/
structure Library where
  foldCase : Nat → Nat
  collate : (numeric : Bool) → CaseSensitivity → Units → Units → Ordering
  compareNumeric : Payload → Payload → Option Ordering

/-- What is documented about it: a collation orders the strings, and case folding changes neither
a digit nor, among the ASCII characters, anything but `A` to `Z`. -/
structure Library.Documented (q : Library) : Prop where
  collate : ∀ numeric case_, Std.TransCmp (q.collate numeric case_)
  fold_ascii : ∀ c, c < 0x80 → q.foldCase c = if 0x41 ≤ c ∧ c ≤ 0x5a then c + 0x20 else c
  fold_digit : ∀ c : UInt16, isDigit c = true → q.foldCase c.toNat = c.toNat
  fold_other : ∀ c : UInt16, isDigit c = false → ¬ IsAsciiDigit (q.foldCase c.toNat)

section Compare

variable (q : Library)

/-- The folded units; a low surrogate after a high one is folded with it. -/
def foldUnits : (last : UInt16) → Units → List Nat
  | _, [] => []
  | last, c :: s =>
    q.foldCase (if isHigh last && isLow c then
      0x10000 + (last.toNat - 0xd800) * 0x400 + (c.toNat - 0xdc00) else c.toNat) :: foldUnits c s

/-- The units as they are compared. -/
def caseUnits : CaseSensitivity → Units → List Nat
  | .caseSensitive, s => s.map UInt16.toNat
  | .caseInsensitive, s => foldUnits q 0 s

/-- `QString::compare`. -/
def stringCompare (case_ : CaseSensitivity) (a b : Units) : Ordering :=
  compare (caseUnits q case_ a) (caseUnits q case_ b)

/-- `while (AN.size() > 1 && AN[0] == '0') AN.remove(0, 1)`. -/
def stripZeros : Units → Units
  | c :: d :: s => if c = 0x30 then stripZeros (d :: s) else c :: d :: s
  | s => s

/-- The loop of the natural order, from `I` and `J` on. Each turn moves `I` on, so the length of the
first text suffices as `fuel`. -/
def naturalCompare (case_ : CaseSensitivity) : (fuel : Nat) → Units → Units → Ordering
  | fuel + 1, x :: a, y :: b =>
    if isDigit x && isDigit y then
      let an := stripZeros ((x :: a).takeWhile isDigit)
      let bn := stripZeros ((y :: b).takeWhile isDigit)
      if an.length ≠ bn.length then (if an.length < bn.length then .lt else .gt)
      else match stringCompare q .caseSensitive an bn with
        | .eq => naturalCompare case_ fuel ((x :: a).dropWhile isDigit) ((y :: b).dropWhile isDigit)
        | order => order
    else match stringCompare q case_ [x] [y] with
      | .eq => naturalCompare case_ fuel a b
      | order => order
  | _, a, b => compare (decide (a ≠ [])) (decide (b ≠ []))

/-- `TextCompare`. -/
def textCompare (spec : SortSpec) (a b : Units) : Ordering :=
  if spec.locale then q.collate spec.numeric spec.case_ a b
  else if !spec.numeric then stringCompare q spec.case_ a b
  else naturalCompare q spec.case_ a.length a b

/-- `QVariant::compare`; `none` for `Unordered`. -/
def variantCompare : Payload → Payload → Option Ordering
  | .text a, .text b => some (stringCompare q .caseSensitive a b)
  | .integer a, .integer b => some (compare a b)
  | .unsignedInteger a, .unsignedInteger b => some (compare a b)
  | .real a, .real b => some (compare a b)
  | .boolean a, .boolean b => some (compare a b)
  | .date a, .date b => some (compare a b)
  | .time a, .time b => some (compare a b)
  | .timestamp a, .timestamp b => some (compare a b)
  | .date _, _ | .time _, _ | .timestamp _, _ | _, .date _ | _, .time _ | _, .timestamp _ => none
  | a, b => q.compareNumeric a b

/-- `Order`, of two values. -/
def valueCompare (spec : SortSpec) : Payload → Payload → Ordering
  | .text a, .text b => textCompare q spec a b
  | a, b => (variantCompare q a b).getD .eq

/-- The loop over the columns from `index` on. -/
def columnsLess (spec : SortSpec) (l r : SortRow) : (index : Nat) → List SortOrder → Bool
  | _, [] => stringCompare q .caseSensitive l.id r.id == .lt
  | index, o :: orders =>
    match l.value index, r.value index with
    | .ready _, .missing _ => true
    | .missing _, .ready _ => false
    | .missing _, .missing _ => columnsLess spec l r (index + 1) orders
    | .ready lv, .ready rv =>
      let order := valueCompare q spec lv rv
      if order ≠ .eq then
        match o with
        | .ascendingOrder => order == .lt
        | .descendingOrder => order == .gt
      else columnsLess spec l r (index + 1) orders

/-- `SortLess`. -/
def sortLess (spec : SortSpec) (l r : SortRow) : Bool :=
  if l.parent ≠ r.parent then l.parent
  else if l.directory ≠ r.directory then l.directory
  else columnsLess q spec l r 0 spec.orders

end Compare

variable {q : Library} {spec : SortSpec}

/-! ## The natural order -/

/-- A piece of a text: a character, or a number with the length and the digits that are left of
it. -/
structure Token where
  head : Nat
  length : Nat := 0
  digits : List Nat := []

/-- A number stands where a zero would. -/
def numberToken (digits : Units) : Token :=
  ⟨0x30, (stripZeros digits).length, (stripZeros digits).map UInt16.toNat⟩

/-- A unit as it is compared. -/
def charKey (q : Library) : CaseSensitivity → UInt16 → Nat
  | .caseSensitive, x => x.toNat
  | .caseInsensitive, x => q.foldCase x.toNat

def tokens (q : Library) (case_ : CaseSensitivity) : Units → List Token
  | [] => []
  | x :: s =>
    if isDigit x then
      numberToken ((x :: s).takeWhile isDigit) :: tokens q case_ (s.dropWhile isDigit)
    else ⟨charKey q case_ x, 0, []⟩ :: tokens q case_ s
termination_by s => s.length
decreasing_by
  · have := (List.dropWhile_sublist isDigit (l := s)).length_le
    simp only [List.length_cons]
    omega
  · exact Nat.lt_succ_self _

def tokenCompare : Token → Token → Ordering :=
  compareLex (compareOn Token.head) (compareLex (compareOn Token.length) (compareOn Token.digits))

instance transCmp_tokenCompare : Std.TransCmp tokenCompare :=
  inferInstanceAs (Std.TransCmp (compareLex _ (compareLex _ _)))

/-- The digits of the text are ASCII digits. -/
def AsciiDigits (s : Units) : Prop := ∀ c ∈ s, isDigit c = true → c.toNat ≤ 0x39

variable {case_ : CaseSensitivity} {a b s : Units} {x y : UInt16}

theorem AsciiDigits.mono {t : Units} (h : AsciiDigits s) (ht : t.Sublist s) : AsciiDigits t :=
  fun c hc => h c (ht.subset hc)

theorem le_of_isDigit (h : isDigit x = true) : 0x30 ≤ x.toNat := by
  obtain ⟨z, hz, hx⟩ := any_eq_true.mp h
  have hall : ∀ z ∈ digitZeros, 0x30 ≤ z := by decide
  have := hall z hz
  simp only [Bool.and_eq_true, decide_eq_true_eq] at hx
  omega

theorem isDigit_of_ascii (h : IsAsciiDigit x.toNat) : isDigit x = true := by
  refine any_eq_true.mpr ⟨0x30, mem_cons_self, ?_⟩
  have := h.2
  simp only [Bool.and_eq_true, decide_eq_true_eq]
  exact ⟨h.1, by omega⟩

theorem caseUnits_singleton : caseUnits q case_ [x] = [charKey q case_ x] := by
  cases case_
  · simp [caseUnits, foldUnits, charKey, isHigh]
  · rfl

theorem stringCompare_singleton :
    stringCompare q case_ [x] [y] = compare (charKey q case_ x) (charKey q case_ y) := by
  unfold stringCompare
  rw [caseUnits_singleton, caseUnits_singleton, List.compare_eq_compareLex,
    List.compareLex_cons_cons, List.compareLex_nil_nil, Ordering.then_eq]

theorem charKey_digit (hq : q.Documented) (h : isDigit x = true) :
    charKey q case_ x = x.toNat := by
  cases case_
  · exact hq.fold_digit x h
  · rfl

theorem charKey_other (hq : q.Documented) (h : isDigit x = false) :
    ¬ IsAsciiDigit (charKey q case_ x) := by
  cases case_
  · exact hq.fold_other x h
  · exact fun hx => by
      rw [isDigit_of_ascii hx] at h
      cases h

/-- The digits take the same place among the other characters. -/
theorem compare_digit_other {d k : Nat} (hd : IsAsciiDigit d) (hk : ¬ IsAsciiDigit k) :
    compare d k = compare 0x30 k ∧ compare k d = compare k 0x30 ∧ compare d k ≠ .eq ∧
      compare k d ≠ .eq := by
  unfold IsAsciiDigit at hd hk
  rcases Nat.lt_or_ge k 0x30 with h | h
  · rw [Nat.compare_eq_gt.mpr (by omega : k < d), Nat.compare_eq_gt.mpr h,
      Nat.compare_eq_lt.mpr (by omega : k < d), Nat.compare_eq_lt.mpr h]
    decide
  · rw [Nat.compare_eq_lt.mpr (by omega : d < k), Nat.compare_eq_lt.mpr (by omega : 0x30 < k),
      Nat.compare_eq_gt.mpr (by omega : d < k), Nat.compare_eq_gt.mpr (by omega : 0x30 < k)]
    decide

theorem naturalCompare_nil_left (fuel : Nat) :
    naturalCompare q case_ fuel [] b = compare false (decide (b ≠ [])) := by
  cases fuel <;> rfl

theorem naturalCompare_nil_right (fuel : Nat) :
    naturalCompare q case_ fuel (x :: a) [] = .gt := by
  cases fuel <;> rfl

theorem tokens_digit (h : isDigit x = true) :
    tokens q case_ (x :: s) =
      numberToken ((x :: s).takeWhile isDigit) :: tokens q case_ (s.dropWhile isDigit) := by
  rw [tokens, if_pos h]

theorem tokens_other (h : isDigit x = false) :
    tokens q case_ (x :: s) = ⟨charKey q case_ x, 0, []⟩ :: tokens q case_ s := by
  rw [tokens, if_neg (by rw [h]; exact Bool.false_ne_true)]

theorem tokens_ne_nil : tokens q case_ (x :: s) ≠ [] := by
  rw [tokens]
  split <;> exact cons_ne_nil _ _

/-- Two numbers: the longer one is greater, then the digits decide. -/
theorem tokenCompare_number (c d : Units) :
    tokenCompare (numberToken c) (numberToken d) =
      if (stripZeros c).length ≠ (stripZeros d).length then
        if (stripZeros c).length < (stripZeros d).length then .lt else .gt
      else stringCompare q .caseSensitive (stripZeros c) (stripZeros d) := by
  have hcmp : tokenCompare (numberToken c) (numberToken d) =
      (compare (stripZeros c).length (stripZeros d).length).then
        (stringCompare q .caseSensitive (stripZeros c) (stripZeros d)) := by
    simp only [tokenCompare, compareLex, compareOn, numberToken]
    rw [Nat.compare_eq_eq.mpr rfl]
    rfl
  rw [hcmp]
  split
  · split
    · rw [Nat.compare_eq_lt.mpr ‹_›]
      rfl
    · rw [Nat.compare_eq_gt.mpr (by omega)]
      rfl
  · rw [Nat.compare_eq_eq.mpr (by omega)]
    rfl

theorem tokens_nil : tokens q case_ [] = [] := by
  rw [tokens]

theorem naturalCompare_eq_nil (fuel : Nat) :
    naturalCompare q case_ fuel [] b =
      List.compareLex tokenCompare (tokens q case_ []) (tokens q case_ b) := by
  rw [naturalCompare_nil_left, tokens_nil]
  cases b with
  | nil =>
    rw [tokens_nil]
    rfl
  | cons y b =>
    obtain ⟨t, ts, ht⟩ := exists_cons_of_ne_nil (@tokens_ne_nil q case_ b y)
    rw [ht]
    rfl

/-- Two pieces that their first characters tell apart. -/
theorem compareLex_of_head {t u : Token} {ts us : List Token} {o : Ordering}
    (h : compare t.head u.head = o) (ho : o ≠ .eq) :
    List.compareLex tokenCompare (t :: ts) (u :: us) = o := by
  have ht : tokenCompare t u = o := by
    unfold tokenCompare compareLex compareOn
    rw [h]
    cases o
    · rfl
    · exact absurd rfl ho
    · rfl
  rw [List.compareLex_cons_cons, ht]
  cases o
  · rfl
  · exact absurd rfl ho
  · rfl

/-- Texts whose digits are ASCII digits are compared piece by piece. -/
theorem naturalCompare_eq (hq : q.Documented) (fuel : Nat) (ha : AsciiDigits a)
    (hb : AsciiDigits b) (hfuel : a.length ≤ fuel) :
    naturalCompare q case_ fuel a b =
      List.compareLex tokenCompare (tokens q case_ a) (tokens q case_ b) := by
  induction fuel generalizing a b with
  | zero =>
    rw [length_eq_zero_iff.mp (Nat.le_zero.mp hfuel)]
    exact naturalCompare_eq_nil 0
  | succ fuel ih =>
    rcases a with - | ⟨x, a⟩
    · exact naturalCompare_eq_nil (fuel + 1)
    rcases b with - | ⟨y, b⟩
    · obtain ⟨t, ts, ht⟩ := exists_cons_of_ne_nil (@tokens_ne_nil q case_ a x)
      rw [naturalCompare_nil_right, tokens_nil, ht]
      rfl
    have hlen : a.length ≤ fuel := Nat.le_of_succ_le_succ hfuel
    rw [naturalCompare]
    by_cases hxy : (isDigit x && isDigit y) = true
    -- Both are at a number, or one character of each is compared.
    · obtain ⟨hx, hy⟩ := Bool.and_eq_true_iff.mp hxy
      have hrest := ih (ha.mono ((dropWhile_sublist isDigit).trans (sublist_cons_self x a)))
        (hb.mono ((dropWhile_sublist isDigit).trans (sublist_cons_self y b)))
        ((dropWhile_sublist isDigit).length_le.trans hlen)
      rw [if_pos hxy, tokens_digit hx, tokens_digit hy, List.compareLex_cons_cons, ← hrest,
        tokenCompare_number, dropWhile_cons_of_pos hx, dropWhile_cons_of_pos hy]
      dsimp only
      split
      · split <;> rfl
      · cases stringCompare q .caseSensitive (stripZeros ((x :: a).takeWhile isDigit))
          (stripZeros ((y :: b).takeWhile isDigit)) <;> rfl
    rw [if_neg hxy, stringCompare_singleton]
    cases hx : isDigit x <;> cases hy : isDigit y
    · have hrest := ih (ha.mono (sublist_cons_self x a)) (hb.mono (sublist_cons_self y b))
        hlen
      rw [tokens_other hx, tokens_other hy, List.compareLex_cons_cons, ← hrest]
      have htoken : tokenCompare ⟨charKey q case_ x, 0, []⟩ ⟨charKey q case_ y, 0, []⟩ =
          compare (charKey q case_ x) (charKey q case_ y) :=
        Ordering.then_eq
      rw [htoken]
      cases compare (charKey q case_ x) (charKey q case_ y) <;> rfl
    · have hkey := compare_digit_other ⟨le_of_isDigit hy, hb y mem_cons_self hy⟩
        (@charKey_other q case_ x hq hx)
      rw [tokens_other hx, tokens_digit hy, charKey_digit hq hy, compareLex_of_head
        (show compare (charKey q case_ x) 0x30 = _ from hkey.2.1.symm) hkey.2.2.2]
      have hne := hkey.2.2.2
      revert hne
      cases compare (charKey q case_ x) y.toNat <;> simp
    · have hkey := compare_digit_other ⟨le_of_isDigit hx, ha x mem_cons_self hx⟩
        (@charKey_other q case_ y hq hy)
      rw [tokens_digit hx, tokens_other hy, charKey_digit hq hx, compareLex_of_head
        (show compare 0x30 (charKey q case_ y) = _ from hkey.1.symm) hkey.2.2.1]
      have hne := hkey.2.2.1
      revert hne
      cases compare x.toNat (charKey q case_ y) <;> simp
    · rw [hx, hy] at hxy
      exact absurd rfl hxy

theorem naturalCompare_lawful (hq : q.Documented) :
    LawfulOn AsciiDigits fun a b => naturalCompare q case_ a.length a b := by
  have htokens : LawfulOn (fun _ => True) (List.compareLex tokenCompare) :=
    .of_transCmp _
  have hon : LawfulOn AsciiDigits fun a b =>
      List.compareLex tokenCompare (tokens q case_ a) (tokens q case_ b) :=
    htokens.comap fun _ _ => trivial
  exact hon.congr fun a b ha hb => naturalCompare_eq hq a.length ha hb (Nat.le_refl _)

theorem stringCompare_lawful {dom : Units → Prop} : LawfulOn dom (stringCompare q case_) :=
  LawfulOn.of_transCmp (compareOn (caseUnits q case_))

/-- The texts in `dom` are compared consistently. -/
theorem textCompare_lawful (hq : q.Documented) {dom : Units → Prop}
    (h : spec.locale = false → spec.numeric = true → ∀ s, dom s → AsciiDigits s) :
    LawfulOn dom (textCompare q spec) := by
  unfold textCompare
  cases hl : spec.locale
  · cases hn : spec.numeric
    · exact stringCompare_lawful
    · exact (naturalCompare_lawful hq).comap (f := id) (h hl hn)
  · have := hq.collate spec.numeric spec.case_
    exact LawfulOn.of_transCmp (q.collate spec.numeric spec.case_)

/-! ## The rows -/

/-- The values of type `type`, the texts among them in `dom`. -/
def Payload.Is (dom : Units → Prop) (type : FieldType) (p : Payload) : Prop :=
  p.type = type ∧ ∀ s, p = .text s → dom s

/-- The values of a type are compared consistently if its texts are. -/
theorem valueCompare_lawful {dom : Units → Prop} {type : FieldType}
    (h : type = .text → LawfulOn dom (textCompare q spec)) :
    LawfulOn (Payload.Is dom type) (valueCompare q spec) := by
  have hall : ∀ {K : Type} [Ord K] [Std.TransOrd K], LawfulOn (fun _ : K => True) compare :=
    .of_transCmp compare
  cases type
  · refine (h rfl).image (f := .text) (fun p hp => ?_) fun _ _ _ _ => rfl
    cases p <;> cases hp.1
    exact ⟨_, hp.2 _ rfl, rfl⟩
  · refine (hall (K := Int64)).image (f := .integer) (fun p hp => ?_) fun _ _ _ _ => rfl
    cases p <;> cases hp.1
    exact ⟨_, trivial, rfl⟩
  · refine (hall (K := UInt64)).image (f := .unsignedInteger) (fun p hp => ?_) fun _ _ _ _ => rfl
    cases p <;> cases hp.1
    exact ⟨_, trivial, rfl⟩
  · refine (hall (K := Rat)).image (f := .real) (fun p hp => ?_) fun _ _ _ _ => rfl
    cases p <;> cases hp.1
    exact ⟨_, trivial, rfl⟩
  · refine (hall (K := Bool)).image (f := .boolean) (fun p hp => ?_) fun _ _ _ _ => rfl
    cases p <;> cases hp.1
    exact ⟨_, trivial, rfl⟩
  · refine (hall (K := Option Int)).image (f := .date) (fun p hp => ?_) fun _ _ _ _ => rfl
    cases p <;> cases hp.1
    exact ⟨_, trivial, rfl⟩
  · refine (hall (K := Option Int)).image (f := .time) (fun p hp => ?_) fun _ _ _ _ => rfl
    cases p <;> cases hp.1
    exact ⟨_, trivial, rfl⟩
  · refine (hall (K := Option Int)).image (f := .timestamp) (fun p hp => ?_) fun _ _ _ _ => rfl
    cases p <;> cases hp.1
    exact ⟨_, trivial, rfl⟩

def CellValue.value? : CellValue → Option Payload
  | .ready p => some p
  | .missing _ => none

/-- The direction of a column. -/
def SortOrder.directed : SortOrder → Ordering → Ordering
  | .ascendingOrder, o => o
  | .descendingOrder, o => o.swap

/-- The comparison that the columns from `index` on, and then the identities, decide. -/
def columnsCompare (q : Library) (spec : SortSpec) :
    (index : Nat) → List SortOrder → SortRow → SortRow → Ordering
  | _, [], l, r => stringCompare q .caseSensitive l.id r.id
  | index, o :: orders, l, r =>
    (missingLast (fun a b => o.directed (valueCompare q spec a b)) (l.value index).value?
      (r.value index).value?).then (columnsCompare q spec (index + 1) orders l r)

def rowCompare (q : Library) (spec : SortSpec) (l r : SortRow) : Ordering :=
  (compare (!l.parent) (!r.parent)).then
    ((compare (!l.directory) (!r.directory)).then (columnsCompare q spec 0 spec.orders l r))

theorem columnsLess_iff (l r : SortRow) (index : Nat) (orders : List SortOrder) :
    columnsLess q spec l r index orders = (columnsCompare q spec index orders l r == .lt) := by
  induction orders generalizing index with
  | nil => rfl
  | cons o orders ih =>
    rw [columnsLess, columnsCompare]
    cases l.value index with
    | missing _ => cases r.value index with
      | missing _ => exact ih (index + 1)
      | ready _ => rfl
    | ready a => cases r.value index with
      | missing _ => rfl
      | ready b =>
        dsimp only [CellValue.value?, missingLast]
        rw [ih (index + 1)]
        cases valueCompare q spec a b <;> cases o <;> rfl

/-- `SortLess` is "less" by `rowCompare`. -/
theorem sortLess_iff (l r : SortRow) : sortLess q spec l r = (rowCompare q spec l r == .lt) := by
  unfold sortLess rowCompare
  rw [columnsLess_iff]
  cases l.parent <;> cases r.parent <;> cases l.directory <;> cases r.directory <;> rfl

/-- The values that the first columns of a row have are in `dom`. -/
def SortRow.In (dom : Nat → Payload → Prop) (columns : Nat) (r : SortRow) : Prop :=
  ∀ i < columns, ∀ p ∈ (r.value i).value?, dom i p

theorem directed_lawful {dom : Payload → Prop} {cmp : Payload → Payload → Ordering}
    (h : LawfulOn dom cmp) (o : SortOrder) : LawfulOn dom fun a b => o.directed (cmp a b) := by
  cases o
  · exact h
  · exact h.swap

theorem columnsCompare_lawful {dom : Nat → Payload → Prop} (columns index : Nat)
    (orders : List SortOrder) (hlen : index + orders.length ≤ columns)
    (h : ∀ i < columns, LawfulOn (dom i) (valueCompare q spec)) :
    LawfulOn (SortRow.In dom columns) (columnsCompare q spec index orders) := by
  induction orders generalizing index with
  | nil => exact (@stringCompare_lawful q _ fun _ => True).comap fun _ _ => trivial
  | cons o orders ih =>
    rw [length_cons] at hlen
    have hcolumn := (directed_lawful (h index (by omega)) o).missingLast
    refine LawfulOn.lex ?_ (ih (index + 1) (by omega))
    exact hcolumn.comap (f := fun r : SortRow => (r.value index).value?) fun r hr =>
      hr index (by omega)

/-- The rows are ordered consistently if the values of each column are. -/
theorem sortLess_lawful {dom : Nat → Payload → Prop}
    (h : ∀ i < spec.orders.length, LawfulOn (dom i) (valueCompare q spec)) :
    StrictWeakOn (SortRow.In dom spec.orders.length) (sortLess q spec) := by
  have hbool : ∀ f : SortRow → Bool, LawfulOn (SortRow.In dom spec.orders.length)
      fun l r => compare (!f l) (!f r) :=
    fun f => LawfulOn.of_transCmp (compareOn fun r : SortRow => !f r)
  have hcolumns := columnsCompare_lawful spec.orders.length 0 spec.orders (by omega) h
  have hrow : LawfulOn (SortRow.In dom spec.orders.length) (rowCompare q spec) :=
    (hbool _).lex ((hbool _).lex hcolumns)
  have hless : sortLess q spec = fun l r => rowCompare q spec l r == .lt := by
    funext l r
    exact sortLess_iff l r
  rw [hless]
  exact hrow.strictWeak

/-! ## Cycles -/

/-- A row with one value. -/
def rowAt (column : Nat) (p : Payload) (id : Units) : SortRow :=
  { id := id, values := List.replicate column .empty ++ [.ready p] }

theorem value_rowAt (column index : Nat) (p : Payload) (id : Units) :
    ((rowAt column p id).value index).value? = if index = column then some p else none := by
  unfold SortRow.value rowAt
  rw [getD_eq_getElem?_getD, getElem?_append, length_replicate]
  split
  · rw [getElem?_replicate, if_pos ‹_›, if_neg (by omega)]
    rfl
  · rcases Nat.eq_or_lt_of_le (Nat.le_of_not_lt ‹_›) with rfl | hlt
    · rw [Nat.sub_self, if_pos rfl]
      rfl
    · rw [getElem?_eq_none (by rw [length_singleton]; omega), if_neg (by omega)]
      rfl

theorem columnsCompare_none {l r : SortRow} (index : Nat) (orders : List SortOrder)
    (h : ∀ j, index ≤ j → (l.value j).value? = none ∧ (r.value j).value? = none) :
    columnsCompare q spec index orders l r = stringCompare q .caseSensitive l.id r.id := by
  induction orders generalizing index with
  | nil => rfl
  | cons o orders ih =>
    rw [columnsCompare, (h index (Nat.le_refl _)).1, (h index (Nat.le_refl _)).2]
    exact ih (index + 1) fun j hj => h j (by omega)

variable {o : SortOrder} {v w : Payload} {i : Nat} {s t : Units}

theorem columnsCompare_rowAt (n index : Nat) (orders : List SortOrder) (ho : orders[n]? = some o) :
    columnsCompare q spec index orders (rowAt (index + n) v s) (rowAt (index + n) w t) =
      (o.directed (valueCompare q spec v w)).then (stringCompare q .caseSensitive s t) := by
  induction n generalizing index orders with
  | zero =>
    rcases orders with - | ⟨o', orders⟩
    · cases ho
    cases ho
    rw [Nat.add_zero, columnsCompare, value_rowAt, value_rowAt, if_pos rfl, if_pos rfl,
      columnsCompare_none (index + 1) orders]
    · rfl
    · intro j hj
      rw [value_rowAt, value_rowAt, if_neg (by omega), if_neg (by omega)]
      exact ⟨rfl, rfl⟩
  | succ n ih =>
    rcases orders with - | ⟨o', orders⟩
    · cases ho
    rw [columnsCompare, value_rowAt, value_rowAt, if_neg (by omega), if_neg (by omega),
      show index + (n + 1) = index + 1 + n by omega]
    exact ih (index + 1) orders ho

theorem sortLess_rowAt (ho : spec.orders[i]? = some o) :
    sortLess q spec (rowAt i v s) (rowAt i w t) =
      ((o.directed (valueCompare q spec v w)).then
        (stringCompare q .caseSensitive s t) == .lt) := by
  have hrow := @columnsCompare_rowAt q spec o v w s t i 0 spec.orders ho
  rw [Nat.zero_add] at hrow
  rw [sortLess_iff, rowCompare, hrow]
  rfl

/-- A value that comes before another one. -/
theorem sortLess_of_value (ho : spec.orders[i]? = some o)
    (h : o.directed (valueCompare q spec v w) = .lt) :
    sortLess q spec (rowAt i v s) (rowAt i w t) = true := by
  rw [sortLess_rowAt ho, h]
  rfl

/-- Two dates, and a time that is compared with neither. -/
theorem types_cycle (ho : spec.orders[0]? = some o) :
    ¬ StrictWeakOn (fun _ => True) (sortLess q spec) := by
  intro h
  have hunordered : ∀ d : Int, ∀ s t : Units, stringCompare q .caseSensitive s t = .lt →
      sortLess q spec (rowAt 0 (.date (some d)) s) (rowAt 0 (.time none) t) = true ∧
        sortLess q spec (rowAt 0 (.time none) s) (rowAt 0 (.date (some d)) t) = true := by
    intro d s t hst
    rw [sortLess_rowAt ho, sortLess_rowAt ho, hst]
    cases o <;> exact ⟨rfl, rfl⟩
  have hdates : ∃ d e : Int, sortLess q spec (rowAt 0 (.date (some d)) [0x33])
      (rowAt 0 (.date (some e)) [0x31]) = true := by
    cases o
    · exact ⟨1, 2, sortLess_of_value ho rfl⟩
    · exact ⟨2, 1, sortLess_of_value ho rfl⟩
  obtain ⟨d, e, hde⟩ := hdates
  exact h.no_cycle trivial trivial trivial hde (hunordered e [0x31] [0x32] rfl).1
    (hunordered d [0x32] [0x33] rfl).2

/-- An Arabic digit is less than a longer number, which is less than a letter, which is less than
the digit. -/
theorem text_cycle (hq : q.Documented) (hl : spec.locale = false) (hn : spec.numeric = true) :
    (textCompare q spec [0x663] [0x31, 0x32] = .lt ∧ textCompare q spec [0x31, 0x32] [0x61] = .lt ∧
      textCompare q spec [0x61] [0x663] = .lt) ∧
    textCompare q spec [0x31, 0x32] [0x663] = .gt ∧ textCompare q spec [0x61] [0x31, 0x32] = .gt ∧
      textCompare q spec [0x663] [0x61] = .gt := by
  have hone : charKey q spec.case_ 0x31 = 0x31 := charKey_digit hq rfl
  have harabic : charKey q spec.case_ 0x663 = 0x663 := charKey_digit hq (by decide)
  have ha : charKey q spec.case_ 0x61 = 0x61 := by
    cases spec.case_
    · exact (hq.fold_ascii 0x61 (by decide)).trans (if_neg (by decide))
    · rfl
  have hletter : isDigit 0x61 = false := by decide
  unfold textCompare
  rw [hl, hn]
  refine ⟨⟨rfl, ?_, ?_⟩, rfl, ?_, ?_⟩
  all_goals
    rw [length_cons, naturalCompare, hletter, if_neg (by simp), stringCompare_singleton, ha]
    first
    | rw [hone]; rfl
    | rw [harabic]; rfl

/-- The texts of the cycle in a column of their own. -/
theorem texts_cycle (hq : q.Documented) {dom : SortRow → Prop} (hl : spec.locale = false)
    (hn : spec.numeric = true) (ho : spec.orders[i]? = some o)
    (hdom : ∀ s, dom (rowAt i (.text s) [])) : ¬ StrictWeakOn dom (sortLess q spec) := by
  intro h
  obtain ⟨⟨h₁, h₂, h₃⟩, h₄, h₅, h₆⟩ := text_cycle hq hl hn
  cases o with
  | ascendingOrder =>
    exact h.no_cycle (hdom _) (hdom _) (hdom _) (sortLess_of_value ho h₁)
      (sortLess_of_value ho h₂) (sortLess_of_value ho h₃)
  | descendingOrder =>
    exact h.no_cycle (hdom _) (hdom _) (hdom _) (sortLess_of_value ho (congrArg Ordering.swap h₄))
      (sortLess_of_value ho (congrArg Ordering.swap h₆))
      (sortLess_of_value ho (congrArg Ordering.swap h₅))

/-! ## The order -/

/-- Each column of the row has values of its type, the texts among them in `dom`. -/
def SortRow.Typed (types : Nat → FieldType) (dom : Units → Prop) (r : SortRow) : Prop :=
  ∀ i, ∀ p ∈ (r.value i).value?, p.Is dom (types i)

theorem sortLess_typed {types : Nat → FieldType} {dom : Units → Prop}
    (h : ∀ i < spec.orders.length, types i = .text → LawfulOn dom (textCompare q spec)) :
    StrictWeakOn (SortRow.Typed types dom) (sortLess q spec) :=
  (sortLess_lawful fun i hi => valueCompare_lawful (h i hi)).mono fun _ hr i _ => hr i

/-- `SortLess` is a strict weak order on all rows if and only if no column is sorted by. On rows
whose columns have one type each, it is one if and only if no text is compared by the natural order
without a locale; and in any case if the digits of the texts are ASCII digits. -/
theorem sortLess_strictWeak_iff (q : Library) (hq : q.Documented) (spec : SortSpec) :
    (StrictWeakOn (fun _ => True) (sortLess q spec) ↔ spec.orders = []) ∧
    (∀ types, StrictWeakOn (SortRow.Typed types fun _ => True) (sortLess q spec) ↔
      (spec.locale = false → spec.numeric = true →
        ∀ i < spec.orders.length, types i ≠ .text)) ∧
    ∀ types, StrictWeakOn (SortRow.Typed types AsciiDigits) (sortLess q spec) := by
  refine ⟨⟨fun h => ?_, fun h => ?_⟩, fun types => ⟨fun h hl hn i hi htype => ?_, fun h => ?_⟩,
    fun types => sortLess_typed fun _ _ _ => textCompare_lawful hq fun _ _ _ hs => hs⟩
  · rcases ho : spec.orders with - | ⟨o, orders⟩
    · rfl
    · exact absurd h (types_cycle (o := o) (by rw [ho]; rfl))
  · have hnone : ∀ i < spec.orders.length, LawfulOn (fun _ => True) (valueCompare q spec) :=
      fun i hi => by
        rw [h] at hi
        exact absurd hi (Nat.not_lt_zero _)
    exact (sortLess_lawful hnone).mono fun _ _ _ _ _ _ => trivial
  · refine texts_cycle hq hl hn (getElem?_eq_getElem hi) (fun s j p hp => ?_) h
    rw [value_rowAt] at hp
    split at hp
    · rename_i hj
      cases hp
      exact ⟨by rw [hj, htype]; rfl, fun _ _ => trivial⟩
    · cases hp
  · refine sortLess_typed fun i hi htype => textCompare_lawful hq fun hl hn => ?_
    exact absurd htype (h hl hn i hi)

/-- A library with the case folding of ASCII. -/
def asciiLibrary : Library where
  foldCase c := if 0x41 ≤ c ∧ c ≤ 0x5a then c + 0x20 else c
  collate _ _ := compare
  compareNumeric _ _ := none

theorem asciiLibrary_documented : asciiLibrary.Documented where
  collate _ _ := inferInstanceAs (Std.TransCmp (compare : Units → Units → Ordering))
  fold_ascii _ _ := rfl
  fold_digit c h := by
    refine if_neg fun hc => ?_
    have hall : ∀ n : Fin 26, isDigit (UInt16.ofNat (0x41 + n.1)) = false := by decide
    have hn := hall ⟨c.toNat - 0x41, by omega⟩
    rw [show 0x41 + (c.toNat - 0x41) = c.toNat by omega, UInt16.ofNat_toNat, h] at hn
    cases hn
  fold_other c h := by
    show ¬ IsAsciiDigit (if _ then _ else _)
    split
    · intro hd
      have hle : c.toNat + 0x20 ≤ 0x39 := hd.2
      omega
    · intro hd
      rw [isDigit_of_ascii hd] at h
      cases h

/-- By size and by name, the name with its numbers. -/
theorem sortLess_strictWeak_iff_ascii :
    asciiLibrary.Documented ∧
      StrictWeakOn (SortRow.Typed (fun i => if i = 0 then .unsignedInteger else .text) AsciiDigits)
        (sortLess asciiLibrary
          ⟨[.descendingOrder, .ascendingOrder], false, true, .caseInsensitive⟩) :=
  ⟨asciiLibrary_documented,
    (sortLess_strictWeak_iff asciiLibrary asciiLibrary_documented _).2.2 _⟩

/-- Three names of which each is less than the next one. -/
theorem names_cycle :
    let less := sortLess asciiLibrary ⟨[.ascendingOrder], false, true, .caseInsensitive⟩
    less (rowAt 0 (.text [0x663]) [0x663]) (rowAt 0 (.text [0x31, 0x32]) [0x31, 0x32]) = true ∧
      less (rowAt 0 (.text [0x31, 0x32]) [0x31, 0x32]) (rowAt 0 (.text [0x61]) [0x61]) = true ∧
      less (rowAt 0 (.text [0x61]) [0x61]) (rowAt 0 (.text [0x663]) [0x663]) = true ∧
      ¬ StrictWeakOn (fun _ => True) less := by
  refine ⟨by decide, by decide, by decide, fun h => ?_⟩
  exact h.no_cycle (a := rowAt 0 (.text [0x663]) [0x663])
    (b := rowAt 0 (.text [0x31, 0x32]) [0x31, 0x32]) (c := rowAt 0 (.text [0x61]) [0x61])
    trivial trivial trivial (by decide) (by decide) (by decide)

end Hc.Columns
