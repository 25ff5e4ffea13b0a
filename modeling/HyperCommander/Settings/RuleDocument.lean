import HyperCommander.Lib.Outcome
import HyperCommander.Settings.FileColorRules
import Mathlib.Data.List.Sort

/-!
# Documents of colour rules (`UniqueLibs/settings/fileColorRules.hpp`)

`Load` compiles a document. It takes a new revision unless the document differs from the last one
only in names and colours. What `Validate` accepts, the tables of columns, dates, numbers and
colours are parameters.

* `Json.beq_iff`: documents are compared as values.
* `Json.get_without`, `Json.get_set`: the fields that a document keeps when others are taken out or
  set.
-/

namespace Hc.Settings

open Unicode Columns Text Outcome

/-! ### JSON -/

/-- `QJsonValue`. Objects are equal when they have the same fields in the same order; those of a
document that was read are sorted. -/
inductive Json
  | undefined
  | null
  | bool (value : Bool)
  | double (value : Rat)
  | string (value : Units)
  | array (values : List Json)
  | object (fields : List (Units × Json))

namespace Json

mutual

/-- `operator==`. -/
def beq : Json → Json → Bool
  | undefined, undefined => true
  | null, null => true
  | bool a, bool b => a == b
  | double a, double b => a == b
  | string a, string b => a == b
  | array as, array bs => beqValues as bs
  | object as, object bs => beqFields as bs
  | _, _ => false

def beqValues : List Json → List Json → Bool
  | [], [] => true
  | a :: as, b :: bs => a.beq b && beqValues as bs
  | _, _ => false

def beqFields : List (Units × Json) → List (Units × Json) → Bool
  | [], [] => true
  | (k, a) :: as, (l, b) :: bs => k == l && (a.beq b && beqFields as bs)
  | _, _ => false

end

mutual

theorem beq_iff (a b : Json) : a.beq b = true ↔ a = b := by
  cases a <;> cases b <;> simp [beq, beqValues_iff, beqFields_iff]

theorem beqValues_iff (as bs : List Json) : beqValues as bs = true ↔ as = bs := by
  cases as with
  | nil => cases bs <;> simp [beqValues]
  | cons a as =>
    cases bs with
    | nil => simp [beqValues]
    | cons b bs => simp [beqValues, beq_iff a b, beqValues_iff as bs]

theorem beqFields_iff (as bs : List (Units × Json)) : beqFields as bs = true ↔ as = bs := by
  cases as with
  | nil => cases bs <;> simp [beqFields]
  | cons a as =>
    obtain ⟨k, a⟩ := a
    cases bs with
    | nil => simp [beqFields]
    | cons b bs =>
      obtain ⟨l, b⟩ := b
      simp [beqFields, beq_iff a b, beqFields_iff as bs, and_assoc]

end

/-- `toObject()`, as its fields. -/
def fields : Json → List (Units × Json)
  | object fs => fs
  | _ => []

/-- `toObject()[key]`. -/
def get (j : Json) (key : String) : Json :=
  ((j.fields.find? fun f => f.1 = text key).map Prod.snd).getD undefined

/-- `toObject().contains(key)`. -/
def contains (j : Json) (key : String) : Bool := j.fields.any fun f => f.1 = text key

/-- `toObject()` without some keys. -/
def without (j : Json) (keys : List String) : Json :=
  object (j.fields.filter fun f => !keys.any fun key => f.1 = text key)

/-- `toObject()` with one value set; the field is put in front. -/
def set (j : Json) (key : String) (value : Json) : Json :=
  object ((text key, value) :: j.fields.filter fun f => f.1 ≠ text key)

def toArray : Json → List Json
  | array values => values
  | _ => []

def toText : Json → Units
  | string value => value
  | _ => []

/-- `toBool(Default)`. -/
def toBool (default : Bool) : Json → Bool
  | bool value => value
  | _ => default

/-- `toInt()`. -/
def toInt : Json → Int
  | double value => if value.den = 1 then value.num else 0
  | _ => 0

theorem get_without {j : Json} {keys : List String} {key : String}
    (h : ∀ k ∈ keys, text key ≠ text k) : (j.without keys).get key = j.get key := by
  have hkey : (fun f : Units × Json =>
      Decidable.decide ((!keys.any fun k => Decidable.decide (f.1 = text k)) = true ∧
        Decidable.decide (f.1 = text key) = true)) =
        fun f => Decidable.decide (f.1 = text key) := by
    funext f
    by_cases hf : f.1 = text key
    · simpa [hf] using h
    · simp [hf]
  rw [get, without, fields, List.find?_filter, hkey]
  rfl

theorem get_set_self (j : Json) (key : String) (value : Json) :
    (j.set key value).get key = value := by
  rw [get, set, fields, List.find?_cons_of_pos (by simp)]
  rfl

theorem get_set {j : Json} {key other : String} {value : Json} (h : text other ≠ text key) :
    (j.set key value).get other = j.get other := by
  have hkey : (fun f : Units × Json =>
      Decidable.decide ((Decidable.decide (f.1 ≠ text key)) = true ∧
        Decidable.decide (f.1 = text other) = true)) =
        fun f => Decidable.decide (f.1 = text other) := by
    funext f
    by_cases hf : f.1 = text other
    · simpa [hf] using h
    · simp [hf]
  rw [get, set, fields, List.find?_cons_of_neg (by simpa using Ne.symm h), List.find?_filter, hkey]
  rfl

end Json

/-! ### What `Load` is given -/

/-- What `Load` asks of Qt, of the tables of columns, and of `Validate`. -/
structure Loader extends Qt where
  /-- `Validate`: an error text, or an empty one. -/
  validate : Json → (compilePatterns : Bool) → Units
  /-- `CompileFieldCondition` of a condition that was accepted. -/
  compileField : Json → FieldCondition
  /-- The cost of the values of a field. -/
  costOf : Units → Nat
  isValidRegex : Units → Bool
  /-- `toLower().split([,;|\s]+, SkipEmptyParts)`. -/
  splitExtensions : Units → List Units
  /-- `number`, `utcDate`. -/
  number : Json → Option UInt64
  utcDate : Units → Option Int64
  /-- `PendingColor`, and the colours of `Colors`. -/
  pendingColor : Json → (dark : Bool) → (role : String) → Color
  color : Json → (dark : Bool) → (key : String) → Color
  /-- `DefaultValue("fileColorGroup/enabled")`. -/
  enabledDefault : Bool

/-- `fontKeys`. -/
def fontKeys : List String := ["bold", "italic", "underline", "strike", "dim", "border"]

/-- The effects that a result carries. -/
def fontOf (group : Json) : List (String × FontValue) :=
  (fontKeys.filter (group.get "font").contains).map fun key =>
    match (group.get "font").get key with
    | .bool value => (key, .flag value)
    | value => (key, .name value.toText)

/-- `typeNames().indexOf`. -/
def fieldOf (name : Units) : Option Field :=
  ([("extension", .extension), ("pattern", .pattern), ("folder", .folder),
    ("normalization", .normalization), ("attributes", .attributes), ("size", .size),
    ("modified", .modified), ("link", .link), ("rtl", .rtl), ("field", .fieldValue)].find?
      fun entry => text entry.1 = name).map Prod.snd

/-- `opNames().indexOf`. -/
def operatorOf (name : Units) : Option Operator :=
  ([("in", .isIn), ("notIn", .notIn), ("matches", .matchesOp), ("notMatches", .notMatches),
    ("contains", .contains), ("notContains", .notContains), ("is", .is), ("any", .any),
      ("all", .all),
    ("gt", .gt), ("ge", .ge), ("lt", .lt), ("le", .le), ("eq", .eq), ("ne", .ne),
      ("before", .before),
    ("after", .after), ("within", .within)].find? fun entry => text entry.1 = name).map Prod.snd

/-- `NormalizeCondition`. -/
def normalizeCondition (c : Json) (version : Int) : Json :=
  if version ≠ 1 then c
  else
    let type := (c.get "type").toText
    if type = text "extension" then c.set "op" (.string (text "in"))
    else if type = text "pattern" then
      (c.set "op" (.string (text "matches"))).set "value" (.array [c.get "value"])
    else if type = text "folder" then c.set "op" (.string (text "is"))
    else if type = text "attributes" then c.set "op" (.string (text "all"))
    else if type = text "sizeMore" ∨ type = text "sizeLess" ∨ type = text "sizeEqual" then
      let op := if type = text "sizeMore" then "gt"
        else if type = text "sizeLess" then "lt" else "eq"
      ((c.set "type" (.string (text "size"))).set "unit" (.string (text "B"))).set "op"
        (.string (text op))
    else c

/-- `Syntax`. -/
def syntaxOf (c : Json) (version : Int) : Units :=
  if 3 ≤ version ∧ c.contains "syntax" then (c.get "syntax").toText
  else if (c.get "type").toText = text "pattern" then text "wildcard"
  else text "literal"

/-- `Extensions`. -/
def extensionsOf (q : Loader) (input : Units) : List Units :=
  (q.splitExtensions input).foldl (fun result part =>
    let part := if part.head? = some 0x2e then part.tail else part
    if result.contains part then result else result ++ [part]) []

/-! ### Conditions -/

/-- The members of the rules that grow while conditions are compiled. -/
structure Slots where
  fields : List Units := []
  cacheConditions : Nat := 0

/-- The message for a type or a built-in operator that `Validate` does not accept. -/
def unknownCondition : Units := text "알 수 없는 조건 종류 또는 비교 방법입니다."

/-- The message of a pattern that does not compile. -/
def patternError (label : Units) (position : Nat) (message : String) : Units :=
  label ++ text " · 조건 " ++ text (toString position) ++ text ": " ++ text message

/-- The globs of a condition. Documents before version 3 keep malformed ones, which match
nothing. -/
def compileGlobs (q : Loader) (strict : Bool) (label : Units) (position : Nat) :
    List Json → Except Units (List (Option FileNameGlob))
  | [] => .ok []
  | pattern :: patterns =>
    match compile q.casing pattern.toText with
    | .ok glob => (compileGlobs q strict label position patterns).map (some glob :: ·)
    | .error message =>
      if strict then .error (patternError label position message)
      else (compileGlobs q strict label position patterns).map (none :: ·)

/-- `syntax_` of a condition. -/
def syntaxKindOf (c : Json) (version : Int) : SyntaxKind :=
  let mode := syntaxOf c version
  if mode = text "regex" then .regexSyntax
  else if mode = text "wildcard" then .globSyntax
  else .literalSyntax

/-- The conditions whose value is a text of some syntax. -/
def ofText (type : Field) : Bool := type == .extension || type == .pattern

/-- `globs_` of a condition. -/
def globsOf (q : Loader) (version : Int) (label : Units) (position : Nat)
    (type : Field) (c : Json) :
    Except Units (List (Option FileNameGlob)) :=
  if ofText type ∧ syntaxKindOf c version = .globSyntax then
    compileGlobs q (Decidable.decide (3 ≤ version) && c.contains "syntax") label position
      (c.get "value").toArray
  else .ok []

/-- `op_` of a condition. For an operator that only column conditions have, the source stores
`Operator(-1)`; `op_` of a column condition is never read. -/
def opOf (o : Json) : Option Operator :=
  let op := operatorOf (o.get "op").toText
  if fieldOf (o.get "type").toText = some .fieldValue then some (op.getD .isIn) else op

/-- One condition of a group. -/
def compileCondition (q : Loader) (document : Json) (version : Int) (label : Units) (position : Nat)
    (slots : Slots) (condition : Json) : Except Units (Condition × Slots) :=
  let o := normalizeCondition condition version
  match fieldOf (o.get "type").toText, opOf o with
  | some type, some op =>
    let value := (o.get "value").toText
    let syntaxKind := syntaxKindOf o version
    let negate := op == .notIn || op == .notMatches || op == .notContains
    let item : Condition :=
      { type, op, syntaxKind, value, negate,
        field := { field := [], type := .text, op := .exists_ } }
    if type = .fieldValue then
      let item := { item with field := q.compileField o }
      let known := slots.fields.idxOf? item.field.field
      let slot := known.getD slots.fields.length
      let fields := if known.isSome then slots.fields else slots.fields ++ [item.field.field]
      .ok ({ item with slot, cost := q.costOf item.field.field }, { slots with fields })
    else do
      let globs ← globsOf q version label position type o
      failIf (ofText type ∧ syntaxKind = .regexSyntax ∧ q.isValidRegex value = false)
        (q.validate document true)
      let item := { item with
        globs
        regex := if ofText type ∧ syntaxKind = .regexSyntax then value else []
        extensions :=
          if type = .extension ∧ syntaxKind = .literalSyntax then extensionsOf q value else []
        number := (q.number o).getD 0
        date := (q.utcDate value).getD 0 }
      .ok (
        if type = .extension then
          ({ item with cacheIndex := some slots.cacheConditions },
            { slots with cacheConditions := slots.cacheConditions + 1 })
        else (item, slots))
  | _, _ => .error unknownCondition

/-- The conditions of a group, in the order of the document. -/
def compileConditions (q : Loader) (document : Json) (version : Int) (label : Units) :
    (position : Nat) → Slots → List Json → Except Units (List Condition × Slots)
  | _, slots, [] => .ok ([], slots)
  | position, slots, c :: rest => do
    let (item, slots) ← compileCondition q document version label position slots c
    let (items, slots) ← compileConditions q document version label (position + 1) slots rest
    return (item :: items, slots)

/-! ### Groups -/

/-- One enabled group. Cheaper conditions come first. -/
def compileGroup (q : Loader) (document : Json) (version : Int) (slots : Slots) (object : Json) :
    Except Units (Group × Slots) := do
  let label := (object.get "name").toText
  let (conditions, slots) ←
    compileConditions q document version label 1 slots (object.get "conditions").toArray
  return ({
    label
    all := (object.get "join").toText = text "all"
    conditions := conditions.insertionSort fun a b => a.cost ≤ b.cost
    foreground := fun dark => q.color object dark "foreground"
    background := fun dark => q.color object dark "background"
    font := fontOf object }, slots)

/-- The enabled groups. A disabled one only has to be valid. -/
def compileGroups (q : Loader) (document : Json) (version : Int) :
    Slots → List Json → Except Units (List Group × Slots)
  | slots, [] => .ok ([], slots)
  | slots, object :: rest =>
    if (object.get "enabled").toBool q.enabledDefault then do
      let (group, slots) ← compileGroup q document version slots object
      let (groups, slots) ← compileGroups q document version slots rest
      return (group :: groups, slots)
    else
      let failure := q.validate (document.set "groups" (.array [object])) true
      if failure ≠ [] then .error failure else compileGroups q document version slots rest

/-- The types that a cached answer for an extension covers. -/
def Condition.ofExtension (c : Condition) : Bool := c.type == .extension || c.type == .folder

/-- The rules of compiled groups; the flags are set while the conditions are read. -/
def rulesOf (q : Loader) (document : Json) (revision : Nat) (groups : List Group) (slots : Slots)
    (h : ∀ g ∈ groups, ∀ c ∈ g.conditions, c.type = .modified →
      c.op = .before ∨ c.op = .after ∨ c.op = .within) : FileColorRules where
  groups
  merge := (document.get "mode").toText = text "merge"
  relativeDates := groups.any fun g => g.conditions.any Condition.relativeDate
  needsExtension := groups.any fun g => g.conditions.any fun c =>
    c.type == .extension || c.type == .link
  extensionOnly := groups.all fun g => g.conditions.all Condition.ofExtension
  cacheConditions := slots.cacheConditions
  pendingBackground := fun dark => q.pendingColor document dark "background"
  pendingMarker := fun dark => q.pendingColor document dark "marker"
  revision
  relative_of_mem := fun g hg c hc hr => List.any_eq_true.2 ⟨g, hg, List.any_eq_true.2 ⟨c, hc, hr⟩⟩
  modified_op := h

/-- Rules without groups. -/
def emptyRules (revision : Nat) : FileColorRules where
  revision
  relative_of_mem := by simp
  modified_op := by simp

/-- The compiled rules of a document that has passed `Validate`. -/
def compileRules (q : Loader) (document : Json) (revision : Nat) : Except Units FileColorRules := do
  let version := (document.get "version").toInt
  let (groups, slots) ← compileGroups q document version {} (document.get "groups").toArray
  if h : ∀ g ∈ groups, ∀ c ∈ g.conditions, c.type = .modified →
      c.op = .before ∨ c.op = .after ∨ c.op = .within then
    return rulesOf q document revision groups slots h
  else throw unknownCondition

/-! ### `Load` -/

/-- What the conditions do not depend on. -/
def shownKeys : List String := ["name", "light", "dark", "font", "autoDark"]

/-- The document without names and colours. -/
def conditionDocument (document : Json) : Json :=
  document.set "groups" (.array ((document.get "groups").toArray.map fun g => g.without shownKeys))

/-- `FileColorRules` with what `Load` remembers; `fresh` is a revision that nobody has seen yet. -/
structure LoadedRules where
  rules : FileColorRules := emptyRules 0
  document : Json := .object []
  fresh : Nat := 1

/-- `Load`: the error text and the rules. After an error there are no groups. -/
def LoadedRules.load (q : Loader) (r : LoadedRules) (document : Json) : Units × LoadedRules :=
  let conditions := conditionDocument document
  let same := r.document.beq conditions
  let revision := if same then r.rules.revision else r.fresh
  let fresh := if same then r.fresh else r.fresh + 1
  let failure := q.validate document false
  if failure ≠ [] then (failure, { rules := emptyRules revision, document := conditions, fresh })
  else
    match compileRules q document revision with
    | .error failure => (failure, { rules := emptyRules revision, document := conditions, fresh })
    | .ok rules => ([], { rules, document := conditions, fresh })

end Hc.Settings
