import HyperCommander.Columns.FieldCondition
import HyperCommander.Text.FileNameGlob

/-!
# File colour rules (`UniqueLibs/settings/fileColorRules.hpp`)

Compiled rules, and the evaluation of one file with and without a cache for its extension. The pure
facts that an evaluation keeps in locals (normal form, direction, lower-case extension) are computed
in place. A list of font effects stands for the bit mask of its keys.
-/

namespace Hc.Settings

open Unicode Columns Text

/-- A text of the source. -/
def text (s : String) : Units := s.toList.flatMap units

/-- A value of a font effect. -/
inductive FontValue
  | flag (value : Bool)
  | name (value : Units)
deriving DecidableEq

/-- A colour; `none` is the invalid one. -/
abbrev Color := Option UInt32

/-- What Qt supplies beyond conditions over fields. -/
structure Qt extends Engine where
  casing : Casing
  toLower : Units → Units
  /-- `normalized(NormalizationForm_C)`. -/
  normalizedC : Units → Units
  /-- The direction of a code point is one of `R`, `AL`, `RLE`, `RLO` and `RLI`. -/
  rightToLeft : Nat → Bool
  /-- `QColor::name(HexArgb)`. -/
  colorName : Color → Units

/-! ### Compiled rules -/

/-- `Field`. -/
inductive Field
  | extension
  | pattern
  | folder
  | normalization
  | attributes
  | size
  | modified
  | link
  | rtl
  | fieldValue
deriving DecidableEq

/-- `Operator`. -/
inductive Operator
  | isIn
  | notIn
  | matchesOp
  | notMatches
  | contains
  | notContains
  | is
  | any
  | all
  | gt
  | ge
  | lt
  | le
  | eq
  | ne
  | before
  | after
  | within
deriving DecidableEq

/-- `SyntaxKind`. -/
inductive SyntaxKind
  | literalSyntax
  | globSyntax
  | regexSyntax
deriving DecidableEq

/-- `Condition`. A glob that did not compile is `none`; a regular expression is its pattern. -/
structure Condition where
  type : Field
  op : Operator
  syntaxKind : SyntaxKind := .literalSyntax
  value : Units := []
  extensions : List Units := []
  globs : List (Option FileNameGlob) := []
  regex : Units := []
  number : UInt64 := 0
  date : Int64 := 0
  cacheIndex : Option Nat := none
  negate : Bool := false
  field : FieldCondition
  slot : Nat := 0
  cost : Nat := 0

/-- `Group`. The colours are those of the light and of the dark scheme. -/
structure Group where
  label : Units
  all : Bool
  conditions : List Condition
  foreground : Bool → Color
  background : Bool → Color
  font : List (String × FontValue)

/-- The keys that a group has effects for. -/
def Group.fontKeys (g : Group) : List String := g.font.map Prod.fst

/-- `FileRuleInput`. -/
structure FileRuleInput where
  name : Units
  attributes : UInt32 := 0
  size : UInt64 := 0
  dark : Bool := false
  modifiedUtcMs : Option Int64 := none
  reparseTag : Option UInt32 := none
  referenceUtcMs : Int64
  fields : List CellValue := []

/-- `FileRuleResult`. The owners stand in the order in which they were found. -/
structure FileRuleResult where
  matched : Bool := false
  pending : Bool := false
  neededSlots : UInt64 := 0
  error : Units := []
  foreground : Color := none
  background : Color := none
  marker : Color := none
  font : List (String × FontValue) := []
  groups : List Units := []
  owners : List (String × Units) := []
  validUntilUtcMs : Option Int64 := none
deriving DecidableEq

/-- What one condition gives; `failed` is the value 2. -/
inductive Hit
  | no
  | yes
  | failed
deriving DecidableEq

def Hit.of (hit : Bool) : Hit := if hit then .yes else .no

/-- `CachedExtension`. A condition that is not there yet is `none`. -/
structure CachedExtension where
  conditions : List (Option Hit)
  groups : List Nat := []
  complete : Bool := false
deriving DecidableEq

/-- A condition on the time of modification that moves with the reference time. -/
def Condition.relativeDate (c : Condition) : Bool := c.type == .modified && c.op == .within

/-- `FileColorRules` after `Load`: the flag of the relative dates is that of its groups, and the
conditions on the time of modification have an operator that `Validate` accepts. -/
structure FileColorRules where
  groups : List Group := []
  merge : Bool := false
  relativeDates : Bool := false
  needsExtension : Bool := false
  extensionOnly : Bool := true
  cacheConditions : Nat := 0
  pendingBackground : Bool → Color := fun _ => none
  pendingMarker : Bool → Color := fun _ => none
  revision : Nat := 0
  relative_of_mem : ∀ g ∈ groups, ∀ c ∈ g.conditions, c.relativeDate = true → relativeDates = true
  modified_op : ∀ g ∈ groups, ∀ c ∈ g.conditions, c.type = .modified →
    c.op = .before ∨ c.op = .after ∨ c.op = .within

/-! ### Conditions -/

/-- `Suffix`. -/
def suffix (name : Units) : Units :=
  if name.contains 0x2e then
    let tail := (name.reverse.takeWhile (· != 0x2e)).reverse
    if tail.contains 0x2f || tail.contains 0x5c then [] else tail
  else []

/-- `HasDecomposedName`. -/
def hasDecomposedName (qt : Qt) (name : Units) : Bool := name != qt.normalizedC name

/-- `HasRtlName`. -/
def hasRtlName (qt : Qt) (name : Units) : Bool := (points name).any qt.rightToLeft

/-- `textHit`. -/
def textHit (qt : Qt) (c : Condition) (subject : Units) : Hit :=
  match c.syntaxKind with
  | .globSyntax =>
    let hit := c.globs.any fun glob => glob.any fun g => g.matches qt.casing subject
    .of (hit != c.negate)
  | .regexSyntax => match qt.matchPattern c.regex subject with
    | none => .failed
    | some hit => .of (hit != c.negate)
  | .literalSyntax => .of (qt.containsFolded subject c.value != c.negate)

/-- The test of a size. -/
def sizeHit (op : Operator) (size number : UInt64) : Bool :=
  match op with
  | .gt => size > number
  | .ge => size ≥ number
  | .lt => size < number
  | .le => size ≤ number
  | .eq => size == number
  | _ => size != number

/-- The test of a kind of link. -/
def linkHit (qt : Qt) (value : Units) (input : FileRuleInput) (ext : Units)
    (isFolder : Bool) : Bool :=
  let shortcut := !isFolder && (qt.equalFolded ext (text "lnk") || qt.equalFolded ext (text "url"))
  let reparse := input.attributes &&& 0x400 != 0
  let known := !reparse || input.reparseTag.getD 0 != 0
  let symbolic := reparse &&
    (input.reparseTag == some 0xa000000c || input.reparseTag == some 0xa0000003)
  if value = text "shortcut" then shortcut
  else if value = text "symbolic" then symbolic
  else if value = text "any" then shortcut || symbolic
  else known && !shortcut && !symbolic

/-- `conditionHit`. -/
def conditionHit (qt : Qt) (c : Condition) (input : FileRuleInput) (ext : Units)
    (isFolder : Bool) : Hit :=
  match c.type with
  | .extension =>
    if isFolder then .no
    else if c.syntaxKind = .literalSyntax then
      let listed := if ext = [] then text "<none>" else qt.toLower ext
      .of (c.extensions.contains listed != c.negate)
    else textHit qt c ext
  | .pattern => textHit qt c input.name
  | .folder => .of (isFolder == (c.value == text "true"))
  | .rtl => .of (hasRtlName qt input.name != c.negate)
  | .normalization => .of (hasDecomposedName qt input.name == (c.value == text "decomposed"))
  | .attributes =>
    let found := input.attributes.toUInt64 &&& c.number
    .of (if c.op = .any then found != 0 else found == c.number)
  | .size => if isFolder then .no else .of (sizeHit c.op input.size c.number)
  | .modified => match input.modifiedUtcMs with
    | none => .no
    | some modified =>
      if c.op = .before then .of (modified < c.date)
      else if c.op = .after then .of (modified > c.date)
      else .of (within modified input.referenceUtcMs c.number)
  | .link => .of (linkHit qt c.value input ext isFolder)
  | .fieldValue => .no

/-! ### Deadlines -/

/-- When the test of a relative date changes next, or last did. -/
def change (modified reference : Int64) (number : UInt64) : Option Int64 :=
  if modified > reference then some modified
  else if number < Int64.maxValue.toUInt64 - modified.toUInt64 then
    some (modified.toUInt64 + number + 1).toInt64
  else none

/-- The earlier of two deadlines, when the second is one. -/
def earlier (reference : Int64) (until_ changed : Option Int64) : Option Int64 :=
  match changed with
  | none => until_
  | some v =>
    if v > reference && until_.all fun u => v < u then some v else until_

/-- The loop of `evaluate` over the relative dates. -/
def deadline (rules : FileColorRules) (input : FileRuleInput) : Option Int64 :=
  match input.modifiedUtcMs with
  | none => none
  | some modified =>
    if rules.relativeDates then
      (rules.groups.flatMap Group.conditions).foldl (fun until_ c =>
        if c.relativeDate then
          earlier input.referenceUtcMs until_ (change modified input.referenceUtcMs c.number)
        else until_) none
    else none

/-! ### Groups -/

/-- The locals of the loop over the conditions of a group. -/
structure Scan where
  hit : Bool
  failed : Bool := false
  decided : Bool := false
  waiting : UInt64 := 0
  waitingCost : Nat := 127
  cached : Option CachedExtension

/-- What the value of a condition does to a group. -/
def Scan.settle (s : Scan) (all : Bool) (value : Hit) : Scan :=
  match value with
  | .failed => { s with failed := true }
  | .no => if all then { s with hit := false, failed := false, decided := true } else s
  | .yes => if all then s else { s with hit := true, failed := false, decided := true }

/-- A field whose value is not known yet. -/
def Scan.wait (s : Scan) (cost slot : Nat) : Scan :=
  let s := if cost < s.waitingCost then { s with waitingCost := cost, waiting := 0 } else s
  if cost = s.waitingCost then { s with waiting := s.waiting ||| (1 <<< slot.toUInt64) } else s

/-- The value of a condition that is not one over a field, looked up in the cache first. -/
def hitOf (qt : Qt) (input : FileRuleInput) (ext : Units) (isFolder : Bool) (c : Condition)
    (cached : Option CachedExtension) : Hit × Option CachedExtension :=
  match cached, c.cacheIndex with
  | some entry, some index => match entry.conditions.getD index none with
    | some hit => (hit, cached)
    | none =>
      let hit := conditionHit qt c input ext isFolder
      (hit, some { entry with conditions := entry.conditions.set index (some hit) })
  | _, _ => (conditionHit qt c input ext isFolder, cached)

/-- One condition. -/
def Scan.step (qt : Qt) (all : Bool) (input : FileRuleInput) (ext : Units) (isFolder : Bool)
    (s : Scan) (c : Condition) : Scan :=
  if c.type = .fieldValue then
    match c.field.evaluate qt.toEngine (input.fields.getD c.slot (.missing .pending))
        input.referenceUtcMs with
    | .unknown => s.wait c.cost c.slot
    | .yes => s.settle all .yes
    | .no => s.settle all .no
  else
    let value := hitOf qt input ext isFolder c s.cached
    Scan.settle { s with cached := value.2 } all value.1

/-- The loop over the conditions of a group. -/
def Scan.run (qt : Qt) (all : Bool) (input : FileRuleInput) (ext : Units) (isFolder : Bool) :
    Scan → List Condition → Scan
  | s, [] => s
  | s, c :: rest =>
    let s := s.step qt all input ext isFolder c
    if s.decided then s else Scan.run qt all input ext isFolder s rest

/-- The message of a group whose expressions could not be evaluated. -/
def failedText (label : Units) : Units :=
  label ++ text ": 정규표현식 실행 한도를 초과했거나 평가할 수 없습니다."

/-- The locals of the loop over the groups. -/
structure Decision where
  matched : List Nat := []
  pending : Bool := false
  needed : UInt64 := 0
  error : Units := []
  cached : Option CachedExtension

/-- What the conditions of a group do to the decision, and whether the loop ends with it. -/
def Decision.after (d : Decision) (merge : Bool) (index : Nat) (label : Units) (s : Scan) :
    Decision × Bool :=
  let d := { d with cached := s.cached }
  if !s.decided && s.waiting != 0 then
    ({ d with pending := true, needed := d.needed ||| s.waiting }, !merge)
  else if s.failed then (if d.error = [] then { d with error := failedText label } else d, false)
  else if s.hit then ({ d with matched := d.matched ++ [index] }, !merge)
  else (d, false)

/-- The loop over the groups from number `index` on. -/
def decideGroups (qt : Qt) (merge : Bool) (input : FileRuleInput) (ext : Units) (isFolder : Bool) :
    Nat → List Group → Decision → Decision
  | _, [], d => d
  | index, g :: rest, d =>
    let s := Scan.run qt g.all input ext isFolder { hit := g.all, cached := d.cached } g.conditions
    let done := d.after merge index g.label s
    if done.2 then done.1 else decideGroups qt merge input ext isFolder (index + 1) rest done.1

/-! ### Styles -/

/-- One matched group: the first valid colours and the first owners of effects win. -/
def addStyle (dark diagnostics : Bool) (r : FileRuleResult) (g : Group) : FileRuleResult :=
  let r := if diagnostics then { r with groups := r.groups ++ [g.label] } else r
  let r :=
    if r.foreground.isNone && (g.foreground dark).isSome then
      { r with
        foreground := g.foreground dark
        owners := if diagnostics then r.owners ++ [("foreground", g.label)] else r.owners }
    else r
  if r.background.isNone && (g.background dark).isSome then
    { r with
      background := g.background dark
      owners := if diagnostics then r.owners ++ [("background", g.label)] else r.owners }
  else r

/-- The effects of one matched group; `fontOwners` are the keys that have an owner already. -/
def addFont (diagnostics : Bool) (r : FileRuleResult) (fontOwners : List String) (g : Group) :
    FileRuleResult :=
  let fresh := g.font.filter fun effect => !fontOwners.contains effect.1
  if fresh = [] then r
  else
    { r with
      font := if fontOwners = [] then g.font else r.font ++ fresh
      owners := if diagnostics then r.owners ++ fresh.map fun effect => (effect.1, g.label)
        else r.owners }

/-- The loop over the matched groups. -/
def styleOf (dark diagnostics : Bool) (groups : List Group) :
    List String → List Nat → FileRuleResult →
    FileRuleResult
  | _, [], r => r
  | fontOwners, index :: rest, r =>
    match groups[index]? with
    | none => r
    | some g =>
      let r := addFont diagnostics (addStyle dark diagnostics r g) fontOwners g
      styleOf dark diagnostics groups (fontOwners ++ g.fontKeys) rest r

/-- The end of `evaluate`, from what the groups gave. -/
def finish (qt : Qt) (rules : FileColorRules) (dark diagnostics style : Bool)
    (until_ : Option Int64) (d : Decision) : FileRuleResult :=
  let r : FileRuleResult := { validUntilUtcMs := until_, error := d.error }
  if d.pending then
    let r := { r with pending := true, neededSlots := d.needed }
    if style then
      { r with
        background := rules.pendingBackground dark
        marker := rules.pendingMarker dark
        font := [("pendingMarker", .name (qt.colorName (rules.pendingMarker dark)))] }
    else r
  else
    let r := { r with matched := !d.matched.isEmpty }
    if !style && !diagnostics then r
    else styleOf dark diagnostics rules.groups [] d.matched r

/-- The groups, unless the cache already has the answer for the extension; what the cache holds
after it. -/
def decideCached (qt : Qt) (rules : FileColorRules) (input : FileRuleInput)
    (cached : Option CachedExtension) : Decision :=
  let isFolder := input.attributes &&& 0x10 != 0
  let ext := if rules.needsExtension then suffix input.name else []
  match cached with
  | none => decideGroups qt rules.merge input ext isFolder 0 rules.groups { cached := none }
  | some entry =>
    if rules.extensionOnly && entry.complete then { matched := entry.groups, cached }
    else
      let d := decideGroups qt rules.merge input ext isFolder 0 rules.groups { cached }
      if rules.extensionOnly && d.error.isEmpty then
        { d with cached := d.cached.map fun e => { e with groups := d.matched, complete := true } }
      else d

/-- `evaluate` with the entry of the cache for the extension of the input, if there is one. -/
def evaluateWith (qt : Qt) (rules : FileColorRules) (input : FileRuleInput)
    (cached : Option CachedExtension) (diagnostics style : Bool) :
    FileRuleResult × Option CachedExtension :=
  if input.name = text ".." || rules.groups.isEmpty then ({}, cached)
  else
    let d := decideCached qt rules input cached
    (finish qt rules input.dark diagnostics style (deadline rules input) d, d.cached)

/-- `evaluate` without a context. -/
def evaluate (qt : Qt) (rules : FileColorRules) (input : FileRuleInput) (diagnostics style : Bool) :
    FileRuleResult :=
  (evaluateWith qt rules input none diagnostics style).1

end Hc.Settings
