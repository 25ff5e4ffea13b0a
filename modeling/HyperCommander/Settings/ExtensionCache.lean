import HyperCommander.Settings.RuleDocument

/-!
# The cache of extensions (`UniqueLibs/settings/fileColorRules.hpp`)

An `EvaluationContext` keeps, for a suffix and the kind of the entry, what extension conditions gave
and which groups matched. `QCache` deletes an object that costs more than the whole cache at once,
and `evaluate` goes on with its pointer: the model then has no result.
-/

namespace Hc.Settings

open Unicode Columns

/-- `4 * 1024 * 1024`. -/
def maxCost : Nat := 4194304

/-- `sizeof(CachedExtension)`, `sizeof(int)`, `sizeof(QChar)`. -/
def sizeofCachedExtension : Nat := 56

/-- An object of a `QCache`. -/
structure CacheNode where
  key : Units
  entry : CachedExtension
  cost : Nat
deriving DecidableEq

/-- `EvaluationContext`. The node that was used last comes first. -/
structure EvaluationContext where
  revision : Option Nat := none
  extensions : List CacheNode := []
  hits : Nat := 0
  misses : Nat := 0

/-- The nodes that stay when the oldest are dropped until the others cost at most `room`. -/
def trim (room : Nat) : List CacheNode → List CacheNode
  | [] => []
  | node :: rest => if node.cost ≤ room then node :: trim (room - node.cost) rest else []

/-- `int(x)`. -/
def toInt32 (x : Nat) : Int := (x : Int).bmod (2 ^ 32)

/-- The cost of a new entry. -/
def entryCost (rules : FileColorRules) (key : Units) : Int :=
  max 1024 (toInt32 (sizeofCachedExtension + rules.cacheConditions + rules.groups.length * 4 +
    key.length * 2))

/-- The key of an input. -/
def cacheKey (rules : FileColorRules) (input : FileRuleInput) : Units :=
  (if input.attributes &&& 0x10 != 0 then 0x44 else 0x46) ::
    if rules.needsExtension then suffix input.name else []

/-- The part of `evaluate` that finds or makes the entry, and the nodes with the entry in front;
`none` when the new entry is deleted at once. -/
def openEntry (rules : FileColorRules) (key : Units) (context : EvaluationContext) :
    Option (CacheNode × EvaluationContext) :=
  let context :=
    if context.revision ≠ some rules.revision then
      { context with extensions := [], revision := some rules.revision }
    else context
  let others := context.extensions.filter fun node => node.key ≠ key
  match context.extensions.find? fun node => node.key = key with
  | some node => some (node, { context with extensions := others, hits := context.hits + 1 })
  | none =>
    let cost := entryCost rules key
    if cost > maxCost then none
    else
      some ({ key
              entry := { conditions := List.replicate rules.cacheConditions none }
              cost := cost.toNat },
        { context with
          extensions := trim (maxCost - cost.toNat) others
          misses := context.misses + 1 })

/-- `evaluate` with a context. -/
def evaluateIn (qt : Qt) (rules : FileColorRules) (input : FileRuleInput)
    (context : EvaluationContext) (diagnostics style : Bool) :
    Option (FileRuleResult × EvaluationContext) :=
  if input.name = text ".." || rules.groups.isEmpty then some ({}, context)
  else if rules.cacheConditions = 0 then
    some ((evaluateWith qt rules input none diagnostics style).1, context)
  else
    match openEntry rules (cacheKey rules input) context with
    | none => none
    | some (node, context) =>
      let done := evaluateWith qt rules input (some node.entry) diagnostics style
      -- the entry is changed in place
      let node := { node with entry := done.2.getD node.entry }
      some (done.1, { context with extensions := node :: context.extensions })

/-- A call of one rule set with one context. -/
inductive Call
  | load (document : Json)
  | evaluate (input : FileRuleInput) (diagnostics style : Bool)

/-- The rules and the context between two calls. -/
structure CacheState where
  loaded : LoadedRules := {}
  context : EvaluationContext := {}

/-- One call: what an evaluation gives, and the state after it; `none` when it uses a deleted
entry. -/
def CacheState.step (q : Loader) (s : CacheState) :
    Call → Option (Option FileRuleResult × CacheState)
  | .load document => some (none, { s with loaded := (s.loaded.load q document).2 })
  | .evaluate input diagnostics style =>
    (evaluateIn q.toQt s.loaded.rules input s.context diagnostics style).map fun done =>
      (some done.1, { s with context := done.2 })

/-- The states that calls lead to. -/
inductive Reached (q : Loader) : CacheState → Prop
  | start : Reached q {}
  | step {s s' : CacheState} {call : Call} {result : Option FileRuleResult} (h : Reached q s)
      (hs : s.step q call = some (result, s')) : Reached q s'

end Hc.Settings
