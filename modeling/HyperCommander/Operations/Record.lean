import HyperCommander.Operations.Job

/-!
# Recording what a step reports (`commonLibs/operations/jobScheduler.cpp`, `JobScheduler::run`)

A step reports one outcome, a batch of outcomes, or the replacement of an outcome that it names by
its row. The rows are those of the job's store, if a journal keeps one, else those in memory, which
also show the first rows of a store.
-/

namespace Hc.Operations

open Storage

/-- `JobSnapshot`. -/
structure JobSnapshot where
  state : JobState := .queued
  progress : JobProgress := {}
  completedItems : Nat := 0
  skippedItems : Nat := 0
  failedItems : Nat := 0
  retryAttempt : Nat := 0
  pauseRequested : Bool := false
  cancelRequested : Bool := false
  interaction : Option InteractionRequest := none
  error : Option Error := none
  deferred : Bool := false
  foreground : Bool := false
  queueOrder : Nat := 0
  metadata : JobMetadata := {}
  retriedAs : JobId := []
deriving DecidableEq, Repr

/-- `JobResult`; `outcomes` are the rows of its store. -/
structure JobResult where
  snapshot : JobSnapshot := {}
  items : List ItemOutcome := []
  cleanupErrors : List Error := []
  outcomes : Option (List ItemOutcome) := none
deriving DecidableEq, Repr

/-- The largest batch. -/
def batchLimit : Nat := 128

/-- Rows of a store that are shown. -/
def previewLimit : Nat := 200

/-- `--` on a `size_t`. -/
def decrement (n : Nat) : Nat := if n = 0 then 2 ^ 64 - 1 else n - 1

/-- A batch comes alone and is bounded. -/
def admitBatch (step : JobStep) : JobStep :=
  if step.items ≠ [] ∧
      (step.item.isSome ∨ step.replaceItem.isSome ∨ step.retry ∨
      step.items.length > batchLimit) then
    .failed ⟨.internal, "invalid-item-result-batch", false⟩
  else step

/-- The loop that appends a batch to the store; it stops at the first failure. `fault` fails the
write of a row. -/
def appendItems (limit : Nat) (fault : Nat → Option Error) :
    List ItemOutcome → List ItemOutcome → List ItemOutcome × Option Error
  | rows, [] => (rows, none)
  | rows, item :: rest =>
    if rows.length ≥ limit then (rows, some ⟨.budgetExceeded, "item-result-budget", false⟩)
    else
      match fault rows.length with
      | some e => (rows, some e)
      | none => appendItems limit fault (rows ++ [item]) rest

/-- The batch in the store. The effects are counted even if they could not be written. -/
def storeBatch (limit : Nat) (fault : Nat → Option Error) (result : JobResult) (step : JobStep) :
    JobResult × JobStep :=
  match result.outcomes with
  | none => (result, step)
  | some rows =>
    let out := appendItems limit fault rows step.items
    ({ result with outcomes := some out.1 },
      match out.2 with
      | none => step
      | some e => { step with next := .failed, error := some e })

/-- An outcome may not take the place of another item's, nor take back an effect. -/
def Updates (old new : ItemOutcome) : Prop :=
  old.item = new.item ∧ (old.destinationCommitted = true → new.destinationCommitted = true) ∧
    (old.sourceRemoved = true → new.sourceRemoved = true)

instance {old new : ItemOutcome} : Decidable (Updates old new) :=
  inferInstanceAs (Decidable (_ ∧ _ ∧ _))

def invalidUpdate : Error := ⟨.internal, "invalid-item-result-update", false⟩

/-- The single outcome in the store, and the outcome it replaced. -/
def storeItem (limit : Nat) (fault : Nat → Option Error) (result : JobResult) (step : JobStep) :
    JobResult × JobStep × Option ItemOutcome :=
  match result.outcomes with
  | none => (result, step, none)
  | some rows =>
    if step.item.isNone ∧ step.replaceItem.isNone then (result, step, none)
    else if step.retry then (result, .failed ⟨.internal, "invalid-retry-result", false⟩, none)
    else
      match step.replaceItem, step.item with
      | some row, item =>
        match fault row with
        | some e => (result, .failed e, none)
        | none =>
          match item, rows[row]? with
          | some item, some old =>
            if Updates old item then
              ({ result with outcomes := some (rows.set row item) }, step, some old)
            else (result, .failed invalidUpdate, none)
          | _, _ => (result, .failed invalidUpdate, none)
      | none, none => (result, step, none)
      | none, some item =>
        if rows.length ≥ limit then
          (result, .failed ⟨.budgetExceeded, "item-result-budget", false⟩, none)
        else
          match fault rows.length with
          | some e => (result, .failed e, none)
          | none => ({ result with outcomes := some (rows ++ [item]) }, step, none)

/-- `retry_` describes an unfinished step. -/
def admitRetry (step : JobStep) : JobStep :=
  if step.retry ∧ (step.item.isSome ∨ step.interaction.isSome ∨ step.replaceItem.isSome) then
    .failed ⟨.internal, "invalid-retry-result", false⟩
  else step

/-- Without a store, the rows in memory decide whether a replacement is one. -/
def admitReplacement (result : JobResult) (step : JobStep) : JobStep :=
  match result.outcomes, step.replaceItem with
  | none, some row =>
    match step.item, result.items[row]? with
    | some item, some old => if Updates old item then step else .failed invalidUpdate
    | _, _ => .failed invalidUpdate
  | _, _ => step

/-- The counter of a status. -/
def JobSnapshot.count (f : Nat → Nat) (s : JobSnapshot) : ItemStatus → JobSnapshot
  | .completed => { s with completedItems := f s.completedItems }
  | .skipped => { s with skippedItems := f s.skippedItems }
  | .failed => { s with failedItems := f s.failedItems }

/-- The row in memory. -/
def showItem (result : JobResult) (item : ItemOutcome) : JobResult :=
  if result.outcomes.isNone ∨ result.items.length < previewLimit then
    { result with items := result.items ++ [item] }
  else result

/-- `AccountItem`. -/
def accountItem (limit : Nat) (previous : Option ItemOutcome) (result : JobResult) (step : JobStep)
    (item : ItemOutcome) : JobResult × JobStep :=
  if result.outcomes.isNone ∧ step.replaceItem.isNone ∧ result.items.length = limit then
    (result, { step with
      next := .failed
      error := some ⟨.budgetExceeded, "item-result-budget", false⟩
      retry := false })
  else
    match step.replaceItem with
    | some row =>
      match previous <|> result.items[row]? with
      | some old =>
        ({ result with
          snapshot := (result.snapshot.count decrement old.status).count (· + 1) item.status
          items := result.items.set row item }, step)
      | none => (result, step)
    | none =>
      (showItem { result with snapshot := result.snapshot.count (· + 1) item.status } item, step)

/-- `AccountItem` on everything the step reports. -/
def accountAll (limit : Nat) (previous : Option ItemOutcome) :
    JobResult → JobStep → List ItemOutcome → JobResult × JobStep
  | result, step, [] => (result, step)
  | result, step, item :: rest =>
    let out := accountItem limit previous result step item
    accountAll limit previous out.1 out.2 rest

/-- What a step reports, in the result of its job; the step is changed where it is not accepted. -/
def record (limit : Nat) (fault : Nat → Option Error) (result : JobResult) (step : JobStep) :
    JobResult × JobStep :=
  let step := admitBatch step
  let batch := storeBatch limit fault result step
  let single := storeItem limit fault batch.1 batch.2
  let step := admitRetry single.2.1
  let result := match step.progress with
    | none => single.1
    | some progress => { single.1 with snapshot.progress := progress }
  let step := admitReplacement result step
  accountAll limit single.2.2 result step (step.item.toList ++ step.items)

/-- The loop over effects that arrive after the last step. Nothing bounds their number. -/
def appendLate (fault : Nat → Option Error) :
    List ItemOutcome → List ItemOutcome → List ItemOutcome × Option Error
  | rows, [] => (rows, none)
  | rows, item :: rest =>
    match fault rows.length with
    | some e => (rows, some e)
    | none => appendLate fault (rows ++ [item]) rest

/-- Effects that arrive after the last step, in the result of their job. -/
def recordLate (fault : Nat → Option Error) (result : JobResult) (effects : CompletedEffects) :
    JobResult × List Error :=
  let stored := match result.outcomes with
    | none => (none, none)
    | some rows =>
      let out := appendLate fault rows effects.items
      (some out.1, out.2)
  let result := { result with outcomes := stored.1 }
  let result := match effects.progress with
    | none => result
    | some progress => { result with snapshot.progress := progress }
  (effects.items.foldl (fun result item =>
      showItem { result with snapshot := result.snapshot.count (· + 1) item.status } item) result,
    stored.2.toList)

end Hc.Operations
