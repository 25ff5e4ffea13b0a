import HyperCommander.Storage.Types

/-!
# Jobs and their tasks (`commonLibs/operations/jobScheduler.hpp`)

The values that a task and the scheduler exchange. A task is a state machine that is advanced one
bounded step at a time; `JobStep` is what one step returns.
-/

namespace Hc.Operations

open Storage

/-- Identifiers of jobs. -/
abbrev JobId := Str

/-- `JobState`. -/
inductive JobState
  | queued
  | preparing
  | running
  | waitingForUser
  | paused
  | committing
  | completed
  | failed
  | cancelled
deriving DecidableEq, Repr

/-- `IsTerminal`. -/
def isTerminal : JobState → Bool
  | .completed | .failed | .cancelled => true
  | _ => false

/-- `InteractionKind`. -/
inductive InteractionKind
  | overwrite
  | rename
  | elevation
  | password
  | deleteConfirmation
  | retryFailure
  | readOnlyRemoval
deriving DecidableEq, Repr

/-- `InteractionChoice`. -/
inductive InteractionChoice
  | replace
  | skip
  | rename
  | retry
  | elevate
  | confirm
  | cancel
  | confirmAll
  | elevateAll
  | skipAll
  | copyOnly
  | replaceAll
  | renameIncoming
  | renameExisting
deriving DecidableEq, Repr

/-- `InteractionRequest`. -/
structure InteractionRequest where
  id : Str := []
  kind : InteractionKind := .overwrite
  reason : String
  choices : List InteractionChoice
deriving DecidableEq, Repr

/-- `InteractionAnswer`. -/
structure InteractionAnswer where
  requestId : Str
  choice : InteractionChoice := .cancel
  value : Str := []
deriving DecidableEq, Repr

/-- `JobPhase`, as far as tasks of the model set it. -/
inductive JobPhase
  | none
  | preparing
  | copying
  | removingSource
  | deleting
deriving DecidableEq, Repr

/-- `JobProgress`. -/
structure JobProgress where
  bytesDone : Nat := 0
  bytesTotal : Option Nat := none
  currentItem : Str := []
  plannedItems : Option Nat := none
  deletedFiles : Option Nat := none
  source : Str := []
  destination : Str := []
  phase : JobPhase := .none
deriving DecidableEq, Repr

/-- `EntrySnapshot`; `id` stands for its `ResourceId`. -/
structure EntrySnapshot where
  id : Str
  locator : Locator
  name : Str
  directory : Bool := false
  size : Nat := 0
  attributes : Nat := 0
deriving DecidableEq, Repr

/-- `ItemOutcome::Status`. -/
inductive ItemStatus
  | completed
  | skipped
  | failed
deriving DecidableEq, Repr

/-- `ItemOutcome`. -/
structure ItemOutcome where
  item : Str
  status : ItemStatus := .completed
  error : Option Error := none
  destinationCommitted : Bool := false
  sourceRemoved : Bool := false
  source : Option EntrySnapshot := none
deriving DecidableEq, Repr

/-- `JobStep`. -/
structure JobStep where
  next : JobState := .running
  progress : Option JobProgress := none
  item : Option ItemOutcome := none
  interaction : Option InteractionRequest := none
  error : Option Error := none
  retry : Bool := false
  deferFor : Int := 0
  replaceItem : Option Nat := none
  items : List ItemOutcome := []
deriving DecidableEq, Repr

/-- `JobStep{JobState::Failed}` with its error. -/
def JobStep.failed (error : Error) : JobStep := { next := .failed, error := some error }

/-- `CompletedEffects`. -/
structure CompletedEffects where
  items : List ItemOutcome := []
  progress : Option JobProgress := none
deriving DecidableEq, Repr

/-- `JobMetadata`; the texts only bound its size. -/
structure JobMetadata where
  label : Str := []
  source : Str := []
  destination : Str := []
  options : Str := []
  retryOf : JobId := []
deriving DecidableEq, Repr

/-- `JobRequest`; `deadline` is that of its operation, none for `time_point::max()`. -/
structure JobRequest where
  deferred : Bool := false
  foreground : Bool := false
  metadata : JobMetadata := {}
  resourceLanes : List Str := []
  deadline : Option Nat := none
  maxItemResults : Nat := 2 ^ 64 - 1
  maxRetries : Nat := 3
  initialRetryDelay : Int := 50
  maximumRetryDelay : Int := 2000
deriving DecidableEq, Repr

/-- `JobControl`. -/
inductive JobControl
  | start
  | pause
  | resume
  | cancel
deriving DecidableEq, Repr

end Hc.Operations
