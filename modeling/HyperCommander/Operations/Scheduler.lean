import HyperCommander.Lib.Outcome
import HyperCommander.Operations.Lane
import HyperCommander.Operations.Record
import Mathlib.Data.List.Dedup
import Mathlib.Data.List.Sort

/-!
# The job scheduler (`commonLibs/operations/jobScheduler.cpp`)

`State` is what the scheduler's mutex guards; an `Action` is one section under that mutex, of a
caller or of a worker, together with what the code did on its way to it without the mutex. What
tasks, journals and clocks answer is part of the action, so a list of actions is an interleaving.

`activeJobs_` shares the jobs of `jobs_`; it is the set of their identifiers here. Notifications are
left out, except that `notify` reads the stop source.
-/

namespace Hc.Operations

open Storage Outcome

/-- `INT64_MAX` and above are not reached by clocks; a deadline that is never reached is none. -/
def expired (deadline : Option Nat) (now : Nat) : Bool := deadline.any (· ≤ now)

/-- What a worker took along when it claimed a job. -/
structure Claim where
  abort : Option Error
  receiptOnly : Bool
  committing : Bool
  answer : Option InteractionAnswer
  retryAttempt : Nat
  receipt : Option Nat := none
deriving DecidableEq, Repr

/-- Where in `run` the worker of a job is. -/
inductive Phase
  | idle
  | claimed (claim : Claim)
  | ended (terminal : JobState)
  | collected (terminal : JobState) (cleanup : List Error)
deriving DecidableEq, Repr

/-- `Job`. `finalized` and `promised` count the calls of `Finalize` and of `set_value`. -/
structure Job where
  request : JobRequest
  result : JobResult
  task : Bool := true
  stopRequested : Bool := false
  answer : Option InteractionAnswer := none
  resume : JobState := .preparing
  executing : Bool := false
  lanesHeld : Bool := false
  commitEntered : Bool := false
  itemsOpened : Bool := false
  admitted : Bool := false
  receiptSaved : Bool := false
  interactionSequence : Nat := 0
  readyAt : Nat := 0
  phase : Phase := .idle
  finalized : Nat := 0
  promised : Nat := 0
deriving DecidableEq, Repr

namespace Job

abbrev state (job : Job) : JobState := job.result.snapshot.state

/-- The result of the job with another snapshot. -/
def withSnapshot (job : Job) (f : JobSnapshot → JobSnapshot) : Job :=
  { job with result.snapshot := f job.result.snapshot }

/-- `notify`. -/
def notify (job : Job) : Job :=
  job.withSnapshot fun s => { s with cancelRequested := s.cancelRequested || job.stopRequested }

def withState (job : Job) (state : JobState) : Job :=
  job.withSnapshot fun s => { s with state }

def withError (job : Job) (error : Option Error) : Job :=
  job.withSnapshot fun s => { s with error }

/-- The prompt of the job is answered. -/
def answered (job : Job) (answer : InteractionAnswer) : Job :=
  { job.withSnapshot fun p => { p with
      cancelRequested := p.cancelRequested || answer.choice == .cancel, interaction := none } with
    answer := some answer }

def withForeground (job : Job) (foreground : Bool) : Job :=
  { job.withSnapshot fun p => { p with foreground } with
    request := { job.request with foreground } }

/-- The job in the hands of a worker. -/
def taken (job : Job) (abort : Option Error) : Job :=
  let committing := job.state == .committing
  { job with
    executing := true
    commitEntered := job.commitEntered || (committing && abort.isNone)
    answer := none
    phase := .claimed {
      abort, receiptOnly := job.result.snapshot.deferred, committing, answer := job.answer
      retryAttempt := job.result.snapshot.retryAttempt } }

/-- The job without its task. -/
def cleaned (job : Job) (cleanup : List Error) : Job :=
  { job with
    task := false
    finalized := job.finalized + 1
    result.cleanupErrors := cleanup
    result.snapshot := { job.result.snapshot with
      error :=
        if cleanup = [] then job.result.snapshot.error
        else job.result.snapshot.error <|> some ⟨.unavailable, "cleanup-incomplete", false⟩
      interaction := none
      deferred := false } }

/-- `promise_.set_value`; the worker is done with the job. -/
def promise (job : Job) : Job :=
  { job with promised := job.promised + 1, executing := false, phase := .idle }

/-- A cancellation or deadline that the next turn of the job has to honour. -/
def abortAt (job : Job) (now : Nat) : Option Error :=
  if job.state = .committing ∧ job.commitEntered then none
  else if job.result.snapshot.cancelRequested ∨ job.stopRequested then
    some ⟨.cancelled, "cancelled", false⟩
  else if expired job.request.deadline now then some ⟨.unavailable, "deadline-exceeded", false⟩
  else none

end Job

/-- `JobScheduler::State`, the identifiers drawn so far, and the calls of `request_stop` and
`Cancel` that callers still have to make after leaving the mutex. -/
structure State where
  jobs : OrdMap JobId Job := .empty
  active : OrdMap JobId Unit := .empty
  laneLimits : OrdMap Lane Nat := .empty
  occupied : OrdMap Lane Nat := .empty
  journal : Bool := false
  stopping : Bool := false
  maxJobs : Nat := 1024
  lastPicked : JobId := []
  nextOrder : Nat := 0
  concurrencyLimit : Nat := 2
  workerCount : Nat := 2
  admitted : Nat := 0
  issued : List JobId := []
  stops : List JobId := []
  cancels : List JobId := []

/-- The constructor. -/
def State.new (workerCount maxRetainedJobs : Nat) (journal : Bool) : State :=
  { journal, maxJobs := maxRetainedJobs, concurrencyLimit := workerCount, workerCount }

def missing : Error := ⟨.notFound, "job-not-found", false⟩
def closed : Error := ⟨.invalidRequest, "job-terminal", false⟩
def invalidRequest (code : String) : Error := ⟨.invalidRequest, code, false⟩

namespace State

def put (s : State) (id : JobId) (job : Job) : State := { s with jobs := s.jobs.set id job }

/-- A job in this state gives its admission back. -/
def leaves (next : JobState) : Bool := next == .paused || next == .waitingForUser || isTerminal next

/-- `transition`. -/
def transition (s : State) (id : JobId) (job : Job) (next : JobState) : State × Job :=
  if job.state = next then (s, job)
  else
    ({ s with
        active := if isTerminal next then s.active.erase id else s.active
        admitted :=
          if leaves next ∧ job.admitted ∧ ¬ job.result.snapshot.foreground then decrement s.admitted
          else s.admitted },
      { job.withState next with admitted := job.admitted && !leaves next }.notify)

/-! ## Lanes -/

/-- Whether `acquire` finds nothing against `lane`. -/
def laneFree (s : State) (lane : Lane) : Bool :=
  !((s.occupied.find lane).any fun n => n ≥ (s.laneLimits.find lane).getD 1) &&
  (!isPathLane lane ||
    (!((s.occupied.lowerBound (lane ++ [backslash])).any fun child =>
        (lane ++ [backslash]).isPrefixOf child.1) &&
      (parents lane).all fun parent => !((s.occupied.find parent).any fun n => n ≠ 0)))

/-- `++occupied_[Lane]`. -/
def occupy (occupied : OrdMap Lane Nat) (lane : Lane) : OrdMap Lane Nat :=
  occupied.set lane ((occupied.find lane).getD 0 + 1)

/-- `acquire`; none if a lane is not free. -/
def acquire (s : State) (job : Job) : Option (State × Job) :=
  if job.lanesHeld then some (s, job)
  else if job.request.resourceLanes.all s.laneFree then
    some ({ s with occupied := job.request.resourceLanes.foldl occupy s.occupied },
      { job with lanesHeld := true })
  else none

/-- `if (--occupied_[Lane] == 0) occupied_.erase(Lane)`. -/
def vacate (occupied : OrdMap Lane Nat) (lane : Lane) : OrdMap Lane Nat :=
  let n := decrement ((occupied.find lane).getD 0)
  if n = 0 then occupied.erase lane else occupied.set lane n

/-- `release`. -/
def release (s : State) (job : Job) : State × Job :=
  if job.lanesHeld then
    ({ s with occupied := job.request.resourceLanes.foldl vacate s.occupied },
      { job with lanesHeld := false })
  else (s, job)

/-! ## Calls -/

/-- The lane as `Submit` stores it. -/
def submitLane (fold : Str → Option Str) (lane : Lane) : Except Error Lane := do
  failIf (lane = [] ∨ lane.length > if isPathLane lane then 131077 else 1024)
    (invalidRequest "invalid-resource-lane")
  if isPathLane lane then do
    let path := fileOperationPath fold (lane.drop 5)
    failIf (path = []) (invalidRequest "invalid-resource-path")
    pure (pathPrefix ++ path)
  else pure lane

/-- Whether the job may be the parent of a retry. -/
def retryable (job : Job) : Bool :=
  !(job.executing || !isTerminal job.state || job.state == .completed ||
    !job.result.snapshot.retriedAs.isEmpty)

/-- The link from the failed job to its retry. -/
def linkRetry (s : State) (id : JobId) (request : JobRequest) : Except Error State :=
  if request.metadata.retryOf = [] then pure s
  else
    match s.jobs.find request.metadata.retryOf with
    | none => .error missing
    | some parent => do
      failIf (retryable parent = false)
        (invalidRequest "job-retry-already-submitted-or-ineligible")
      pure (s.put request.metadata.retryOf
        (parent.withSnapshot fun p => { p with retriedAs := id }).notify)

/-- `Submit` under the identifier `id`; `stopped` is whether the token of the operation is stopped
already. -/
def submit (s : State) (fold : Str → Option Str) (id : JobId) (hasTask stopped : Bool)
    (request : JobRequest) : Except Error State := do
  failIf (hasTask = false ∨ request.maxItemResults = 0 ∨ request.maxRetries > 16 ∨
    request.initialRetryDelay < 1 ∨ request.maximumRetryDelay < request.initialRetryDelay ∨
    request.maximumRetryDelay > 60000) (invalidRequest "invalid-job-request")
  let metadata := request.metadata
  failIf (∃ text ∈ [metadata.label, metadata.source, metadata.destination, metadata.options,
    metadata.retryOf], text.length > 65536) (invalidRequest "job-metadata-budget")
  let lanes ← request.resourceLanes.mapM (submitLane fold)
  let lanes := (lanes.insertionSort (· ≤ ·)).dedup
  let request := { request with resourceLanes := lanes }
  failIf (s.stopping) ⟨.unavailable, "scheduler-closed", false⟩
  failIf (s.jobs.entries.length ≥ s.maxJobs) ⟨.budgetExceeded, "job-history-full", false⟩
  let s ← s.linkRetry id request
  let job : Job := { request, stopRequested := stopped, result.snapshot := {
    deferred := request.deferred, foreground := request.foreground
    metadata := request.metadata, queueOrder := s.nextOrder + 1 } }
  pure { s.put id job.notify with
    nextOrder := s.nextOrder + 1, active := s.active.set id (), issued := id :: s.issued }

/-- The checks of `Control` on a batch. -/
def checkBatch (s : State) (control : JobControl) : List JobId → List JobId → Except Error Unit
  | _, [] => pure ()
  | seen, id :: rest =>
    match s.jobs.find id with
    | none => .error missing
    | some job => do
      failIf (id ∈ seen) (invalidRequest "duplicate-job-id")
      failIf (isTerminal job.state ∨ job.result.snapshot.cancelRequested) closed
      failIf (control = .start ∧ job.result.snapshot.deferred = false)
        (invalidRequest "job-not-deferred")
      s.checkBatch control (id :: seen) rest

/-- What `Control` does to a job. -/
def steer (s : State) (id : JobId) (job : Job) : JobControl → State × Job
  | .cancel => (s, job.withSnapshot fun p => { p with cancelRequested := true })
  | .start => (s, job.withSnapshot fun p => { p with deferred := false })
  | .pause => (s, job.withSnapshot fun p => { p with pauseRequested := true })
  | .resume =>
    let job := job.withSnapshot fun p => { p with pauseRequested := false }
    if job.state = .paused then s.transition id job job.resume else (s, job)

/-- `Control` on one job of a batch. -/
def controlJob (control : JobControl) (s : State) (id : JobId) : State :=
  match s.jobs.find id with
  | none => s
  | some job =>
    let moved := s.steer id job control
    moved.1.put id moved.2.notify

/-- `Control`. -/
def control (s : State) (ids : List JobId) (control : JobControl) : Except Error State := do
  failIf (ids = [] ∨ ids.length > 65536) (invalidRequest "invalid-job-batch")
  s.checkBatch control [] ids
  let s := ids.foldl (controlJob control) s
  pure (if control = .cancel then { s with stops := s.stops ++ ids } else s)

/-- `Reply`. -/
def reply (s : State) (id : JobId) (answer : InteractionAnswer) (now : Nat) :
    Except Error State :=
  match s.jobs.find id with
  | none => .error missing
  | some job =>
    match job.result.snapshot.interaction with
    | none => .error ⟨.staleRevision, "interaction-expired", false⟩
    | some prompt => do
      failIf (job.state ≠ .waitingForUser ∨ prompt.id ≠ answer.requestId ∨ job.executing ∨
        job.result.snapshot.cancelRequested ∨ job.stopRequested ∨ expired job.request.deadline now)
        ⟨.staleRevision, "interaction-expired", false⟩
      failIf (answer.value.length > 65536 ∨ answer.choice ∉ prompt.choices)
        (invalidRequest "interaction-answer")
      let moved := s.transition id (job.answered answer) job.resume
      pure { moved.1.put id moved.2 with
        cancels := if answer.choice = .cancel then moved.1.cancels ++ [id] else moved.1.cancels }

/-- `Forget`. -/
def forget (s : State) (id : JobId) : Except Error State :=
  match s.jobs.find id with
  | none => .error missing
  | some job => do
    failIf (¬ isTerminal job.state ∨ job.executing) (invalidRequest "job-active")
    pure { s with active := s.active.erase id, jobs := s.jobs.erase id }

/-- `SetForeground`. -/
def setForeground (s : State) (id : JobId) (foreground : Bool) : Except Error State :=
  match s.jobs.find id with
  | none => .error missing
  | some job => do
    failIf (isTerminal job.state) closed
    if job.result.snapshot.foreground = foreground then pure s
    else do
      failIf (foreground = false ∧ s.admitted ≥ s.concurrencyLimit)
        ⟨.unavailable, "background-concurrency-full", false⟩
      let admitted :=
        if job.admitted then if foreground then decrement s.admitted else s.admitted + 1
        else s.admitted
      pure { s.put id (job.withForeground foreground).notify with admitted }

/-- `SetConcurrencyLimit`. -/
def setConcurrencyLimit (s : State) (limit : Nat) : Except Error State := do
  failIf (limit = 0 ∨ limit > s.workerCount) (invalidRequest "invalid-concurrency-limit")
  pure { s with concurrencyLimit := limit }

/-- `SetLaneLimit`. -/
def setLaneLimit (s : State) (lane : Lane) (limit : Nat) : Except Error State := do
  failIf (lane = [] ∨ lane.length > 1024 ∨ limit = 0 ∨ limit > 64)
    (invalidRequest "invalid-lane-limit")
  pure { s with laneLimits := s.laneLimits.set lane limit }

/-- `ReorderQueued` on one job. -/
def reorderJob (s : State) (id : JobId) : State :=
  match s.jobs.find id with
  | none => s
  | some job =>
    { s.put id { job.withSnapshot fun p => { p with queueOrder := s.nextOrder + 1 } with
        receiptSaved := false }.notify with nextOrder := s.nextOrder + 1 }

/-- `ReorderQueued`. -/
def reorderQueued (s : State) (ids : List JobId) : Except Error State := do
  failIf (ids.length ≠ s.jobs.entries.countP fun e => e.2.result.snapshot.deferred)
    (invalidRequest "queue-members-changed")
  failIf (¬ ids.Nodup ∨ ∃ id ∈ ids, ∀ job ∈ s.jobs.find id,
      job.result.snapshot.deferred = false ∨ job.result.snapshot.cancelRequested)
    (invalidRequest "queue-members-changed")
  pure (ids.foldl reorderJob s)

/-- `Shutdown` on one job. -/
def shutdownJob (s : State) (id : JobId) : State :=
  match s.jobs.find id with
  | none => s
  | some job =>
    if isTerminal job.state then s
    else
      { s.put id (job.withSnapshot fun p => { p with cancelRequested := true }) with
        stops := s.stops ++ [id] }

/-- `Shutdown`, up to the workers' end. -/
def shutdown (s : State) : State :=
  (s.jobs.entries.map Prod.fst).foldl shutdownJob { s with stopping := true }

/-- `request_stop` on the stop source of a job, which its external token may call as well. -/
def requestStop (s : State) (id : JobId) : State :=
  match s.jobs.find id with
  | none => s
  | some job => s.put id { job with stopRequested := true }

/-! ## Workers -/

/-- The jobs in the order in which a worker looks at them: past the last one picked, then around,
and the queued ones last, in their own order. -/
def candidates (s : State) : List JobId :=
  let ids := s.active.entries.map Prod.fst
  let turn := ids.filter (s.lastPicked < ·) ++ ids.filter (¬ s.lastPicked < ·)
  let order := fun id => (s.jobs.find id).map fun job => job.result.snapshot.queueOrder
  let isQueued := fun id => (s.jobs.find id).any fun job => job.state == .queued
  turn.filter (fun id => !isQueued id) ++
    (turn.filter isQueued).insertionSort fun a b => (order a).getD 0 ≤ (order b).getD 0

/-- The worker takes the job. -/
def claim (s : State) (id : JobId) (job : Job) (abort : Option Error) : State :=
  let moved :=
    if job.result.snapshot.deferred = false ∧ job.state = .queued then
      s.transition id job .preparing
    else (s, job)
  { moved.1.put id (moved.2.taken abort) with lastPicked := id }

/-- `if (!Candidate->admitted_) ...`. -/
def admit_ (s : State) (job : Job) : State × Job :=
  if job.admitted then (s, job)
  else ({ s with
    admitted := if job.result.snapshot.foreground then s.admitted else s.admitted + 1 },
    { job with admitted := true })

/-- The loop over the candidates. -/
def scan (now : Nat) : List JobId → State → State
  | [], s => s
  | id :: rest, s =>
    match s.jobs.find id with
    | none => scan now rest s
    | some job =>
      if isTerminal job.state ∨ job.executing then scan now rest s
      else
        match job.abortAt now with
        | some e => s.claim id job (some e)
        | none =>
          let snapshot := job.result.snapshot
          let committing := job.state == .committing && job.commitEntered
          if snapshot.deferred ∧ (s.journal = false ∨ job.receiptSaved) then scan now rest s
          else if job.state = .waitingForUser then scan now rest s
          else if snapshot.pauseRequested ∧ committing = false then
            if job.state = .paused then scan now rest s
            else
              let moved := s.transition id { job with resume := job.state } .paused
              scan now rest (moved.1.put id moved.2)
          else if snapshot.deferred then s.claim id job none
          else if snapshot.foreground = false ∧ job.admitted = false ∧
              s.admitted ≥ s.concurrencyLimit then scan now rest s
          else if job.readyAt > now then scan now rest s
          else
            match s.acquire job with
            | none => scan now rest s
            | some (s, job) =>
              let admitted := s.admit_ job
              admitted.1.claim id admitted.2 none

/-- A worker that has no job looks for one. -/
def pick (s : State) (now : Nat) : State :=
  if s.jobs.entries.countP (fun e => e.2.executing) ≥ s.workerCount then s
  else scan now s.candidates s

/-- The queue order that the receipt of a deferred job is about. -/
def takeReceipt (s : State) (id : JobId) : State :=
  match s.jobs.find id with
  | none => s
  | some job =>
    match job.phase with
    | .claimed claim =>
      if claim.abort = none ∧ claim.receiptOnly then
        s.put id { job with
          phase := .claimed { claim with receipt := some job.result.snapshot.queueOrder } }
      else s
    | _ => s

/-- The receipt was saved, or the job fails. -/
def saveReceipt (s : State) (id : JobId) (failure : Option Error) : State :=
  match s.jobs.find id with
  | none => s
  | some job =>
    match job.phase with
    | .claimed claim =>
      if claim.abort = none ∧ claim.receiptOnly then
        match claim.receipt, failure with
        | none, _ => s
        | some _, some e => s.put id { job with phase := .claimed { claim with abort := some e } }
        | some order, none =>
          s.put id { job with
            receiptSaved := order == job.result.snapshot.queueOrder
            executing := false
            phase := .idle }
      else s
    | _ => s

/-- What the outside answers while a job is advanced: whether the journal opened its stores, and
keeps one for outcomes; whether it saved the checkpoint; what the task returned, if it did not
throw; which rows could not be written. -/
structure StepInput where
  opened : Except Error Bool := .ok false
  checkpoint : Option Error := none
  advance : Option JobStep
  fault : Nat → Option Error := fun _ => none

/-- The stores are opened once. -/
def openItems (job : Job) (input : StepInput) : Job × Option Error :=
  if job.itemsOpened then (job, none)
  else
    match input.opened with
    | .error e => ({ job with itemsOpened := true }, some e)
    | .ok false => ({ job with itemsOpened := true }, none)
    | .ok true => ({ job with itemsOpened := true, result.outcomes := some [] }, none)

/-- The step that the job takes. -/
def stepOf (abort : Option Error) (input : StepInput) : JobStep :=
  match abort, input.advance with
  | some e, _ =>
    { next := if e.category = .cancelled then .cancelled else .failed, error := some e }
  | none, none => .failed ⟨.internal, "job-task-exception", false⟩
  | none, some step => step

/-- A job after its step, with the state it is to have. -/
abbrev Verdict := Job × JobState

namespace Verdict

def fail (v : Verdict) (error : Error) : Verdict := (v.1.withError (some error), .failed)

/-- A task delays itself by at most a day, and only while it runs. -/
def limitDelay (step : JobStep) (now : Nat) (v : Verdict) : Verdict :=
  let v : Verdict := ({ v.1 with readyAt := (now + step.deferFor).toNat }, v.2)
  if step.deferFor < 0 ∨ step.deferFor > 86400000 ∨
      (step.deferFor ≠ 0 ∧ (v.2 ≠ .running ∨ step.interaction.isSome)) then
    v.fail ⟨.internal, "invalid-task-delay", false⟩
  else (v.1.withError step.error, v.2)

/-- A failure by cancellation is one. -/
def cancelLate (v : Verdict) : Verdict :=
  if v.2 = .failed ∧ v.1.state ≠ .committing ∧
      v.1.result.snapshot.error.any (·.category = .cancelled) then (v.1, .cancelled)
  else v

/-- A cancellation or deadline before the commit wins. -/
def enterCommit (now : Nat) (v : Verdict) : Verdict :=
  if v.2 = .committing ∧ v.1.state ≠ .committing then
    if v.1.result.snapshot.cancelRequested ∨ v.1.stopRequested then
      (v.1.withError (some ⟨.cancelled, "cancelled", false⟩), .cancelled)
    else if expired v.1.request.deadline now then
      v.fail ⟨.unavailable, "deadline-exceeded", false⟩
    else v
  else v

def noPromptInCommit (v : Verdict) : Verdict :=
  if v.1.state = .committing ∧ v.2 = .waitingForUser then
    v.fail ⟨.internal, "interaction-during-commit", false⟩
  else v

/-- The identifier of the next prompt of a job. -/
def promptId (id : JobId) (job : Job) : Str :=
  id ++ [colon] ++ toString_ (job.interactionSequence + 1)

def prompt (id : JobId) (step : JobStep) (v : Verdict) : Verdict :=
  if v.2 = .waitingForUser then
    match step.interaction with
    | none => v.fail ⟨.internal, "invalid-interaction", false⟩
    | some request =>
      if request.choices = [] ∨ request.choices.length > 16 then
        v.fail ⟨.internal, "invalid-interaction", false⟩
      else
        ({ v.1.withSnapshot fun p => { p with
            interaction := some { request with id := promptId id v.1 } } with
          interactionSequence := v.1.interactionSequence + 1
          resume := .running }, v.2)
  else v

def taskTransition (v : Verdict) : Verdict :=
  if v.2 = .queued ∨ v.2 = .paused then v.fail ⟨.internal, "invalid-task-transition", false⟩ else v

def partialFailure (v : Verdict) : Verdict :=
  if v.2 = .completed ∧ v.1.result.snapshot.failedItems ≠ 0 then
    v.fail ⟨.unavailable, "partial-failure", false⟩
  else v

def nameFailure (v : Verdict) : Verdict :=
  if v.2 = .failed ∧ v.1.result.snapshot.error = none then
    v.fail ⟨.internal, "job-failed", false⟩
  else v

end Verdict

/-- What becomes of the job after a step. -/
def judge (id : JobId) (now : Nat) (step : JobStep) (v : Verdict) : Verdict :=
  ((((((((v.limitDelay step now).cancelLate).enterCommit now).noPromptInCommit).prompt id
    step).taskTransition).partialFailure).nameFailure)

/-- The job takes the state it was judged to have; a terminal one waits for the cleanup. -/
def resolve (s : State) (id : JobId) (v : Verdict) : State :=
  if isTerminal v.2 then s.put id { v.1 with phase := .ended v.2 }
  else
    let moved :=
      if v.2 = .committing ∧ v.1.state ≠ .committing ∧ v.1.result.snapshot.pauseRequested then
        s.transition id { v.1 with resume := v.2 } .paused
      else s.transition id v.1 v.2
    moved.1.put id { moved.2 with
      commitEntered := moved.2.commitEntered && v.2 == .committing
      executing := false
      phase := .idle }

/-- The delay before a retry. -/
def retryDelay (request : JobRequest) (attempt : Nat) : Int :=
  min request.maximumRetryDelay (request.initialRetryDelay * 2 ^ attempt)

/-- The job after the worker left the mutex to advance it and came back. -/
def settle (s : State) (id : JobId) (job : Job) (claim : Claim) (input : StepInput) (now : Nat) :
    State :=
  let opened :=
    if claim.abort = none ∧ s.journal then
      let opened := openItems job input
      (opened.1, input.checkpoint <|> opened.2)
    else (job, claim.abort)
  let job := opened.1
  let recorded := record job.request.maxItemResults input.fault job.result
    (stepOf opened.2 input)
  let job := { job with result := recorded.1 }
  let job := if recorded.2.progress.isSome then job.notify else job
  let step := recorded.2
  if step.retry then
    if job.state ≠ .committing ∧ step.error.any (·.retryable) ∧
        job.result.snapshot.retryAttempt < job.request.maxRetries then
      s.put id { job.withSnapshot fun p => { p with
          retryAttempt := p.retryAttempt + 1, error := step.error } with
        readyAt := (now + retryDelay job.request job.result.snapshot.retryAttempt).toNat
        executing := false
        phase := .idle }.notify
    else
      let error := step.error <|> some ⟨.internal, "invalid-retry", false⟩
      s.resolve id (judge id now { step with error } (job, .failed))
  else
    let job := job.withSnapshot fun p => { p with retryAttempt := 0 }
    s.resolve id (judge id now step (job, step.next))

/-- The worker advances the job it claimed. -/
def advance (s : State) (id : JobId) (input : StepInput) (now : Nat) : State :=
  match s.jobs.find id with
  | none => s
  | some job =>
    match job.phase with
    | .claimed claim =>
      if claim.abort = none ∧ claim.receiptOnly then s else s.settle id job claim input now
    | _ => s

/-- The late effects of a job that ended; none if the task threw. -/
def collect (s : State) (id : JobId) (effects : Option CompletedEffects)
    (fault : Nat → Option Error) : State :=
  match s.jobs.find id with
  | none => s
  | some job =>
    match job.phase with
    | .ended terminal =>
      match effects with
      | none => s.put id { job with
          phase := .collected terminal [⟨.internal, "completed-effects-exception", false⟩] }
      | some effects =>
        let recorded := recordLate fault job.result effects
        s.put id { job with result := recorded.1, phase := .collected terminal recorded.2 }
    | _ => s

/-- What the outside answers at the end of a job: the errors of `Finalize`, of the store's last
`Flush` and of the last checkpoint. -/
structure EndInput where
  finalized : List Error := []
  flushed : Option Error := none
  saved : Option Error := none

/-- The job is terminal and its promise kept. -/
def close (s : State) (id : JobId) (job : Job) (terminal : JobState) : State :=
  let moved := s.transition id job terminal
  moved.1.put id moved.2.promise

/-- The end of a job. -/
def finish (s : State) (id : JobId) (input : EndInput) : State :=
  match s.jobs.find id with
  | none => s
  | some job =>
    match job.phase with
    | .collected terminal cleanup =>
      let cleanup := cleanup ++ input.finalized ++
        (if job.result.outcomes.isSome then input.flushed.toList else []) ++
        (if s.journal then input.saved.toList else [])
      let released := s.release (job.cleaned cleanup)
      released.1.close id released.2 (if cleanup = [] then terminal else .failed)
    | _ => s

end State

/-- One section under the mutex. -/
inductive Action
  | submit (id : JobId) (hasTask stopped : Bool) (request : JobRequest)
  | control (ids : List JobId) (control : JobControl)
  | reply (id : JobId) (answer : InteractionAnswer) (now : Nat)
  | forget (id : JobId)
  | setForeground (id : JobId) (foreground : Bool)
  | setConcurrencyLimit (limit : Nat)
  | setLaneLimit (lane : Lane) (limit : Nat)
  | reorderQueued (ids : List JobId)
  | shutdown
  /-- A caller of `Control` or `Shutdown` asks a stop source. -/
  | requestStop (id : JobId)
  /-- A caller of `Reply` goes on to `Cancel`. -/
  | cancelReply (id : JobId)
  /-- The token of the job's own operation is stopped. -/
  | externalStop (id : JobId)
  | pick (now : Nat)
  | takeReceipt (id : JobId)
  | saveReceipt (id : JobId) (failure : Option Error)
  | advance (id : JobId) (input : State.StepInput) (now : Nat)
  | collect (id : JobId) (effects : Option CompletedEffects) (fault : Nat → Option Error)
  | finish (id : JobId) (input : State.EndInput)

namespace State

/-- A call that fails changes nothing. -/
def orSame (s : State) (r : Except Error State) : State :=
  match r with
  | .ok s' => s'
  | .error _ => s

/-- One action; a step of a worker that is not there changes nothing. -/
def act (fold : Str → Option Str) (s : State) : Action → State
  | .submit id hasTask stopped request =>
    if id ∈ s.issued then s else s.orSame (s.submit fold id hasTask stopped request)
  | .control ids control => s.orSame (s.control ids control)
  | .reply id answer now => s.orSame (s.reply id answer now)
  | .forget id => s.orSame (s.forget id)
  | .setForeground id foreground => s.orSame (s.setForeground id foreground)
  | .setConcurrencyLimit limit => s.orSame (s.setConcurrencyLimit limit)
  | .setLaneLimit lane limit => s.orSame (s.setLaneLimit lane limit)
  | .reorderQueued ids => s.orSame (s.reorderQueued ids)
  | .shutdown => s.shutdown
  | .requestStop id =>
    if id ∈ s.stops then { s with stops := s.stops.erase id }.requestStop id else s
  | .cancelReply id =>
    if id ∈ s.cancels then
      let s := { s with cancels := s.cancels.erase id }
      s.orSame (s.control [id] .cancel)
    else s
  | .externalStop id => s.requestStop id
  | .pick now => s.pick now
  | .takeReceipt id => s.takeReceipt id
  | .saveReceipt id failure => s.saveReceipt id failure
  | .advance id input now => s.advance id input now
  | .collect id effects fault => s.collect id effects fault
  | .finish id input => s.finish id input

end State

end Hc.Operations
