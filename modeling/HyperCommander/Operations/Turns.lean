import HyperCommander.Operations.SchedulerLemmas

/-!
# What one section does to one job

`Turn` lists what a section under the mutex can do to one job: the guards that the section checked,
and the job as it leaves it. `Moves` adds what comes with it for the rest of the scheduler.

* `Goes`: one such move, with everything else still; `Evolves`: a sequence of them.
-/

namespace Hc.Operations

open Storage Outcome Relation

/-! ## The job as a section leaves it -/

namespace Job

/-- The job after `transition`. -/
def moved (job : Job) (next : JobState) : Job :=
  if job.state = next then job
  else { job.withState next with admitted := job.admitted && !State.leaves next }.notify

/-- The job after `steer`. -/
def steered (job : Job) : JobControl → Job
  | .cancel => job.withSnapshot fun p => { p with cancelRequested := true }
  | .start => job.withSnapshot fun p => { p with deferred := false }
  | .pause => job.withSnapshot fun p => { p with pauseRequested := true }
  | .resume =>
    let job := job.withSnapshot fun p => { p with pauseRequested := false }
    if job.state = .paused then job.moved job.resume else job

/-- The job that `submit` stores. -/
def submitted (stopped : Bool) (request : JobRequest) (order : Nat) : Job :=
  ({ request, stopRequested := stopped, result.snapshot := {
    deferred := request.deferred, foreground := request.foreground
    metadata := request.metadata, queueOrder := order } } : Job).notify

/-- The job with its lanes and its admission, if it is to run. -/
def readied (job : Job) (abort : Option Error) : Job :=
  if abort = none ∧ job.result.snapshot.deferred = false then
    { job with lanesHeld := true, admitted := true }
  else job

/-- A queued job is prepared by the worker that takes it. -/
def prepared (job : Job) : Job :=
  if job.result.snapshot.deferred = false ∧ job.state = .queued then job.moved .preparing else job

/-- The job with its stores, and why its task is not called. -/
def opened (journal : Bool) (job : Job) (claim : Claim) (input : State.StepInput) :
    Job × Option Error :=
  if claim.abort = none ∧ journal then
    let opened := State.openItems job input
    (opened.1, input.checkpoint <|> opened.2)
  else (job, claim.abort)

/-- The job with what its step reports, and the step as it is accepted. -/
def advanced (journal : Bool) (job : Job) (claim : Claim) (input : State.StepInput) :
    Job × JobStep :=
  let opened := job.opened journal claim input
  let recorded := record opened.1.request.maxItemResults input.fault opened.1.result
    (State.stepOf opened.2 input)
  let job := { opened.1 with result := recorded.1 }
  (if recorded.2.progress.isSome then job.notify else job, recorded.2)

/-- A failed step may be done again. -/
def MayRetry (job : Job) (step : JobStep) : Prop :=
  job.state ≠ .committing ∧ step.error.any (·.retryable) ∧
    job.result.snapshot.retryAttempt < job.request.maxRetries

/-- The job that waits to do its step again. -/
def delayed (job : Job) (step : JobStep) (now : Nat) : Job :=
  { job.withSnapshot fun p =>
      { p with retryAttempt := p.retryAttempt + 1, error := step.error } with
    readyAt := (now + State.retryDelay job.request job.result.snapshot.retryAttempt).toNat
    executing := false
    phase := .idle }.notify

/-- The verdict on a job whose step is over. -/
def verdict (id : JobId) (now : Nat) (job : Job) (step : JobStep) : State.Verdict :=
  if step.retry then
    State.judge id now
      { step with error := step.error <|> some ⟨.internal, "invalid-retry", false⟩ } (job, .failed)
  else State.judge id now step (job.withSnapshot fun p => { p with retryAttempt := 0 }, step.next)

/-- The job after `resolve`. -/
def resolved (v : State.Verdict) : Job :=
  if isTerminal v.2 then { v.1 with phase := .ended v.2 }
  else
    let job :=
      if v.2 = .committing ∧ v.1.state ≠ .committing ∧ v.1.result.snapshot.pauseRequested then
        { v.1 with resume := v.2 }.moved .paused
      else v.1.moved v.2
    { job with
      commitEntered := job.commitEntered && v.2 == .committing
      executing := false
      phase := .idle }

/-- The job after `collect`. -/
def gathered (job : Job) (terminal : JobState) (effects : Option CompletedEffects)
    (fault : Nat → Option Error) : Job :=
  match effects with
  | none =>
    { job with phase := .collected terminal [⟨.internal, "completed-effects-exception", false⟩] }
  | some effects =>
    let recorded := recordLate fault job.result effects
    { job with result := recorded.1, phase := .collected terminal recorded.2 }

/-- The errors of the cleanup. -/
def cleanup (journal : Bool) (job : Job) (collected : List Error) (input : State.EndInput) :
    List Error :=
  collected ++ input.finalized ++
    (if job.result.outcomes.isSome then input.flushed.toList else []) ++
    (if journal then input.saved.toList else [])

/-- The job after `finish`. -/
def finished (job : Job) (terminal : JobState) (cleanup : List Error) : Job :=
  ({ job.cleaned cleanup with lanesHeld := false }.moved
    (if cleanup = [] then terminal else .failed)).promise

/-- What the job counts in `admitted`. -/
def weight (job : Job) : Nat :=
  if job.admitted ∧ job.result.snapshot.foreground = false then 1 else 0

end Job

def weight : Option Job → Nat
  | some job => job.weight
  | none => 0

/-! ## Turns -/

/-- A worker finds nothing that keeps it from taking the job. -/
structure Ready (journal : Bool) (now : Nat) (job : Job) : Prop where
  receipt : job.result.snapshot.deferred = true → journal = true ∧ job.receiptSaved = false
  prompt : job.state ≠ .waitingForUser
  pause : job.result.snapshot.pauseRequested = true →
    job.state = .committing ∧ job.commitEntered = true
  delay : job.result.snapshot.deferred = false → job.readyAt ≤ now

/-- What a section does to the job `id`. -/
inductive Turn (journal : Bool) (a : Action) (id : JobId) : Option Job → Option Job → Prop
  | submitted {hasTask stopped request lanes order} (ha : a = .submit id hasTask stopped request) :
    Turn journal a id none
      (some (Job.submitted stopped { request with resourceLanes := lanes } order))
  | linked {job child hasTask stopped request} (ha : a = .submit child hasTask stopped request)
    (hof : request.metadata.retryOf = id) (hok : State.retryable job = true) :
    Turn journal a id (some job)
      (some (job.withSnapshot fun p => { p with retriedAs := child }).notify)
  | forgotten {job} (ha : a = .forget id) (ht : isTerminal job.state = true)
    (hx : job.executing = false) : Turn journal a id (some job) none
  | steered {job control}
    (ha : (∃ ids, a = .control ids control ∧ id ∈ ids) ∨ a = .cancelReply id ∧ control = .cancel)
    (hl : isTerminal job.state = false) (hc : job.result.snapshot.cancelRequested = false)
    (hd : control = .start → job.result.snapshot.deferred = true) :
    Turn journal a id (some job) (some (job.steered control).notify)
  | replied {job answer now prompt} (ha : a = .reply id answer now)
    (hi : job.result.snapshot.interaction = some prompt) (hs : job.state = .waitingForUser)
    (hid : prompt.id = answer.requestId) (hx : job.executing = false)
    (hc : job.result.snapshot.cancelRequested = false) (hstop : job.stopRequested = false)
    (hd : expired job.request.deadline now = false) (hchoice : answer.choice ∈ prompt.choices) :
    Turn journal a id (some job) (some ((job.answered answer).moved job.resume))
  | foregrounded {job foreground} (ha : a = .setForeground id foreground)
    (hl : isTerminal job.state = false) (hne : job.result.snapshot.foreground ≠ foreground) :
    Turn journal a id (some job) (some (job.withForeground foreground).notify)
  | reordered {job ids order} (ha : a = .reorderQueued ids)
    (hd : job.result.snapshot.deferred = true) (hc : job.result.snapshot.cancelRequested = false) :
    Turn journal a id (some job)
      (some { job.withSnapshot fun p => { p with queueOrder := order } with
        receiptSaved := false }.notify)
  | shutDown {job} (ha : a = .shutdown) (hl : isTerminal job.state = false) :
    Turn journal a id (some job)
      (some (job.withSnapshot fun p => { p with cancelRequested := true }))
  | stopped {job} (ha : a = .requestStop id ∨ a = .externalStop id) :
    Turn journal a id (some job) (some { job with stopRequested := true })
  | paused {job now} (ha : a = .pick now) (hl : isTerminal job.state = false)
    (hx : job.executing = false) (habort : job.abortAt now = none)
    (hp : job.result.snapshot.pauseRequested = true) (hs : job.state ≠ .paused)
    (hw : job.state ≠ .waitingForUser)
    (hc : ¬ (job.state = .committing ∧ job.commitEntered = true)) :
    Turn journal a id (some job) (some ({ job with resume := job.state }.moved .paused))
  | taken {job now} (ha : a = .pick now) (hl : isTerminal job.state = false)
    (hx : job.executing = false) (hr : job.abortAt now = none → Ready journal now job) :
    Turn journal a id (some job)
      (some ((job.readied (job.abortAt now)).prepared.taken (job.abortAt now)))
  | receiptTaken {job claim} (ha : a = .takeReceipt id) (hp : job.phase = .claimed claim)
    (habort : claim.abort = none) (hr : claim.receiptOnly = true) :
    Turn journal a id (some job) (some { job with
      phase := .claimed { claim with receipt := some job.result.snapshot.queueOrder } })
  | receiptFailed {job claim e} (ha : a = .saveReceipt id (some e))
    (hp : job.phase = .claimed claim) (habort : claim.abort = none)
    (hr : claim.receiptOnly = true) :
    Turn journal a id (some job)
      (some { job with phase := .claimed { claim with abort := some e } })
  | receiptSaved {job claim order} (ha : a = .saveReceipt id none) (hp : job.phase = .claimed claim)
    (habort : claim.abort = none) (hr : claim.receiptOnly = true)
    (hreceipt : claim.receipt = some order) :
    Turn journal a id (some job) (some { job with
      receiptSaved := order == job.result.snapshot.queueOrder
      executing := false
      phase := .idle })
  | again {job claim input now} (ha : a = .advance id input now) (hp : job.phase = .claimed claim)
    (hgo : ¬ (claim.abort = none ∧ claim.receiptOnly = true))
    (hretry : (job.advanced journal claim input).2.retry = true)
    (hmay : (job.advanced journal claim input).1.MayRetry (job.advanced journal claim input).2) :
    Turn journal a id (some job) (some ((job.advanced journal claim input).1.delayed
      (job.advanced journal claim input).2 now))
  | settled {job claim input now} (ha : a = .advance id input now) (hp : job.phase = .claimed claim)
    (hgo : ¬ (claim.abort = none ∧ claim.receiptOnly = true)) :
    Turn journal a id (some job) (some (Job.resolved (Job.verdict id now
      (job.advanced journal claim input).1 (job.advanced journal claim input).2)))
  | collected {job t effects fault} (ha : a = .collect id effects fault)
    (hp : job.phase = .ended t) : Turn journal a id (some job) (some (job.gathered t effects fault))
  | finished {job t collected input} (ha : a = .finish id input)
    (hp : job.phase = .collected t collected) : Turn journal a id (some job)
      (some (job.finished t (job.cleanup journal collected input)))

/-- One turn of the job `id`, and what it does to the rest of the scheduler. -/
structure Moves (a : Action) (id : JobId) (o o' : Option Job) (s s' : State) : Prop where
  find : s.jobs.find id = o
  turn : Turn s.journal a id o o'
  jobs : s'.jobs = s.jobs.put id o'
  journal : s'.journal = s.journal
  limit : s'.concurrencyLimit = s.concurrencyLimit
  issued : s'.issued = if o = none then id :: s.issued else s.issued
  fresh : o = none → id ∉ s.issued
  admitted : o'.isSome → weight o ≤ s.admitted → s'.admitted + weight o = s.admitted + weight o'
  forgotten : o' = none → s'.admitted = s.admitted
  limited : weight o < weight o' → s.admitted < s.concurrencyLimit
  stops : s.stops ⊆ s'.stops

/-- Nothing that a job knows of. -/
structure Still (a : Action) (s s' : State) : Prop where
  jobs : s'.jobs = s.jobs
  journal : s'.journal = s.journal
  issued : s'.issued = s.issued
  admitted : s'.admitted = s.admitted
  limit : (∀ n, a ≠ .setConcurrencyLimit n) → s'.concurrencyLimit = s.concurrencyLimit
  stops : ∀ i ∈ s.stops, i ∈ s'.stops ∨ a = .requestStop i

/-- A move, or none. -/
inductive Goes (a : Action) (s s' : State) : Prop
  | still (h : Still a s s')
  | moves {id o o'} (h : Moves a id o o' s s')

/-- What a section does. -/
abbrev Evolves (a : Action) : State → State → Prop := ReflTransGen (Goes a)

end Hc.Operations
