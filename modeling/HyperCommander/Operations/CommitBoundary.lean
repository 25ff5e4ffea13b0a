import HyperCommander.Operations.Worker

/-!
# The commit boundary of a job

A job is in its commit from the turn of a worker that sets `commitEntered_` to the return of the
step that takes it out again (`Inside`). `CommitTurn` says what one section under the mutex can do
to one job.

* `CommitOk`: what every turn keeps of a job.
* `CommitTurn.enters`: a job gets into its commit only by the turn of a worker that finds it
  claimable.
* `CommitTurn.leaves`: it gets out only when the worker comes back with a step that is over.
-/

namespace Hc.Operations

open Storage Outcome Relation

/-! ## The step of a task -/

/-- `JobStepContext`. The query for a pause, which every context has, is left out: helpers of a task
look at it between their own units of work. -/
structure StepContext where
  stoppable : Bool
  deadline : Option Nat
  committing : Bool
  answer : Option InteractionAnswer
  retryAttempt : Nat

/-- `Context` of `JobScheduler::run`. -/
def contextOf (job : Job) (claim : Claim) : StepContext where
  stoppable := !claim.committing
  deadline := if claim.committing then none else job.request.deadline
  committing := claim.committing
  answer := claim.answer
  retryAttempt := claim.retryAttempt

/-- The step asks to stay in the commit. -/
def Stays (step : JobStep) : Prop :=
  step.next = .committing ∧ step.retry = false ∧ step.deferFor = 0

/-! ## Jobs in their commit -/

/-- The job is in its commit: a worker claimed it and no step has taken it out. -/
structure Inside (job : Job) : Prop where
  state : job.state = .committing
  entered : job.commitEntered = true
  phase : job.phase = .idle ∨ ∃ claim, job.phase = .claimed claim

/-- A worker may claim the commit of the job: nothing that would keep it out was recorded. -/
structure Claimable (now : Nat) (job : Job) : Prop where
  state : job.state = .committing
  entered : job.commitEntered = false
  phase : job.phase = .idle
  cancelled : job.result.snapshot.cancelRequested = false
  stopped : job.stopRequested = false
  deadline : expired job.request.deadline now = false
  paused : job.result.snapshot.pauseRequested = false

/-- What every turn keeps of a job. -/
structure CommitOk (job : Job) : Prop where
  entered : job.commitEntered = true → job.state = .committing ∨ isTerminal job.state = true
  deferred : job.result.snapshot.deferred = true →
    job.state = .queued ∨ job.state = .paused ∧ job.resume = .queued
  claimed : ∀ claim, job.phase = .claimed claim → claim.abort = none → claim.receiptOnly = false →
    job.result.snapshot.deferred = false
  committing : ∀ claim, job.phase = .claimed claim → claim.abort = none → claim.committing = true →
    Inside job
  inside : Inside job → job.admitted = true ∧ job.lanesHeld = true ∧
    ∀ claim, job.phase = .claimed claim →
      claim.abort = none ∧ claim.committing = true ∧ claim.receiptOnly = false

/-! ## Turns -/

/-- A cancellation is not taken back. -/
structure Raised (job job' : Job) : Prop where
  cancelled : job.result.snapshot.cancelRequested = true →
    job'.result.snapshot.cancelRequested = true
  stopped : job.stopRequested = true → job'.stopRequested = true

/-- Nothing that the commit depends on, save that flags are raised. -/
structure Flags (job job' : Job) : Prop extends Raised job job' where
  state : job'.state = job.state
  resume : job'.resume = job.resume
  phase : job'.phase = job.phase
  entered : job'.commitEntered = job.commitEntered
  admitted : job'.admitted = job.admitted
  lanesHeld : job'.lanesHeld = job.lanesHeld
  deferred : job'.result.snapshot.deferred = true → job.result.snapshot.deferred = true

/-- A turn, as far as the commit depends on it. -/
inductive CommitTurn (journal : Bool) (a : Action) (id : JobId) : Option Job → Option Job → Prop
  | submitted {job} (hs : job.state = .queued) (hp : job.phase = .idle)
    (he : job.commitEntered = false) : CommitTurn journal a id none (some job)
  | forgotten {job} (ht : isTerminal job.state = true) : CommitTurn journal a id (some job) none
  | flags {job job'} (h : Flags job job') : CommitTurn journal a id (some job) (some job')
  /-- Resumed, or answered. -/
  | resumed {job job'} (hraised : Raised job job')
    (hs : job.state = .paused ∨ job.state = .waitingForUser)
    (hs' : job'.state = job.resume) (hp : job'.phase = job.phase)
    (he : job'.commitEntered = job.commitEntered)
    (hd : job'.result.snapshot.deferred = job.result.snapshot.deferred) :
    CommitTurn journal a id (some job) (some job')
  /-- Paused at a safe point. -/
  | paused {job job' now} (hraised : Raised job job') (ha : a = .pick now)
    (hl : isTerminal job.state = false) (hx : job.executing = false) (hn : job.state ≠ .paused)
    (hc : ¬ (job.state = .committing ∧ job.commitEntered = true))
    (hs' : job'.state = .paused) (hr : job'.resume = job.state) (hp : job'.phase = job.phase)
    (he : job'.commitEntered = job.commitEntered)
    (hd : job'.result.snapshot.deferred = job.result.snapshot.deferred) :
    CommitTurn journal a id (some job) (some job')
  /-- Taken by a worker. -/
  | taken {job job' now claim} (hraised : Raised job job') (ha : a = .pick now)
    (hl : isTerminal job.state = false) (hx : job.executing = false)
    (habort : claim.abort = job.abortAt now)
    (hpause : claim.abort = none → job.result.snapshot.pauseRequested = true →
      job.state = .committing ∧ job.commitEntered = true)
    (hs' : job'.state = job.state ∨
      job.state = .queued ∧ job.result.snapshot.deferred = false ∧ job'.state = .preparing)
    (hr : job'.resume = job.resume) (hp : job'.phase = .claimed claim)
    (hd : job'.result.snapshot.deferred = job.result.snapshot.deferred)
    (he : job'.commitEntered =
      (job.commitEntered || (job'.state == .committing && claim.abort.isNone)))
    (hcommit : claim.committing = (job'.state == .committing))
    (hreceipt : claim.receiptOnly = job.result.snapshot.deferred)
    (hheld : claim.abort = none → job.result.snapshot.deferred = false →
      job'.admitted = true ∧ job'.lanesHeld = true) : CommitTurn journal a id (some job) (some job')
  /-- The receipt of a deferred job is taken or could not be saved. -/
  | receipt {job job' claim claim'} (hp : job.phase = .claimed claim) (habort : claim.abort = none)
    (hreceipt : claim.receiptOnly = true) (h : Flags { job with phase := .claimed claim' } job')
    (hcommit : claim'.committing = claim.committing) (hreceipt' : claim'.receiptOnly = true) :
    CommitTurn journal a id (some job) (some job')
  /-- The receipt is saved. -/
  | saved {job job' claim} (hp : job.phase = .claimed claim) (habort : claim.abort = none)
      (hreceipt : claim.receiptOnly = true) (h : Flags { job with phase := .idle } job') :
    CommitTurn journal a id (some job) (some job')
  /-- The step of the task is to be done again. -/
  | again {job job' claim} (hp : job.phase = .claimed claim) (habort : claim.abort = none)
    (hn : job.state ≠ .committing) (h : Flags { job with phase := .idle } job') :
    CommitTurn journal a id (some job) (some job')
  /-- The worker is back and the job goes on. -/
  | goes {job job' claim input now next} (hraised : Raised job job')
    (ha : a = .advance id input now) (hp : job.phase = .claimed claim) (habort : claim.abort = none)
    (hreceipt : claim.receiptOnly = false)
    (hs' : job'.state = next ∨ job'.state = .paused ∧ job.state ≠ .committing)
    (hp' : job'.phase = .idle)
    (he : job'.commitEntered = (job.commitEntered && next == .committing))
    (hd : job'.result.snapshot.deferred = job.result.snapshot.deferred)
    (hstay : job.state = .committing → next = .committing →
      job'.admitted = job.admitted ∧ job'.lanesHeld = job.lanesHeld)
    (hleave : job.state = .committing → next ≠ .committing →
      ¬ Stays (job.advanced journal claim input).2) : CommitTurn journal a id (some job) (some job')
  /-- The worker is back and the job is to end. -/
  | ends {job job' claim input now t} (ha : a = .advance id input now)
    (hp : job.phase = .claimed claim) (h : Flags { job with phase := .ended t } job')
    (hleave : claim.abort = none → job.state = .committing →
      ¬ Stays (job.advanced journal claim input).2) : CommitTurn journal a id (some job) (some job')
  | collected {job job' t cleanup} (hp : job.phase = .ended t)
    (h : Flags { job with phase := .collected t cleanup } job') :
    CommitTurn journal a id (some job) (some job')
  | finished {job job' t cleanup} (hraised : Raised job job')
      (hp : job.phase = .collected t cleanup) (ht : isTerminal job'.state = true)
      (hp' : job'.phase = .idle) (hd : job'.result.snapshot.deferred = false) :
      CommitTurn journal a id (some job) (some job')

section

variable {journal : Bool} {a : Action} {id : JobId} {job job' : Job}

theorem Flags.inside (h : Flags job job') : Inside job' ↔ Inside job := by
  refine ⟨fun hi => ⟨h.state ▸ hi.state, h.entered ▸ hi.entered, h.phase ▸ hi.phase⟩, fun hi => ?_⟩
  exact ⟨h.state.trans hi.state, h.entered.trans hi.entered, h.phase ▸ hi.phase⟩

theorem CommitOk.flags (h : CommitOk job) (hf : Flags job job') : CommitOk job' where
  entered := by rw [hf.state, hf.entered]; exact h.entered
  deferred hd := by rw [hf.state, hf.resume]; exact h.deferred (hf.deferred hd)
  claimed claim hp ha hr := by
    have hno := h.claimed claim (hf.phase ▸ hp) ha hr
    by_contra hd
    rw [hf.deferred (by simpa using hd)] at hno
    cases hno
  committing claim hp ha hc := hf.inside.mpr (h.committing claim (hf.phase ▸ hp) ha hc)
  inside hi := by
    rw [hf.admitted, hf.lanesHeld, hf.phase]
    exact h.inside (hf.inside.mp hi)

theorem CommitOk.not_entered (h : CommitOk job) (hl : isTerminal job.state = false)
    (hn : job.state ≠ .committing) : job.commitEntered = false := by
  by_contra hne
  rcases h.entered (by simpa using hne) with h | h
  · exact hn h
  · rw [hl] at h
    cases h

/-- A job that no task is called for, outside of its commit. -/
theorem CommitOk.of_unclaimed (hp : ∀ claim, job.phase ≠ .claimed claim)
    (he : job.commitEntered = true → job.state = .committing ∨ isTerminal job.state = true)
    (hd : job.result.snapshot.deferred = true →
      job.state = .queued ∨ job.state = .paused ∧ job.resume = .queued)
    (hi : Inside job → job.admitted = true ∧ job.lanesHeld = true) : CommitOk job where
  entered := he
  deferred := hd
  claimed claim hc := absurd hc (hp claim)
  committing claim hc := absurd hc (hp claim)
  inside h := ⟨(hi h).1, (hi h).2, fun claim hc => absurd hc (hp claim)⟩

theorem Phase.idle_ne {phase : Phase} (h : phase = .idle) (claim : Claim) :
    phase ≠ .claimed claim := by
  rw [h]
  exact nofun

/-- A job that is to end is out of its commit. -/
theorem CommitOk.of_ended (h : CommitOk job) (hp : ∀ claim, job'.phase ≠ .claimed claim)
    (hne : job'.phase ≠ .idle) (hs : job'.state = job.state) (hr : job'.resume = job.resume)
    (he : job'.commitEntered = job.commitEntered)
    (hd : job'.result.snapshot.deferred = true → job.result.snapshot.deferred = true) :
    CommitOk job' := by
  refine .of_unclaimed hp (by rw [hs, he]; exact h.entered)
    (fun h' => by rw [hs, hr]; exact h.deferred (hd h')) fun hi => ?_
  rcases hi.phase with hc | ⟨claim, hc⟩
  · exact absurd hc hne
  · exact absurd hc (hp claim)

/-- A deferred job with a receipt is not in its commit. -/
theorem CommitOk.receipt (h : CommitOk job) (hs : Sound job) {claim : Claim}
    (hp : job.phase = .claimed claim) (hr : claim.receiptOnly = true) :
    job.commitEntered = false := by
  have hl := hs.live (by rw [hp]; simp)
  by_contra hne
  have he : job.commitEntered = true := by simpa using hne
  rcases h.entered he with hs | ht
  · have := ((h.inside ⟨hs, he, .inr ⟨claim, hp⟩⟩).2.2 claim hp).2.2
    rw [hr] at this
    cases this
  · rw [hl] at ht
    cases ht

theorem CommitOk.taken {now : Nat} {claim : Claim} (h : CommitOk job)
    (hl : isTerminal job.state = false) (habort : claim.abort = job.abortAt now)
    (hs' : job'.state = job.state ∨
      job.state = .queued ∧ job.result.snapshot.deferred = false ∧ job'.state = .preparing)
    (hr : job'.resume = job.resume) (hp : job'.phase = .claimed claim)
    (hd : job'.result.snapshot.deferred = job.result.snapshot.deferred)
    (he : job'.commitEntered =
      (job.commitEntered || (job'.state == .committing && claim.abort.isNone)))
    (hcommit : claim.committing = (job'.state == .committing))
    (hreceipt : claim.receiptOnly = job.result.snapshot.deferred)
    (hheld : claim.abort = none → job.result.snapshot.deferred = false →
      job'.admitted = true ∧ job'.lanesHeld = true) : CommitOk job' := by
  have hcs : job'.state = .committing → job.state = .committing := by
    intro hc
    rcases hs' with h | ⟨-, -, h⟩
    · rw [← h]; exact hc
    · rw [hc] at h; cases h
  have hent : job'.commitEntered = true → job'.state = .committing ∧ claim.abort = none := by
    intro ht
    rw [he, Bool.or_eq_true, Bool.and_eq_true, beq_iff_eq, Option.isNone_iff_eq_none] at ht
    rcases ht with ht | ht
    · rcases h.entered ht with hs | hs
      · refine ⟨?_, ?_⟩
        · rcases hs' with h | ⟨h, -, -⟩
          · rw [h, hs]
          · rw [hs] at h; cases h
        · rw [habort, Job.abortAt, if_pos ⟨hs, ht⟩]
      · rw [hl] at hs; cases hs
    · exact ht
  have hclaim : ∀ c, job'.phase = .claimed c → c = claim := by
    intro c hc
    rw [hp] at hc
    injection hc with hc
    exact hc.symm
  refine ⟨fun ht => .inl (hent ht).1, fun hdef => ?_, ?_, ?_, ?_⟩
  · rw [hd] at hdef
    rw [hr]
    rcases hs' with h' | ⟨-, h', -⟩
    · rw [h']; exact h.deferred hdef
    · rw [hdef] at h'; cases h'
  · intro c hc _ hro
    obtain rfl := hclaim c hc
    rw [hd, ← hreceipt, hro]
  · intro c hc hab hcm
    obtain rfl := hclaim c hc
    rw [hcommit, beq_iff_eq] at hcm
    refine ⟨hcm, ?_, .inr ⟨c, hp⟩⟩
    rw [he, hcm, hab]
    simp
  · intro hi
    obtain ⟨hst, hab⟩ := hent hi.entered
    have hno : job.result.snapshot.deferred = false := by
      by_contra hne
      rcases h.deferred (by simpa using hne) with hs | ⟨hs, -⟩
      · rw [hcs hst] at hs; cases hs
      · rw [hcs hst] at hs; cases hs
    refine ⟨(hheld hab hno).1, (hheld hab hno).2, fun c hc => ?_⟩
    obtain rfl := hclaim c hc
    exact ⟨hab, by rw [hcommit, hst]; rfl, by rw [hreceipt, hno]⟩

variable {o o' : Option Job} {now : Nat}

/-- What every turn keeps. -/
theorem CommitOk.turn (hsound : ∀ job, o = some job → Sound job)
    (h : ∀ job, o = some job → CommitOk job) (ht : CommitTurn journal a id o o') :
    ∀ job, o' = some job → CommitOk job := by
  cases ht with
  | submitted hs hp he =>
    rintro job ⟨⟩
    refine .of_unclaimed (Phase.idle_ne hp) (fun h => ?_) (fun _ => .inl hs) fun hi => ?_
    · rw [he] at h; cases h
    · rw [hi.state] at hs; cases hs
  | forgotten => exact fun _ h => by cases h
  | flags hf => rintro _ ⟨⟩; exact (h _ rfl).flags hf
  | @resumed job job' _ hs hs' hp he hd =>
    rintro _ ⟨⟩
    have hok := h _ rfl
    have hno : job.state ≠ .committing ∧ isTerminal job.state = false := by
      rcases hs with hs | hs <;> rw [hs] <;> decide
    have hent := hok.not_entered hno.2 hno.1
    refine ⟨fun h => ?_, fun h => ?_, fun c hc ha hro => ?_, fun c hc ha hcm => ?_, fun hi => ?_⟩
    · rw [he, hent] at h; cases h
    · rw [hd] at h
      rcases hok.deferred h with hq | ⟨-, hq⟩
      · rcases hs with hs | hs <;> rw [hs] at hq <;> cases hq
      · exact .inl (hs'.trans hq)
    · rw [hd]; exact hok.claimed c (hp ▸ hc) ha hro
    · exact absurd (hok.committing c (hp ▸ hc) ha hcm).state hno.1
    · have := hi.entered
      rw [he, hent] at this
      cases this
  | @paused job job' now _ ha hl hx hn hc hs' hr hp he hd =>
    rintro _ ⟨⟩
    have hok := h _ rfl
    have hent : job.commitEntered = false := by
      by_contra hne
      have ht : job.commitEntered = true := by simpa using hne
      rcases hok.entered ht with hs | hs
      · exact hc ⟨hs, ht⟩
      · rw [hl] at hs; cases hs
    refine .of_unclaimed (Phase.idle_ne (hp.trans ((hsound _ rfl).idle hx))) (fun h => ?_)
      (fun h => ?_) fun hi => ?_
    · rw [he, hent] at h; cases h
    · rw [hd] at h
      rcases hok.deferred h with hq | ⟨hq, -⟩
      · exact .inr ⟨hs', hr.trans hq⟩
      · exact absurd hq hn
    · have hst := hi.state
      rw [hs'] at hst
      cases hst
  | taken _ ha hl hx habort hpause hs' hr hp hd he hcommit hreceipt hheld =>
    rintro _ ⟨⟩
    exact (h _ rfl).taken hl habort hs' hr hp hd he hcommit hreceipt hheld
  | @receipt job job' claim claim' hp habort hreceipt hf hcommit hreceipt' =>
    rintro _ ⟨⟩
    have hok := h _ rfl
    have hent := hok.receipt (hsound _ rfl) hp hreceipt
    have hmid : CommitOk { job with phase := .claimed claim' } := by
      have hout : ¬ Inside { job with phase := .claimed claim' } := fun hi => by
        have := hi.entered
        rw [show job.commitEntered = false from hent] at this
        cases this
      refine ⟨hok.entered, hok.deferred, ?_, ?_, fun hi => absurd hi hout⟩
      · rintro c ⟨⟩ _ hro
        rw [hreceipt'] at hro; cases hro
      · rintro c ⟨⟩ _ hcm
        rw [hcommit] at hcm
        have := (hok.committing claim hp habort hcm).entered
        rw [hent] at this; cases this
    exact hmid.flags hf
  | @saved job job' claim hp habort hreceipt hf =>
    rintro _ ⟨⟩
    have hok := h _ rfl
    have hent := hok.receipt (hsound _ rfl) hp hreceipt
    have hidle : CommitOk { job with phase := .idle } := by
      refine .of_unclaimed (Phase.idle_ne rfl) hok.entered hok.deferred fun hi => ?_
      have := hi.entered
      rw [show job.commitEntered = false from hent] at this; cases this
    exact hidle.flags hf
  | @again job job' claim hp habort hn hf =>
    rintro _ ⟨⟩
    have hok := h _ rfl
    have hidle : CommitOk { job with phase := .idle } :=
      .of_unclaimed (Phase.idle_ne rfl) hok.entered hok.deferred fun hi => absurd hi.state hn
    exact hidle.flags hf
  | @goes job job' claim input now next _ ha hp habort hreceipt hs' hp' he hd hstay hleave =>
    rintro _ ⟨⟩
    have hok := h _ rfl
    have hl := (hsound _ rfl).live (by rw [hp]; simp)
    have hent : job'.commitEntered = true → job.state = .committing ∧ next = .committing ∧
        job.commitEntered = true := by
      intro ht
      rw [he, Bool.and_eq_true, beq_iff_eq] at ht
      rcases hok.entered ht.1 with hs | hs
      · exact ⟨hs, ht.2, ht.1⟩
      · rw [hl] at hs; cases hs
    refine .of_unclaimed (Phase.idle_ne hp') (fun ht => ?_) (fun hdef => ?_) fun hi => ?_
    · obtain ⟨hs, hnx, -⟩ := hent ht
      rcases hs' with h | ⟨-, h⟩
      · exact .inl (h.trans hnx)
      · exact absurd hs h
    · rw [hd, hok.claimed claim hp habort hreceipt] at hdef; cases hdef
    · obtain ⟨hs, hnx, hce⟩ := hent hi.entered
      obtain ⟨h1, h2⟩ := hstay hs hnx
      obtain ⟨h3, h4, -⟩ := hok.inside ⟨hs, hce, .inr ⟨claim, hp⟩⟩
      exact ⟨h1.trans h3, h2.trans h4⟩
  | @ends job job' claim input now t ha hp hf hleave =>
    rintro _ ⟨⟩
    have hend : CommitOk { job with phase := .ended t } :=
      (h _ rfl).of_ended (fun _ h => by cases h) nofun rfl rfl rfl fun h => h
    exact hend.flags hf
  | @collected job job' t cleanup hp hf =>
    rintro _ ⟨⟩
    have hend : CommitOk { job with phase := .collected t cleanup } :=
      (h _ rfl).of_ended (fun _ h => by cases h) nofun rfl rfl rfl fun h => h
    exact hend.flags hf
  | @finished job job' t cleanup _ hp ht hp' hd =>
    rintro _ ⟨⟩
    refine .of_unclaimed (Phase.idle_ne hp') (fun _ => .inr ht) (fun h => ?_) fun hi => ?_
    · rw [hd] at h; cases h
    · rw [hi.state] at ht; cases ht

/-- A job gets into its commit only by the turn of a worker that finds it claimable. -/
theorem CommitTurn.enters (hsound : Sound job) (h : CommitOk job)
    (ht : CommitTurn journal a id (some job) (some job')) (hi : Inside job') (hn : ¬ Inside job) :
    ∃ now, a = .pick now ∧ Claimable now job := by
  have hst := hi.state
  have hent := hi.entered
  cases ht with
  | flags hf => exact absurd (hf.inside.mp hi) hn
  | resumed _ hs hs' hp he hd =>
    rw [he, h.not_entered] at hent
    · cases hent
    · rcases hs with hs | hs <;> rw [hs] <;> rfl
    · rcases hs with hs | hs <;> rw [hs] <;> decide
  | paused _ ha hl hx hn' hc hs' =>
    rw [hs'] at hst
    cases hst
  | @taken _ _ now claim _ ha hl hx habort hpause hs' hr hp hd he =>
    have hcs : job.state = .committing := by
      rcases hs' with h | ⟨-, -, h⟩
      · rw [← h]; exact hst
      · rw [hst] at h; cases h
    have hidle := hsound.idle hx
    have hno : job.commitEntered = false := by
      by_contra hne
      exact hn ⟨hcs, by simpa using hne, .inl hidle⟩
    have hab : claim.abort = none := by
      rw [he, hno, Bool.false_or, Bool.and_eq_true, Option.isNone_iff_eq_none] at hent
      exact hent.2
    have hfree := hab
    rw [habort, Job.abortAt, if_neg (by rw [hno]; simp)] at hfree
    split at hfree
    · cases hfree
    rename_i hcancel
    split at hfree
    · cases hfree
    rename_i hdead
    rw [not_or] at hcancel
    refine ⟨now, ha, hcs, hno, hidle, by simpa using hcancel.1, by simpa using hcancel.2,
      by simpa using hdead, ?_⟩
    by_contra hne
    have := (hpause hab (by simpa using hne)).2
    rw [hno] at this
    cases this
  | receipt hp habort hreceipt hf =>
    have := (hf.inside.mp hi).entered
    rw [show job.commitEntered = false from h.receipt hsound hp hreceipt] at this
    cases this
  | saved hp habort hreceipt hf =>
    have := (hf.inside.mp hi).entered
    rw [show job.commitEntered = false from h.receipt hsound hp hreceipt] at this
    cases this
  | again hp habort hn' hf => exact absurd (hf.inside.mp hi).state hn'
  | @goes _ _ claim input now next _ ha hp habort hreceipt hs' hp' he =>
    rw [he, Bool.and_eq_true] at hent
    rcases h.entered hent.1 with hs | hs
    · exact absurd ⟨hs, hent.1, .inr ⟨claim, hp⟩⟩ hn
    · rw [hsound.live (by rw [hp]; simp)] at hs; cases hs
  | ends ha hp hf =>
    rcases (hf.inside.mp hi).phase with h | ⟨c, h⟩ <;> cases h
  | collected hp hf =>
    rcases (hf.inside.mp hi).phase with h | ⟨c, h⟩ <;> cases h
  | finished _ hp ht =>
    rw [hst] at ht
    cases ht

/-- A job in its commit gets out of it only when a worker is back with a step that does not ask to
stay. -/
theorem CommitTurn.leaves (hsound : Sound job) (h : CommitOk job)
    (ht : CommitTurn journal a id (some job) o) (hi : Inside job) :
    (∃ job', o = some job' ∧ Inside job') ∨
      ∃ input now claim, a = .advance id input now ∧ job.phase = .claimed claim ∧
        ¬ Stays (job.advanced journal claim input).2 := by
  have hst := hi.state
  have hent := hi.entered
  cases ht with
  | forgotten ht => rw [hst] at ht; cases ht
  | flags hf => exact .inl ⟨_, rfl, hf.inside.mpr hi⟩
  | resumed _ hs => rcases hs with hs | hs <;> rw [hst] at hs <;> cases hs
  | paused _ ha hl hx hn hc => exact absurd ⟨hst, hent⟩ hc
  | @taken _ job' now claim _ ha hl hx habort hpause hs' hr hp hd he =>
    refine .inl ⟨_, rfl, ?_, by rw [he, hent, Bool.true_or], .inr ⟨claim, hp⟩⟩
    rcases hs' with h | ⟨h, -⟩
    · exact h.trans hst
    · rw [hst] at h; cases h
  | receipt hp habort hreceipt =>
    rw [h.receipt hsound hp hreceipt] at hent
    cases hent
  | saved hp habort hreceipt =>
    rw [h.receipt hsound hp hreceipt] at hent
    cases hent
  | again hp habort hn => exact absurd hst hn
  | @goes _ job' claim input now next _ ha hp habort hreceipt hs' hp' he hd hstay hleave =>
    by_cases hnx : next = .committing
    · refine .inl ⟨_, rfl, ?_, by rw [he, hent, hnx]; rfl, .inl hp'⟩
      rcases hs' with h | ⟨-, h⟩
      · exact h.trans hnx
      · exact absurd hst h
    · exact .inr ⟨input, now, claim, ha, hp, hleave hst hnx⟩
  | @ends _ job' claim input now t ha hp hf hleave =>
    exact .inr ⟨input, now, claim, ha, hp, hleave ((h.inside hi).2.2 claim hp).1 hst⟩
  | collected hp => rcases hi.phase with h | ⟨c, h⟩ <;> rw [hp] at h <;> cases h
  | finished _ hp => rcases hi.phase with h | ⟨c, h⟩ <;> rw [hp] at h <;> cases h

/-! ## Every turn as one of these -/

theorem Raised.notify (h : Raised job job') : Raised job job'.notify where
  cancelled hc := by
    show (job'.result.snapshot.cancelRequested || job'.stopRequested) = true
    rw [h.cancelled hc, Bool.true_or]
  stopped := h.stopped

theorem Raised.moved (h : Raised job job') (next : JobState) : Raised job (job'.moved next) := by
  obtain ⟨c, adm, heq, hc, -⟩ := job'.moved_eq next
  rw [heq]
  exact ⟨fun h' => hc (h.cancelled h'), h.stopped⟩

/-- A job that only its caller has changed. -/
theorem Flags.of_same (hr : Raised job job') (h1 : job'.state = job.state)
    (h2 : job'.resume = job.resume) (h3 : job'.phase = job.phase)
    (h4 : job'.commitEntered = job.commitEntered) (h5 : job'.admitted = job.admitted)
    (h6 : job'.lanesHeld = job.lanesHeld)
    (h7 : job'.result.snapshot.deferred = job.result.snapshot.deferred) : Flags job job' :=
  ⟨hr, h1, h2, h3, h4, h5, h6, fun h => h7.symm.trans h⟩

theorem CommitTurn.steered (control : JobControl) :
    CommitTurn journal a id (some job) (some (job.steered control).notify) := by
  cases control with
  | cancel =>
    have hr : Raised job (job.steered .cancel) := ⟨fun _ => rfl, fun h => h⟩
    exact .flags (.of_same hr.notify rfl rfl rfl rfl rfl rfl rfl)
  | start =>
    have hr : Raised job (job.steered .start) := ⟨fun h => h, fun h => h⟩
    exact .flags ⟨hr.notify, rfl, rfl, rfl, rfl, rfl, rfl, nofun⟩
  | pause =>
    have hr : Raised job (job.steered .pause) := ⟨fun h => h, fun h => h⟩
    exact .flags (.of_same hr.notify rfl rfl rfl rfl rfl rfl rfl)
  | resume =>
    have hr : Raised job (job.withSnapshot fun p => { p with pauseRequested := false }) :=
      ⟨fun h => h, fun h => h⟩
    unfold Job.steered
    dsimp only
    split
    · rename_i hs
      obtain ⟨c, adm, heq, -⟩ := Job.moved_eq
        (job.withSnapshot fun p => { p with pauseRequested := false }) job.resume
      refine .resumed (hr.moved _).notify (.inl hs) ?_ ?_ ?_ ?_
      all_goals
        rw [show (job.withSnapshot fun p => { p with pauseRequested := false }).resume = job.resume
          from rfl, heq]
        rfl
    · exact .flags (.of_same hr.notify rfl rfl rfl rfl rfl rfl rfl)

/-- The worker that takes a job. -/
theorem CommitTurn.takenAt (ha : a = .pick now) (hl : isTerminal job.state = false)
    (hx : job.executing = false) (hr : job.abortAt now = none → Ready journal now job) :
    CommitTurn journal a id (some job)
      (some ((job.readied (job.abortAt now)).prepared.taken (job.abortAt now))) := by
  obtain ⟨lanes, adm, heq, hheld, -⟩ := job.readied_eq (job.abortAt now)
  obtain ⟨state, c, heq', hs, -, hc, -⟩ := (job.readied (job.abortAt now)).prepared_eq
  rw [heq] at heq' hs hc
  rw [heq, heq']
  exact .taken ⟨hc, fun h => h⟩ ha hl hx rfl (fun h => (hr h).pause) hs rfl rfl rfl rfl rfl rfl
    fun h1 h2 => (hheld h1 h2).symm

/-- The worker is back from a step that is over. -/
theorem CommitTurn.settledAt {claim : Claim} {input : State.StepInput}
    (ha : a = .advance id input now) (hp : job.phase = .claimed claim)
    (hgo : ¬ (claim.abort = none ∧ claim.receiptOnly = true)) :
    CommitTurn journal a id (some job) (some (Job.resolved (Job.verdict id now
      (job.advanced journal claim input).1 (job.advanced journal claim input).2))) := by
  obtain ⟨opened, result, heq, hsame, hc, -⟩ := job.advanced_eq journal claim input
  have hstate : result.snapshot.state = job.state := hsame .state
  have hdef : result.snapshot.deferred = job.result.snapshot.deferred := hsame .deferred
  obtain ⟨step', attempt, from_, hj, -, hdelay, hnext, hfail⟩ :=
    Job.verdict_judged id now (job.advanced journal claim input).1
      (job.advanced journal claim input).2
  have habort := @Job.verdict_abort job journal claim input id now
  revert habort hj
  generalize Job.verdict id now _ _ = v
  intro hj habort
  rw [heq] at hj
  -- A step that asks to stay does stay.
  have hstays : Stays (job.advanced journal claim input).2 → from_ = .committing ∧
      step'.deferFor = 0 := fun h => ⟨(hnext h.2.1).trans h.1, hdelay.trans h.2.2⟩
  by_cases ht : isTerminal v.2 = true
  · rw [Job.resolved, if_pos ht]
    cases hj with
    | @goes next error readyAt hsrc hq hpz hw hdone hcm hstay =>
      refine .ends (t := next) ha hp ⟨⟨hc, fun h => h⟩, hstate, rfl, rfl, rfl, rfl, rfl,
        fun h => hdef.symm.trans h⟩ fun _ hs h => ?_
      rw [hstay (hstate.trans hs) (hstays h).1 (hstays h).2] at ht
      cases ht
    | asks => cases ht
  have hnone : claim.abort = none := by
    by_contra hne
    exact ht (habort hne)
  have hreceipt : claim.receiptOnly = false := by
    by_contra hne
    exact hgo ⟨hnone, by simpa using hne⟩
  obtain ⟨state, resume, c, adm, hres, hs', hc', -, hadm⟩ :=
    Job.resolved_eq (v := v) (by simpa using ht)
  rw [hres]
  cases hj with
  | @goes next error readyAt hsrc hq hpz hw hdone hcm hstay =>
    have hgoes : state = next ∨ state = .paused ∧ job.state ≠ .committing := by
      rcases hs' with ⟨h, -⟩ | ⟨h, -, -, hout⟩
      · exact .inl h
      · exact .inr ⟨h, fun hs => hout (hstate.trans hs)⟩
    refine .goes ⟨fun h => hc' (hc h), fun h => h⟩ ha hp hnone hreceipt hgoes rfl rfl hdef
      (fun hs hn => ⟨hadm ?_, rfl⟩) fun hs hne h =>
        hne (hstay (hstate.trans hs) (hstays h).1 (hstays h).2)
    · rcases hs' with ⟨h, -⟩ | ⟨-, -, -, hout⟩
      · exact h.trans hn
      · exact absurd (hstate.trans hs) hout
  | @asks request error readyAt hv hs hi =>
    have hout : job.state ≠ .committing := fun h => hs (hstate.trans h)
    have hgoes : state = .waitingForUser ∨ state = .paused ∧ job.state ≠ .committing := by
      rcases hs' with ⟨h, -⟩ | ⟨h, -⟩
      · exact .inl h
      · exact .inr ⟨h, hout⟩
    exact .goes ⟨fun h => hc' (hc h), fun h => h⟩ ha hp hnone hreceipt hgoes rfl rfl hdef
      (fun h => absurd h hout) fun h => absurd h hout

/-- A turn, as far as the commit depends on it. -/
theorem Turn.commit (hsound : ∀ job, o = some job → Sound job)
    (ht : Turn journal a id o o') : CommitTurn journal a id o o' := by
  cases ht with
  | submitted => exact .submitted rfl rfl rfl
  | linked =>
    exact .flags (.of_same (Raised.notify ⟨fun h => h, fun h => h⟩) rfl rfl rfl rfl rfl rfl rfl)
  | forgotten _ ht => exact .forgotten ht
  | steered => exact .steered _
  | @replied job answer now prompt ha hi hs =>
    have hr : Raised job (job.answered answer) :=
      ⟨fun h => by
        show (job.result.snapshot.cancelRequested || answer.choice == .cancel) = true
        rw [h, Bool.true_or], fun h => h⟩
    obtain ⟨c, adm, heq, -⟩ := (job.answered answer).moved_eq job.resume
    refine .resumed (hr.moved _) (.inr hs) ?_ ?_ ?_ ?_
    all_goals
      rw [heq]
      rfl
  | foregrounded | reordered =>
    exact .flags (.of_same (Raised.notify ⟨fun h => h, fun h => h⟩) rfl rfl rfl rfl rfl rfl rfl)
  | shutDown => exact .flags (.of_same ⟨fun _ => rfl, fun h => h⟩ rfl rfl rfl rfl rfl rfl rfl)
  | stopped => exact .flags (.of_same ⟨fun h => h, fun _ => rfl⟩ rfl rfl rfl rfl rfl rfl rfl)
  | @paused job now ha hl hx habort hp hs hw hc =>
    have hr : Raised job { job with resume := job.state } := ⟨fun h => h, fun h => h⟩
    obtain ⟨c, adm, heq, -⟩ := Job.moved_eq { job with resume := job.state } .paused
    refine .paused (hr.moved _) ha hl hx hs hc ?_ ?_ ?_ ?_ ?_
    all_goals
      rw [heq]
      rfl
  | taken ha hl hx hr => exact .takenAt ha hl hx hr
  | @receiptTaken job claim ha hp habort hr =>
    exact .receipt hp habort hr
      (.of_same ⟨fun h => h, fun h => h⟩ rfl rfl rfl rfl rfl rfl rfl) rfl hr
  | @receiptFailed job claim e ha hp habort hr =>
    exact .receipt hp habort hr
      (.of_same ⟨fun h => h, fun h => h⟩ rfl rfl rfl rfl rfl rfl rfl) rfl hr
  | @receiptSaved job claim order ha hp habort hr =>
    exact .saved hp habort hr (.of_same ⟨fun h => h, fun h => h⟩ rfl rfl rfl rfl rfl rfl rfl)
  | @again job claim input now ha hp hgo hretry hmay =>
    have habort := Job.abort_of_retry hretry
    obtain ⟨opened, result, heq, hsame, hc, -⟩ := job.advanced_eq journal claim input
    have hstate : result.snapshot.state = job.state := hsame .state
    refine .again hp habort ?_ ?_
    · have := hmay.1
      rw [heq] at this
      exact fun hs => this (hstate.trans hs)
    · rw [heq]
      have hr : Raised { job with phase := .idle } { job with itemsOpened := opened, result } :=
        ⟨hc, fun h => h⟩
      exact .of_same ⟨fun h => hr.notify.cancelled h, fun h => h⟩ hstate rfl rfl rfl rfl rfl
        (hsame .deferred)
  | settled ha hp hgo => exact .settledAt ha hp hgo
  | @collected job t effects fault ha hp =>
    unfold Job.gathered
    split
    · exact .collected hp (.of_same ⟨fun h => h, fun h => h⟩ rfl rfl rfl rfl rfl rfl rfl)
    · rename_i effects
      have hrec : ∀ {α : Type} {g : JobSnapshot → α}, Unrecorded g →
          g (recordLate fault job.result effects).1.snapshot = g job.result.snapshot :=
        fun hg => recordLate_snapshot hg _ _ _
      exact .collected hp (.of_same ⟨fun h => (hrec .cancelRequested).trans h, fun h => h⟩
        (hrec .state) rfl rfl rfl rfl rfl (hrec .deferred))
  | @finished job t collected input ha hp =>
    obtain ⟨c, adm, heq, hc, -⟩ := Job.moved_eq
      { job.cleaned (job.cleanup journal collected input) with lanesHeld := false }
      (if job.cleanup journal collected input = [] then t else .failed)
    unfold Job.finished
    rw [heq]
    refine .finished ⟨hc, fun h => h⟩ hp ?_ rfl rfl
    split
    · exact (hsound _ rfl).collected t _ hp
    · rfl

/-! ## Runs -/

/-- A cancellation or an expired deadline is on record. -/
inductive Hindered (job : Job) : Prop
  | cancelled (h : job.result.snapshot.cancelRequested = true)
  | stopped (h : job.stopRequested = true)
  | aborted {claim} (hp : job.phase = .claimed claim) (h : claim.abort ≠ none)
  | ended {t} (hp : job.phase = .ended t)
  | collected {t cleanup} (hp : job.phase = .collected t cleanup)
  | closed (h : isTerminal job.state = true)

theorem Hindered.flags (h : Hindered job) (hf : Flags job job') : Hindered job' := by
  cases h with
  | cancelled h => exact .cancelled (hf.cancelled h)
  | stopped h => exact .stopped (hf.stopped h)
  | aborted hp h => exact .aborted (hf.phase.trans hp) h
  | ended hp => exact .ended (hf.phase.trans hp)
  | collected hp => exact .collected (hf.phase.trans hp)
  | closed h => exact .closed (by rw [hf.state]; exact h)

/-- A job that its worker gives back is hindered only by what is on record. -/
theorem Hindered.raised (h : Hindered job) (hr : Raised job job')
    (hp : ∀ claim, job.phase = .claimed claim → claim.abort = none)
    (hl : isTerminal job.state = false)
    (hw : job.phase = .idle ∨ ∃ claim, job.phase = .claimed claim) : Hindered job' := by
  cases h with
  | cancelled h => exact .cancelled (hr.cancelled h)
  | stopped h => exact .stopped (hr.stopped h)
  | aborted hc h => exact absurd (hp _ hc) h
  | ended hc => rw [hc] at hw; rcases hw with h | ⟨c, h⟩ <;> cases h
  | collected hc => rw [hc] at hw; rcases hw with h | ⟨c, h⟩ <;> cases h
  | closed h => rw [hl] at h; cases h

/-- What is on record stays there. -/
theorem Hindered.turn (hsound : Sound job) (h : Hindered job)
    (ht : CommitTurn journal a id (some job) (some job')) : Hindered job' := by
  have hback : ∀ {claim : Claim}, job.phase = .claimed claim → claim.abort = none →
      Raised job job' → Hindered job' := by
    intro claim hp habort hr
    refine h.raised hr (fun c hc => ?_) (hsound.live (by rw [hp]; simp)) (.inr ⟨claim, hp⟩)
    rw [hp] at hc
    cases hc
    exact habort
  have hfree : job.executing = false → isTerminal job.state = false → Raised job job' →
      Hindered job' := by
    intro hx hl hr
    have hp := hsound.idle hx
    exact h.raised hr (fun c hc => absurd hc (Phase.idle_ne hp c)) hl (.inl hp)
  cases ht with
  | flags hf => exact h.flags hf
  | resumed hr hs hs' hp =>
    have hl : isTerminal job.state = false := by rcases hs with hs | hs <;> rw [hs] <;> rfl
    cases h with
    | cancelled h => exact .cancelled (hr.cancelled h)
    | stopped h => exact .stopped (hr.stopped h)
    | aborted hc h => exact .aborted (hp.trans hc) h
    | ended hc => exact .ended (hp.trans hc)
    | collected hc => exact .collected (hp.trans hc)
    | closed h => rw [hl] at h; cases h
  | paused hr ha hl hx => exact hfree hx hl hr
  | taken hr ha hl hx => exact hfree hx hl hr
  | receipt hp habort hreceipt hf => exact hback hp habort ⟨hf.cancelled, hf.stopped⟩
  | saved hp habort hreceipt hf => exact hback hp habort ⟨hf.cancelled, hf.stopped⟩
  | again hp habort hn hf => exact hback hp habort ⟨hf.cancelled, hf.stopped⟩
  | goes hr ha hp habort => exact hback hp habort hr
  | ends ha hp hf => exact .ended hf.phase
  | collected hp hf => exact .collected hf.phase
  | finished hr hp ht => exact .closed ht

theorem Claimable.not_hindered (h : Claimable now job) : ¬ Hindered job := by
  intro hh
  cases hh with
  | cancelled hc => rw [h.cancelled] at hc; cases hc
  | stopped hc => rw [h.stopped] at hc; cases hc
  | aborted hp => rw [h.phase] at hp; cases hp
  | ended hp => rw [h.phase] at hp; cases hp
  | collected hp => rw [h.phase] at hp; cases hp
  | closed ht => rw [h.state] at ht; cases ht

/-- What holds of every job in every run. -/
def Kept (job : Job) : Prop := Sound job ∧ CommitOk job

theorem Kept.turn {Q : Action → Prop} : TurnKeeps Q fun _ => Kept := by
  intro journal a id o o' hq ht ho job hjob
  have hsound : ∀ job, o = some job → Sound job := fun job h => (ho job h).1
  exact ⟨Sound.turn hq ht hsound job hjob,
    CommitOk.turn hsound (fun job h => (ho job h).2) (ht.commit hsound) job hjob⟩

/-- A worker that looks for a job leaves alone the one that it enters the commit of. -/
theorem pick_first {job : Job} (h : ReflTransGen (Turn journal (.pick now) id) o (some job))
    (hs : job.state = .committing) (hp : job.phase = .idle) : o = some job := by
  cases h with
  | refl => rfl
  | tail _ ht =>
    cases ht with
    | @paused old _ _ _ _ _ _ _ _ _ =>
      obtain ⟨c, adm, heq, -⟩ := Job.moved_eq { old with resume := old.state } .paused
      rw [heq] at hs
      cases hs
    | taken => cases hp
    | submitted ha => cases ha
    | linked ha => cases ha
    | steered ha =>
      rcases ha with ⟨ids, ha, -⟩ | ⟨ha, -⟩ <;> cases ha
    | replied ha => cases ha
    | foregrounded ha => cases ha
    | reordered ha => cases ha
    | shutDown ha => cases ha
    | stopped ha => rcases ha with ha | ha <;> cases ha
    | receiptTaken ha => cases ha
    | receiptFailed ha => cases ha
    | receiptSaved ha => cases ha
    | again ha => cases ha
    | settled ha => cases ha
    | collected ha => cases ha
    | finished ha => cases ha

/-- A job that is in its commit after a section was there before it, or a worker claimed its
commit. -/
theorem Inside.section_ (hkept : ∀ job, o = some job → Kept job)
    (h : ReflTransGen (Turn journal a id) o (some job)) (hi : Inside job) :
    (∃ old, o = some old ∧ Inside old) ∨
      ∃ now old, a = .pick now ∧ o = some old ∧ Claimable now old := by
  have hall : ∀ {o' : Option Job}, ReflTransGen (Turn journal a id) o o' →
      ∀ job, o' = some job → Kept job := fun h =>
    TurnKeeps.turns (Q := fun _ => True) (I := fun _ => Kept) Kept.turn trivial h hkept
  generalize heq : some job = o' at h
  induction h generalizing job with
  | refl => exact .inl ⟨job, heq.symm, hi⟩
  | @tail mid o' hrun ht ih =>
    subst heq
    cases mid with
    | none =>
      cases ht
      cases hi.state
    | some mid =>
      have hk := hall hrun mid rfl
      by_cases hmid : Inside mid
      · exact ih hmid rfl
      · obtain ⟨now, rfl, hc⟩ :=
          (ht.commit fun _ h => by cases h; exact hk.1).enters hk.1 hk.2 hi hmid
        exact .inr ⟨now, mid, rfl, pick_first hrun hc.state hc.phase, hc⟩

/-- A worker that is back has given the job back, or is to end it. -/
theorem Turn.back {input : State.StepInput}
    (ht : Turn journal (.advance id input now) id (some job) (some job')) :
    job'.phase = .idle ∨ ∃ t, job'.phase = .ended t := by
  cases ht with
  | again => exact .inl rfl
  | settled =>
    generalize Job.verdict id _ _ _ = v
    by_cases h : isTerminal v.2 = true
    · rw [Job.resolved, if_pos h]
      exact .inr ⟨_, rfl⟩
    · obtain ⟨state, resume, c, adm, heq, -⟩ := Job.resolved_eq (by simpa using h)
      rw [heq]
      exact .inl rfl
  | linked ha => cases ha
  | steered ha => rcases ha with ⟨ids, ha, -⟩ | ⟨ha, -⟩ <;> cases ha
  | replied ha => cases ha
  | foregrounded ha => cases ha
  | reordered ha => cases ha
  | shutDown ha => cases ha
  | stopped ha => rcases ha with ha | ha <;> cases ha
  | paused ha => cases ha
  | taken ha => cases ha
  | receiptTaken ha => cases ha
  | receiptFailed ha => cases ha
  | receiptSaved ha => cases ha
  | collected ha => cases ha
  | finished ha => cases ha

/-- A job that is in its commit stays there in a section, or its worker is back with a step that
does not ask to stay. -/
theorem Inside.stays (hkept : Kept job)
    (h : ReflTransGen (Turn journal a id) (some job) o') (hi : Inside job) :
    (∃ job', o' = some job' ∧ Inside job') ∨
      ∃ input now claim, a = .advance id input now ∧ job.phase = .claimed claim ∧
        claim.abort = none ∧ ¬ Stays (job.advanced journal claim input).2 := by
  generalize heq : some job = o at h
  induction h using ReflTransGen.head_induction_on generalizing job with
  | refl => exact .inl ⟨job, heq.symm, hi⟩
  | @head o mid ht hrest ih =>
    subst heq
    have hcommit := ht.commit fun _ h => by cases h; exact hkept.1
    rcases hcommit.leaves hkept.1 hkept.2 hi with ⟨job₁, rfl, hi₁⟩ |
      ⟨input, now, claim, ha, hp, hno⟩
    · have hkept₁ : Kept job₁ :=
        Kept.turn (Q := fun _ => True) trivial ht (fun _ h => by cases h; exact hkept)
          job₁ rfl
      rcases ih hkept₁ hi₁ rfl with h | ⟨input, now, claim, rfl, hp, -⟩
      · exact .inl h
      · rcases ht.back with h | ⟨t, h⟩ <;> rw [hp] at h <;> cases h
    · exact .inr ⟨input, now, claim, ha, hp, ((hkept.2.inside hi).2.2 claim hp).1, hno⟩

end

section Runs

variable {fold : Str → Option Str} {workers retained : Nat} {journal : Bool}
  {actions : Nat → Action}

theorem kept_at {n : Nat} {id : JobId} {job : Job}
    (h : (stateAt fold workers retained journal actions n).jobs.find id = some job) : Kept job :=
  Reaches.forall_job (Q := fun _ => True) (I := fun _ => Kept) Kept.turn
    (State.run_reaches workers retained journal (fun _ => trivial) n) id job h

/-- A job that is in its commit came there by one claim, and was in it ever since. -/
theorem inside_since {k : Nat} {id : JobId} {job : Job}
    (hfind : (stateAt fold workers retained journal actions k).jobs.find id = some job)
    (hi : Inside job) : ∃ j < k, ∃ t old, actions j = .pick t ∧
      (stateAt fold workers retained journal actions j).jobs.find id = some old ∧
      Claimable t old ∧ ∀ m, j < m → m ≤ k → ∃ inside,
        (stateAt fold workers retained journal actions m).jobs.find id = some inside ∧
        Inside inside := by
  induction k generalizing job with
  | zero => cases hfind
  | succ k ih =>
    have hturns := turns_at fold workers retained journal actions k id
    rw [hfind] at hturns
    rcases Inside.section_ (fun old hold => kept_at hold) hturns hi with
      ⟨old, hold, hiold⟩ | ⟨t, old, ha, hold, hc⟩
    · obtain ⟨j, hj, t, first, ha, hfirst, hc, hsince⟩ := ih hold hiold
      refine ⟨j, by omega, t, first, ha, hfirst, hc, fun m hm hmk => ?_⟩
      by_cases h : m = k + 1
      · subst h
        exact ⟨job, hfind, hi⟩
      · exact hsince m hm (by omega)
    · refine ⟨k, by omega, t, old, ha, hold, hc, fun m hm hmk => ?_⟩
      obtain rfl : m = k + 1 := by omega
      exact ⟨job, hfind, hi⟩

/-- Nothing that would keep the job out of its commit was on record before. -/
theorem not_hindered_before {j m : Nat} {t : Nat} {id : JobId} {old before : Job} (hm : m ≤ j)
    (hold : (stateAt fold workers retained journal actions j).jobs.find id = some old)
    (hc : Claimable t old)
    (hbefore : (stateAt fold workers retained journal actions m).jobs.find id = some before) :
    ¬ Hindered before := by
  intro hh
  refine hc.not_hindered ?_
  have hstep : ∀ {journal a job job'}, Turn journal a id (some job) (some job') →
      Kept job ∧ Hindered job → Kept job' ∧ Hindered job' := fun ht h =>
    ⟨Kept.turn (Q := fun _ => True) trivial ht (fun _ hj => by cases hj; exact h.1) _ rfl,
      h.2.turn h.1.1 (ht.commit fun _ hj => by cases hj; exact h.1.1)⟩
  exact (State.run_keeps (State.known_new workers retained journal) hm (fun _ _ _ => hstep) hbefore
    ⟨kept_at hbefore, hh⟩ old hold).2

/-- A worker that comes to a job in its commit takes it, whatever is on record. -/
theorem scan_inside {s : State} {id : JobId} {job : Job} (hkept : Kept job)
    (hfind : s.jobs.find id = some job) (hi : Inside job) (hp : job.phase = .idle) {now : Nat}
    (hready : job.readyAt ≤ now) (rest : List JobId) : ∃ job' claim,
      (State.scan now (id :: rest) s).jobs.find id = some job' ∧ job'.phase = .claimed claim ∧
        claim.abort = none ∧ claim.committing = true := by
  obtain ⟨hadm, hlanes, -⟩ := hkept.2.inside hi
  have hx : job.executing = false := by
    by_contra hne
    exact hkept.1.busy.mp (by simpa using hne) hp
  have hdef : job.result.snapshot.deferred = false := by
    by_contra hne
    rcases hkept.2.deferred (by simpa using hne) with h | ⟨h, -⟩ <;> rw [hi.state] at h <;> cases h
  have habort : job.abortAt now = none := if_pos ⟨hi.state, hi.entered⟩
  have hacq : s.acquire job = some (s, job) := if_pos hlanes
  have hadmit : s.admit_ job = (s, job) := if_pos hadm
  have hscan : State.scan now (id :: rest) s = s.claim id job none := by
    rw [State.scan, hfind]
    simp [hi.state, isTerminal, hx, habort, hdef, hi.entered, hadm, hacq, hadmit,
      Nat.not_lt.mpr hready]
  obtain ⟨hjobs, -⟩ := s.claim_jobs id job none
  have hprep : job.prepared = job := if_neg fun h => by rw [hi.state] at h; cases h.2
  rw [hprep] at hjobs
  refine ⟨job.taken none, _, by rw [hscan, hjobs, OrdMap.find_set_self], rfl, rfl, ?_⟩
  rw [hi.state]
  rfl

/-- In every run: a task is advanced in its commit without a stop source and a deadline, and only
after one worker claimed the commit, at a moment up to which no cancellation and no expired deadline
was on record and at which the job was not paused, since when the job has been in its commit. A job
in its commit stays there until its worker is back with a step that does not ask to stay, and a
worker that comes to it takes it, whatever was recorded meanwhile. -/
theorem commit_boundary (fold : Str → Option Str) (workers retained : Nat) (journal : Bool)
    (actions : Nat → Action) (id : JobId) (k : Nat) (job : Job)
    (hfind : (stateAt fold workers retained journal actions k).jobs.find id = some job) :
    (∀ claim input now, actions k = .advance id input now → job.phase = .claimed claim →
      (job.opened (stateAt fold workers retained journal actions k).journal claim input).2 = none →
      (contextOf job claim).committing = true →
        (contextOf job claim).stoppable = false ∧ (contextOf job claim).deadline = none ∧
        ∃ j < k, ∃ t old, actions j = .pick t ∧
          (stateAt fold workers retained journal actions j).jobs.find id = some old ∧
          Claimable t old ∧
          (∀ m ≤ j, ∀ before,
            (stateAt fold workers retained journal actions m).jobs.find id = some before →
              ¬ Hindered before) ∧
          ∀ m, j < m → m ≤ k → ∃ inside,
            (stateAt fold workers retained journal actions m).jobs.find id = some inside ∧
              Inside inside) ∧
    (Inside job →
      ((∃ job', (stateAt fold workers retained journal actions (k + 1)).jobs.find id = some job' ∧
          Inside job') ∨
        ∃ input now claim, actions k = .advance id input now ∧ job.phase = .claimed claim ∧
          claim.abort = none ∧
          ¬ Stays (job.advanced (stateAt fold workers retained journal actions k).journal claim
            input).2) ∧
      (job.phase = .idle → ∀ now rest, job.readyAt ≤ now → ∃ job' claim,
        (State.scan now (id :: rest)
          (stateAt fold workers retained journal actions k)).jobs.find id =
            some job' ∧
          job'.phase = .claimed claim ∧ claim.abort = none ∧ claim.committing = true)) := by
  have hkept := kept_at hfind
  refine ⟨fun claim input now ha hp hopen hcommit => ?_,
    fun hi => ⟨?_, fun hidle now rest hr => ?_⟩⟩
  · have hcommit : claim.committing = true := hcommit
    have habort : claim.abort = none := by
      unfold Job.opened at hopen
      split at hopen
      · rename_i h
        exact h.1
      · exact hopen
    obtain ⟨j, hj, t, old, hpick, hold, hc, hsince⟩ :=
      inside_since hfind (hkept.2.committing claim hp habort hcommit)
    refine ⟨by simp [contextOf, hcommit], by simp [contextOf, hcommit], j, hj, t, old,
      hpick, hold, hc,
      fun m hm before hbefore => not_hindered_before hm hold hc hbefore, hsince⟩
  · have hturns := turns_at fold workers retained journal actions k id
    rw [hfind] at hturns
    exact hi.stays hkept hturns
  · exact scan_inside hkept hfind hi hidle hr rest

/-- A job that is cancelled and paused in its commit. -/
def cancelledCommit (n : Nat) : Action :=
  [.submit [1] true false {}, .pick 0, .advance [1] { advance := some { next := .committing } } 0,
    .pick 0, .control [[1]] .pause, .control [[1]] .cancel, .requestStop [1]].getD n
    (.advance [1] { advance := some { next := .committing } } 0)

/-- Its task goes on without a stop source, and the job stays in its commit. -/
theorem commit_boundary_cancelled : ∃ job,
    (stateAt some 1 16 false cancelledCommit 7).jobs.find [1] = some job ∧
      job.result.snapshot.cancelRequested = true ∧ job.stopRequested = true ∧
      ∃ claim, job.phase = .claimed claim ∧ (contextOf job claim).stoppable = false := by
  let claim : Claim := ⟨none, false, true, none, 0, none⟩
  have hsome : ((stateAt some 1 16 false cancelledCommit 7).jobs.find [1]).map
      (fun job => (job.phase, job.result.snapshot.cancelRequested, job.stopRequested)) =
      some (.claimed claim, true, true) := by decide +kernel
  obtain ⟨job, hfind, hjob⟩ := Option.map_eq_some_iff.mp hsome
  simp only [Prod.mk.injEq] at hjob
  obtain ⟨hp, hc, hstop⟩ := hjob
  have hjournal : (stateAt some 1 16 false cancelledCommit 7).journal = false := by decide +kernel
  have hopen : ∀ input, (job.opened (stateAt some 1 16 false cancelledCommit 7).journal claim
      input).2 = none := fun input => by
    rw [Job.opened, if_neg (by rw [hjournal]; simp)]
  refine ⟨job, hfind, hc, hstop, claim, hp, ?_⟩
  exact ((commit_boundary some 1 16 false cancelledCommit [1] 7 job hfind).1 claim
    { advance := some { next := .committing } } 0 rfl hp (hopen _) rfl).1

end Runs

end Hc.Operations
