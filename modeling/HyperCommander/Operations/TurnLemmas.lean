import HyperCommander.Operations.Turns

/-!
# The sections of the scheduler as turns

* `judge_judged`: what becomes of a job whose step is over.
* `act_evolves`: every action is a sequence of moves.
* `Evolves.turns`: what it does to each job.
* `Reaches.forall_job`: what every turn keeps of a job holds of every job in every run.
-/

namespace Hc.Operations

open List Storage Outcome Relation

/-! ## The verdict on a step -/

/-- What `judge` makes of a verdict. -/
inductive Judged (id : JobId) (step : JobStep) (v : State.Verdict) : State.Verdict → Prop
  | goes {next error readyAt} (hfrom : next = v.2 ∨ next = .failed ∨ next = .cancelled)
    (hq : next ≠ .queued) (hp : next ≠ .paused) (hw : next ≠ .waitingForUser)
    (hdone : next = .completed → v.1.result.snapshot.failedItems = 0)
    (hcommit : next = .committing → v.1.state ≠ .committing →
      v.1.result.snapshot.cancelRequested = false ∧ v.1.stopRequested = false)
    (hstay : v.1.state = .committing → v.2 = .committing → step.deferFor = 0 →
      next = .committing) :
    Judged id step v ({ v.1.withError error with readyAt }, next)
  | asks {request error readyAt} (hv : v.2 = .waitingForUser) (hs : v.1.state ≠ .committing)
    (hi : step.interaction = some request) :
    Judged id step v ({ v.1.withSnapshot fun p => { p with
        error, interaction := some { request with id := State.Verdict.promptId id v.1 } } with
      readyAt, interactionSequence := v.1.interactionSequence + 1, resume := .running },
      .waitingForUser)

namespace State

/-- A job with another error and delay. -/
def Verdict.Alters (v v' : Verdict) : Prop :=
  ∃ error readyAt, v'.1 = { v.1.withError error with readyAt }

variable {v v' : Verdict} {step : JobStep}

theorem Verdict.Alters.fail (h : v.Alters v') (e : Error) :
    v.Alters (v'.fail e) := by
  obtain ⟨error, readyAt, h⟩ := h
  exact ⟨some e, readyAt, by rw [Verdict.fail, h]; rfl⟩

theorem Verdict.Alters.withError {v v' : Verdict} {next next' : JobState}
    (h : v.Alters (v'.1, next)) (e : Option Error) : v.Alters (v'.1.withError e, next') := by
  obtain ⟨error, readyAt, h⟩ := h
  exact ⟨e, readyAt, by rw [show v'.1 = _ from h]; rfl⟩

/-- Where a step leads, up to the prompt that it may put. -/
structure Verdict.Leads (step : JobStep) (v v' : Verdict) : Prop where
  alters : v.Alters v'
  source : v'.2 = v.2 ∨ v'.2 = .failed ∨ v'.2 = .cancelled
  stay : v.1.state = .committing → v.2 = .committing → step.deferFor = 0 → v'.2 = .committing

theorem Verdict.Leads.state (h : v.Leads step v') :
    v'.1.state = v.1.state := by
  obtain ⟨error, readyAt, h⟩ := h.alters
  rw [h]
  rfl

theorem Verdict.limitDelay_leads (v : Verdict) (step : JobStep) (now : Nat) :
    v.Leads step (v.limitDelay step now) := by
  unfold limitDelay
  dsimp only
  split
  · rename_i h
    refine ⟨⟨_, _, rfl⟩, .inr (.inl rfl), fun _ _ hd => ?_⟩
    rw [hd] at h
    simp at h
  · exact ⟨⟨_, _, rfl⟩, .inl rfl, fun _ h _ => h⟩

theorem Verdict.Leads.cancelLate (h : v.Leads step v') :
    v.Leads step v'.cancelLate := by
  unfold Verdict.cancelLate
  split
  · rename_i hc
    refine ⟨h.alters, .inr (.inr rfl), fun h1 h2 h3 => ?_⟩
    exact absurd (h.state.trans h1) hc.2.1
  · exact h

theorem Verdict.Leads.enterCommit (h : v.Leads step v')
    (now : Nat) : v.Leads step (v'.enterCommit now) ∧
      ((v'.enterCommit now).2 = .committing → v.1.state ≠ .committing →
        v.1.result.snapshot.cancelRequested = false ∧ v.1.stopRequested = false) := by
  obtain ⟨error, readyAt, hv⟩ := h.alters
  have hcancel : v'.1.result.snapshot.cancelRequested = v.1.result.snapshot.cancelRequested := by
    rw [hv]; rfl
  have hstop : v'.1.stopRequested = v.1.stopRequested := by rw [hv]; rfl
  unfold Verdict.enterCommit
  split
  · rename_i hc
    have hout : v.1.state ≠ .committing := fun hs => hc.2 (h.state.trans hs)
    split
    · refine ⟨⟨?_, .inr (.inr rfl), fun hs => absurd hs hout⟩, nofun⟩
      exact @Verdict.Alters.withError _ v' v'.2 _ h.alters _
    · rename_i hno
      split
      · refine ⟨⟨h.alters.fail _, .inr (.inl rfl), fun hs => absurd hs hout⟩, nofun⟩
      · rw [not_or, hcancel, hstop] at hno
        exact ⟨h, fun _ _ => ⟨by simpa using hno.1, by simpa using hno.2⟩⟩
  · rename_i hc
    refine ⟨h, fun hn hs => absurd ⟨hn, fun hs' => hs (h.state.symm.trans hs')⟩ hc⟩

theorem Verdict.Leads.noPromptInCommit (h : v.Leads step v') :
    v.Leads step v'.noPromptInCommit ∧
      (v'.noPromptInCommit.2 = .waitingForUser → v.1.state ≠ .committing) ∧
      (v'.noPromptInCommit.2 = .committing → v'.2 = .committing) := by
  unfold Verdict.noPromptInCommit
  split
  · rename_i hc
    refine ⟨⟨h.alters.fail _, .inr (.inl rfl), fun hs hv hd => ?_⟩, nofun,
      nofun⟩
    rw [h.stay hs hv hd] at hc
    cases hc.2
  · rename_i hc
    exact ⟨h, fun hw hs => hc ⟨h.state.trans hs, hw⟩, fun h => h⟩

/-- The checks after the prompt. -/
theorem Verdict.tail {v v' : Verdict} (h : v.Alters v') (hw : v'.2 ≠ .waitingForUser) :
    v.Alters v'.taskTransition.partialFailure.nameFailure ∧
      (v'.taskTransition.partialFailure.nameFailure.2 = v'.2 ∨
        v'.taskTransition.partialFailure.nameFailure.2 = .failed) ∧
      v'.taskTransition.partialFailure.nameFailure.2 ≠ .queued ∧
      v'.taskTransition.partialFailure.nameFailure.2 ≠ .paused ∧
      v'.taskTransition.partialFailure.nameFailure.2 ≠ .waitingForUser ∧
      (v'.taskTransition.partialFailure.nameFailure.2 = .completed →
        v.1.result.snapshot.failedItems = 0) ∧
      (v'.2 = .committing → v'.taskTransition.partialFailure.nameFailure.2 = .committing) := by
  -- A step that failed stays failed.
  have hfail : ∀ u : Verdict, v.Alters u → u.2 = .failed → v'.2 ≠ .committing →
      v.Alters u.nameFailure ∧ (u.nameFailure.2 = v'.2 ∨ u.nameFailure.2 = .failed) ∧
        u.nameFailure.2 ≠ .queued ∧ u.nameFailure.2 ≠ .paused ∧ u.nameFailure.2 ≠ .waitingForUser ∧
        (u.nameFailure.2 = .completed → v.1.result.snapshot.failedItems = 0) ∧
        (v'.2 = .committing → u.nameFailure.2 = .committing) := by
    intro u hu hf hne
    obtain ⟨h1, h2⟩ : v.Alters u.nameFailure ∧ u.nameFailure.2 = .failed := by
      unfold Verdict.nameFailure
      split
      · exact ⟨hu.fail _, rfl⟩
      · exact ⟨hu, hf⟩
    refine ⟨h1, .inr h2, ?_, ?_, ?_, ?_, fun hc => absurd hc hne⟩ <;> simp [h2]
  have hkeep : ∀ u : Verdict, u.2 ≠ .failed → u.nameFailure = u := by
    intro u hf
    rw [Verdict.nameFailure, if_neg fun h => hf h.1]
  unfold Verdict.taskTransition
  split
  · rename_i hq
    have hf : (v'.fail ⟨.internal, "invalid-task-transition", false⟩).partialFailure =
        v'.fail ⟨.internal, "invalid-task-transition", false⟩ := by
      rw [Verdict.partialFailure, if_neg fun h => by cases h.1]
    rw [hf]
    refine hfail _ (h.fail ⟨.internal, "invalid-task-transition", false⟩) rfl fun hc => ?_
    rw [hc] at hq
    rcases hq with h | h <;> cases h
  · rename_i hq
    rw [not_or] at hq
    have hfailed : v'.1.result.snapshot.failedItems = v.1.result.snapshot.failedItems := by
      obtain ⟨error, readyAt, hv⟩ := h
      rw [hv]; rfl
    unfold Verdict.partialFailure
    split
    · rename_i hc
      refine hfail _ (h.fail ⟨.unavailable, "partial-failure", false⟩) rfl fun hk => ?_
      rw [hk] at hc
      cases hc.1
    · rename_i hc
      by_cases hf : v'.2 = .failed
      · exact hfail v' h hf (by simp [hf])
      · rw [hkeep v' hf]
        refine ⟨h, .inl rfl, hq.1, hq.2, hw, fun hd => ?_, fun h => h⟩
        by_contra hne
        exact hc ⟨hd, hfailed ▸ hne⟩

/-- What becomes of a job whose step is over. -/
theorem judge_judged (id : JobId) (now : Nat) (step : JobStep) (v : Verdict) :
    Judged id step v (judge id now step v) := by
  unfold judge
  obtain ⟨h1, hcommit⟩ := (Verdict.limitDelay_leads v step now).cancelLate.enterCommit now
  obtain ⟨h2, hwait, hsame⟩ := h1.noPromptInCommit
  revert hcommit hwait hsame h2
  generalize (((v.limitDelay step now).cancelLate).enterCommit now) = u
  generalize hw : u.noPromptInCommit = w
  intro hcommit h2 hwait hsame
  have hplain : ∀ w' : Verdict, v.Alters w' → w'.2 ≠ .waitingForUser →
      (w'.2 = w.2 ∨ w'.2 = .failed) → (w.2 = .committing → w'.2 = .committing) →
      Judged id step v w'.taskTransition.partialFailure.nameFailure := by
    intro w' ha hnw hfrom hkeep
    obtain ⟨⟨error, readyAt, he⟩, t1, t2, t3, t4, t5, t6⟩ := Verdict.tail ha hnw
    have hjudged := @Judged.goes id step v
      w'.taskTransition.partialFailure.nameFailure.2 error readyAt ?_ t2 t3 t4 t5 ?_ ?_
    · rw [← he] at hjudged
      exact hjudged
    · rcases t1 with t1 | t1
      · rcases hfrom with hf | hf
        · rw [t1, hf]; exact h2.source
        · rw [t1, hf]; exact .inr (.inl rfl)
      · exact .inr (.inl t1)
    · intro hn hs
      refine hcommit (hsame ?_) hs
      rcases t1 with t1 | t1
      · rcases hfrom with hf | hf
        · rw [← hf, ← t1, hn]
        · rw [t1, hf] at hn; cases hn
      · rw [t1] at hn; cases hn
    · exact fun hs hv hd => t6 (hkeep (h2.stay hs hv hd))
  unfold Verdict.prompt
  split
  · rename_i hwt
    have hnc : w.2 = .committing → False := fun h => by rw [hwt] at h; cases h
    have hfail : ∀ e, Judged id step v (w.fail e).taskTransition.partialFailure.nameFailure :=
      fun e => hplain _ (h2.alters.fail e) nofun (.inr rfl) fun h => (hnc h).elim
    split
    · exact hfail _
    · rename_i request hi
      split
      · exact hfail _
      · obtain ⟨error, readyAt, he⟩ := h2.alters
        have hv : v.2 = .waitingForUser := by
          rcases h2.source with h | h | h
          · rw [← h, hwt]
          · rw [hwt] at h; cases h
          · rw [hwt] at h; cases h
        have hasks := @Judged.asks id step v request error readyAt hv (hwait hwt) hi
        rw [he, hwt]
        exact hasks
  · rename_i hnw
    exact hplain w h2.alters hnw (.inl rfl) fun h => h

end State

/-! ## Moves -/

/-- What no turn of a job touches. -/
structure Rest (s s' : State) : Prop where
  journal : s'.journal = s.journal
  limit : s'.concurrencyLimit = s.concurrencyLimit
  issued : s'.issued = s.issued
  stops : s.stops ⊆ s'.stops

theorem Rest.trans {a b c : State} (h : Rest a b) (h' : Rest b c) : Rest a c :=
  ⟨h'.journal.trans h.journal, h'.limit.trans h.limit, h'.issued.trans h.issued,
    List.Subset.trans h.stops h'.stops⟩

section

variable {a : Action} {id : JobId} {job job' : Job} {s s' : State}

theorem Evolves.still (h : Still a s s') : Evolves a s s' := .single (.still h)

/-- A job is changed. -/
theorem Evolves.update (hfind : s.jobs.find id = some job)
    (ht : Turn s.journal a id (some job) (some job')) (hr : Rest s s')
    (hj : s'.jobs = s.jobs.set id job')
    (hadmitted : job.weight ≤ s.admitted → s'.admitted + job.weight = s.admitted + job'.weight)
    (hlimited : job.weight < job'.weight → s.admitted < s.concurrencyLimit) : Evolves a s s' :=
  .single (.moves ⟨hfind, ht, hj, hr.journal, hr.limit, hr.issued, nofun,
    fun _ => hadmitted, nofun, hlimited, hr.stops⟩)

/-- A job is changed that weighs what it weighed. -/
theorem Evolves.set (hfind : s.jobs.find id = some job)
    (ht : Turn s.journal a id (some job) (some job')) (hr : Rest s s')
    (hj : s'.jobs = s.jobs.set id job') (ha : s'.admitted = s.admitted)
    (hw : job'.weight = job.weight) : Evolves a s s' :=
  .update hfind ht hr hj (fun _ => by rw [ha, hw]) fun h => by omega

/-- A loop over jobs, each of which is as it should be when its turn comes. -/
theorem Evolves.foldl {f : State → JobId → State} {P : State → JobId → Prop}
    (hf : ∀ s i, P s i → Evolves a s (f s i))
    (hother : ∀ s i j, i ≠ j → P s j → P (f s i) j) {ids : List JobId} (hnd : ids.Nodup)
    (s : State) (hp : ∀ i ∈ ids, P s i) : Evolves a s (ids.foldl f s) := by
  induction ids generalizing s with
  | nil => exact .refl
  | cons i rest ih =>
    obtain ⟨hi, hnd⟩ := nodup_cons.mp hnd
    refine (hf s i (hp i mem_cons_self)).trans (ih hnd _ fun j hj => ?_)
    refine hother s i j ?_ (hp j (mem_cons_of_mem _ hj))
    rintro rfl
    exact hi hj

end

/-! ## The job of a section -/

/-- What `transition` changes. -/
theorem Job.moved_eq (job : Job) (next : JobState) : ∃ cancelRequested admitted,
    job.moved next = { job.withSnapshot fun p => { p with state := next, cancelRequested } with
      admitted } ∧
    (job.result.snapshot.cancelRequested = true → cancelRequested = true) ∧
    (cancelRequested = true → job.result.snapshot.cancelRequested = true ∨
      job.stopRequested = true) ∧
    (State.leaves next = false → admitted = job.admitted) ∧
    (job.state ≠ next → State.leaves next = true → admitted = false) := by
  unfold moved
  split
  · rename_i h
    refine ⟨job.result.snapshot.cancelRequested, job.admitted, ?_, fun h => h, .inl, fun _ => rfl,
      fun hne => absurd h hne⟩
    rw [← h]
    rfl
  · refine ⟨job.result.snapshot.cancelRequested || job.stopRequested,
      job.admitted && !State.leaves next, rfl, fun h => by rw [h]; rfl,
      fun h => by simpa using h, fun h => ?_, fun _ h => ?_⟩
    · rw [h, Bool.not_false, Bool.and_true]
    · rw [h, Bool.not_true, Bool.and_false]

/-- What `Control` changes. -/
theorem Job.steered_eq (job : Job) (control : JobControl) :
    ∃ state pauseRequested cancelRequested deferred admitted, job.steered control =
      { job.withSnapshot fun p => { p with state, pauseRequested, cancelRequested, deferred } with
        admitted } ∧
      (state = job.state ∨ job.state = .paused ∧ state = job.resume) ∧
      (cancelRequested = true → job.result.snapshot.cancelRequested = true ∨
        job.stopRequested = true ∨ control = .cancel) ∧
      (control ≠ .start → deferred = job.result.snapshot.deferred) := by
  let p := job.result.snapshot
  cases control with
  | cancel =>
    exact ⟨p.state, p.pauseRequested, true, p.deferred, job.admitted, rfl, .inl rfl,
      fun _ => .inr (.inr rfl), fun _ => rfl⟩
  | start =>
    exact ⟨p.state, p.pauseRequested, p.cancelRequested, false, job.admitted, rfl, .inl rfl, .inl,
      fun h => absurd rfl h⟩
  | pause =>
    exact ⟨p.state, true, p.cancelRequested, p.deferred, job.admitted, rfl, .inl rfl, .inl,
      fun _ => rfl⟩
  | resume =>
    unfold steered
    dsimp only
    split
    · rename_i hs
      obtain ⟨c, adm, heq, -, hc, -⟩ := Job.moved_eq
        (job.withSnapshot fun p => { p with pauseRequested := false }) job.resume
      refine ⟨job.resume, false, c, job.result.snapshot.deferred, adm, heq,
        .inr ⟨hs, rfl⟩, fun h => ?_,
        fun _ => rfl⟩
      rcases hc h with h | h
      · exact .inl h
      · exact .inr (.inl h)
    · exact ⟨p.state, false, p.cancelRequested, p.deferred, job.admitted, rfl, .inl rfl, .inl,
        fun _ => rfl⟩

/-- Something that recording and notifying leave alone in a snapshot. -/
structure Unnoticed {α : Type} (g : JobSnapshot → α) : Prop extends Unrecorded g where
  cancel : ∀ s c, g { s with cancelRequested := c } = g s

theorem Unnoticed.state : Unnoticed JobSnapshot.state := ⟨.state, fun _ _ => rfl⟩

theorem Unnoticed.deferred : Unnoticed JobSnapshot.deferred := ⟨.deferred, fun _ _ => rfl⟩

theorem Unnoticed.interaction : Unnoticed JobSnapshot.interaction :=
  ⟨.interaction, fun _ _ => rfl⟩

theorem Unnoticed.metadata : Unnoticed JobSnapshot.metadata := ⟨.metadata, fun _ _ => rfl⟩

theorem Unnoticed.retriedAs : Unnoticed JobSnapshot.retriedAs := ⟨.retriedAs, fun _ _ => rfl⟩

/-- What a step changes before it is judged. -/
theorem Job.advanced_eq (journal : Bool) (job : Job) (claim : Claim) (input : State.StepInput) :
    ∃ itemsOpened result, (job.advanced journal claim input).1 = { job with itemsOpened, result } ∧
      (∀ {α : Type} {g : JobSnapshot → α}, Unnoticed g →
        g result.snapshot = g job.result.snapshot) ∧
      (job.result.snapshot.cancelRequested = true → result.snapshot.cancelRequested = true) ∧
      (result.snapshot.cancelRequested = true → job.result.snapshot.cancelRequested = true ∨
        job.stopRequested = true) := by
  obtain ⟨opened, outcomes, hopen⟩ : ∃ opened outcomes, (job.opened journal claim input).1 =
      { job with itemsOpened := opened, result := { job.result with outcomes } } := by
    unfold Job.opened State.openItems
    split
    · dsimp only
      split
      · exact ⟨_, _, rfl⟩
      · split <;> exact ⟨_, _, rfl⟩
    · exact ⟨_, _, rfl⟩
  have hrec : ∀ {α : Type} {g : JobSnapshot → α}, Unrecorded g →
      g (record (job.opened journal claim input).1.request.maxItemResults input.fault
        (job.opened journal claim input).1.result
        (State.stepOf (job.opened journal claim input).2 input)).1.snapshot =
        g job.result.snapshot := by
    intro α g hg
    rw [record_snapshot hg, hopen]
  unfold Job.advanced
  dsimp only
  revert hrec
  generalize record (job.opened journal claim input).1.request.maxItemResults input.fault
    (job.opened journal claim input).1.result
    (State.stepOf (job.opened journal claim input).2 input) = recorded
  intro hrec
  rw [hopen]
  have hcancel := hrec .cancelRequested
  split
  · refine ⟨opened, { recorded.1 with snapshot := { recorded.1.snapshot with
      cancelRequested := recorded.1.snapshot.cancelRequested || job.stopRequested } }, rfl,
      fun hg => (hg.cancel _ _).trans (hrec hg.toUnrecorded), fun h => ?_, fun h => ?_⟩
    · show (recorded.1.snapshot.cancelRequested || job.stopRequested) = true
      rw [hcancel, h]
      rfl
    · have h : (recorded.1.snapshot.cancelRequested || job.stopRequested) = true := h
      rw [hcancel] at h
      simpa using h
  · exact ⟨opened, recorded.1, rfl, fun hg => hrec hg.toUnrecorded, fun h => hcancel.trans h,
      fun h => .inl (hcancel.symm.trans h)⟩

/-- A step that reports nothing is recorded as it is. -/
theorem record_plain (limit : Nat) (fault : Nat → Option Error) (result : JobResult)
    {step : JobStep} (h1 : step.items = []) (h2 : step.item = none) (h3 : step.replaceItem = none)
    (h4 : step.retry = false) : (record limit fault result step).2 = step := by
  have hbatch : admitBatch step = step := if_neg fun h => h.1 h1
  have hstore : (storeBatch limit fault result step).2 = step := by
    unfold storeBatch
    rw [h1]
    split <;> rfl
  have hitem : ∀ result : JobResult, (storeItem limit fault result step).2 = (step, none) := by
    intro result
    unfold storeItem
    split
    · rfl
    · rw [if_pos ⟨by rw [h2]; rfl, by rw [h3]; rfl⟩]
  have hretry : admitRetry step = step := if_neg fun h => by rw [h4] at h; cases h.1
  have hreplace : ∀ result : JobResult, admitReplacement result step = step := by
    intro result
    unfold admitReplacement
    rw [h3]
    cases result.outcomes <;> rfl
  unfold record
  dsimp only
  rw [hbatch, hstore, hitem, hretry, hreplace, h1, h2]
  rfl

/-- What becomes of a job that goes on. -/
theorem Job.resolved_eq {v : State.Verdict} (ht : isTerminal v.2 = false) :
    ∃ state resume cancelRequested admitted, Job.resolved v =
      { v.1.withSnapshot fun p => { p with state, cancelRequested } with
        resume, admitted, commitEntered := v.1.commitEntered && v.2 == .committing
        executing := false, phase := .idle } ∧
      (state = v.2 ∧ resume = v.1.resume ∨
        state = .paused ∧ resume = .committing ∧ v.2 = .committing ∧ v.1.state ≠ .committing) ∧
      (v.1.result.snapshot.cancelRequested = true → cancelRequested = true) ∧
      (cancelRequested = true → v.1.result.snapshot.cancelRequested = true ∨
        v.1.stopRequested = true) ∧
      (state = .committing → admitted = v.1.admitted) := by
  unfold Job.resolved
  rw [if_neg (by rw [ht]; exact Bool.false_ne_true)]
  split
  · rename_i h
    obtain ⟨c, adm, heq, h1, h2, -⟩ := Job.moved_eq { v.1 with resume := v.2 } .paused
    exact ⟨.paused, .committing, c, adm, by rw [heq, h.1]; rfl, .inr ⟨rfl, rfl, h.1, h.2.1⟩, h1, h2,
      nofun⟩
  · obtain ⟨c, adm, heq, h1, h2, h3, -⟩ := v.1.moved_eq v.2
    exact ⟨v.2, v.1.resume, c, adm, by rw [heq]; rfl, .inl ⟨rfl, rfl⟩, h1, h2,
      fun h => h3 (by rw [h]; rfl)⟩

/-- The verdict on a step, which may not ask for more than the code allows. -/
theorem Job.verdict_judged (id : JobId) (now : Nat) (job : Job) (step : JobStep) :
    ∃ step' retryAttempt next, Judged id step'
        (job.withSnapshot fun p => { p with retryAttempt }, next) (Job.verdict id now job step) ∧
      step'.interaction = step.interaction ∧ step'.deferFor = step.deferFor ∧
      (step.retry = false → next = step.next) ∧ (step.retry = true → next = .failed) := by
  unfold Job.verdict
  split
  · rename_i h
    refine ⟨{ step with error := step.error <|> some ⟨.internal, "invalid-retry", false⟩ },
      job.result.snapshot.retryAttempt, .failed, State.judge_judged _ _ _ _, rfl, rfl, fun h' => ?_,
      fun _ => rfl⟩
    rw [h] at h'
    cases h'
  · rename_i h
    exact ⟨step, 0, step.next, State.judge_judged _ _ _ _, rfl, rfl, fun _ => rfl,
      fun h' => absurd h' h⟩

theorem Job.weight_moved_le (job : Job) (next : JobState) :
    (job.moved next).weight ≤ job.weight := by
  unfold Job.moved
  split
  · exact le_refl _
  · show Job.weight { job with admitted := job.admitted && !State.leaves next } ≤ _
    unfold Job.weight
    cases job.admitted <;> simp
    split <;> simp_all

namespace State

theorem transition_snd (s : State) (id : JobId) (job : Job) (next : JobState) :
    (s.transition id job next).2 = job.moved next := by
  unfold transition Job.moved
  split <;> rfl

theorem transition_jobs (s : State) (id : JobId) (job : Job) (next : JobState) :
    (s.transition id job next).1.jobs = s.jobs := by
  unfold transition
  split <;> rfl

theorem transition_rest (s : State) (id : JobId) (job : Job) (next : JobState) :
    Rest s (s.transition id job next).1 := by
  unfold transition
  split <;> exact ⟨rfl, rfl, rfl, fun _ h => h⟩

/-- What a job weighs less is given back. -/
theorem transition_admitted {s : State} (job : Job) (id : JobId) (next : JobState)
    (h : job.weight ≤ s.admitted) :
    (s.transition id job next).1.admitted + job.weight =
      s.admitted + (job.moved next).weight := by
  unfold transition Job.moved
  split
  · rfl
  · show (if leaves next = true ∧ job.admitted = true ∧ ¬ job.result.snapshot.foreground = true
        then decrement s.admitted else s.admitted) + job.weight = s.admitted +
      Job.weight { job with admitted := job.admitted && !leaves next }
    unfold Job.weight at *
    by_cases hl : leaves next = true
    · by_cases hw : job.admitted = true ∧ job.result.snapshot.foreground = false
      · rw [if_pos hw] at h
        rw [if_pos ⟨hl, hw.1, by simp [hw.2]⟩, if_pos hw, if_neg (by simp [hl]), decrement,
          if_neg (by omega)]
        omega
      · rw [if_neg (fun hc => hw ⟨hc.2.1, by simpa using hc.2.2⟩), if_neg hw, if_neg (by simp [hl])]
    · rw [if_neg (fun hc => hl hc.1)]
      simp only [hl, Bool.not_false, Bool.and_true]

/-! ## Sections of callers -/

theorem requestStop_evolves {a : Action} (s : State) {id : JobId}
    (ha : a = .requestStop id ∨ a = .externalStop id) : Evolves a s (s.requestStop id) := by
  unfold requestStop
  split
  · exact .refl
  · rename_i job hfind
    exact .set hfind (.stopped ha) ⟨rfl, rfl, rfl, fun _ h => h⟩ rfl rfl rfl

theorem checkBatch_ok {s : State} {control : JobControl} {seen ids : List JobId}
    (h : s.checkBatch control seen ids = .ok ()) :
    ids.Nodup ∧ (∀ i ∈ ids, i ∉ seen) ∧ ∀ i ∈ ids, ∃ job, s.jobs.find i = some job ∧
      isTerminal job.state = false ∧ job.result.snapshot.cancelRequested = false ∧
      (control = .start → job.result.snapshot.deferred = true) := by
  induction ids generalizing seen with
  | nil => exact ⟨nodup_nil, (fun _ h => by cases h), (fun _ h => by cases h)⟩
  | cons id rest ih =>
    rw [checkBatch] at h
    split at h
    · cases h
    rename_i job hfind
    simp only [bind_eq_ok, failIf_eq_ok] at h
    obtain ⟨-, hseen, -, hopen, -, hstart, h⟩ := h
    obtain ⟨hnd, hout, hall⟩ := ih h
    rw [not_or] at hopen
    refine ⟨nodup_cons.mpr ⟨fun hm => hout _ hm mem_cons_self, hnd⟩, ?_, ?_⟩
    · intro i hi
      rcases mem_cons.mp hi with rfl | hi
      · exact hseen
      · exact fun hm => hout i hi (mem_cons_of_mem _ hm)
    · intro i hi
      rcases mem_cons.mp hi with rfl | hi
      · refine ⟨job, hfind, by simpa using hopen.1, by simpa using hopen.2, fun hc => ?_⟩
        by_contra hd
        exact hstart ⟨hc, by simpa using hd⟩
      · exact hall i hi

theorem steer_spec' (s : State) (id : JobId) (job : Job) (control : JobControl) :
    (s.steer id job control).2 = job.steered control ∧ (s.steer id job control).1.jobs = s.jobs ∧
      Rest s (s.steer id job control).1 ∧ (job.steered control).weight ≤ job.weight ∧
      (job.weight ≤ s.admitted → (s.steer id job control).1.admitted + job.weight =
        s.admitted + (job.steered control).weight) := by
  cases control with
  | start | pause | cancel =>
    exact ⟨rfl, rfl, ⟨rfl, rfl, rfl, fun _ h => h⟩, le_refl _, fun _ => rfl⟩
  | resume =>
    unfold steer Job.steered
    dsimp only
    split
    · exact ⟨transition_snd .., transition_jobs .., transition_rest .., Job.weight_moved_le _ _,
        fun h => transition_admitted (job.withSnapshot _) id _ h⟩
    · exact ⟨rfl, rfl, ⟨rfl, rfl, rfl, fun _ h => h⟩, le_refl _, fun _ => rfl⟩

theorem control_evolves {a : Action} {s s' : State} {ids : List JobId} {control : JobControl}
    (ha : a = .control ids control ∨ ∃ id, ids = [id] ∧ a = .cancelReply id ∧ control = .cancel)
    (h : s.control ids control = .ok s') : Evolves a s s' := by
  simp only [State.control, bind_eq_ok, failIf_eq_ok, pure_eq_ok] at h
  obtain ⟨-, -, _, hbatch, rfl⟩ := h
  obtain ⟨hnd, -, hall⟩ := checkBatch_ok hbatch
  have hcall : ∀ i ∈ ids, (∃ ids, a = .control ids control ∧ i ∈ ids) ∨
      a = .cancelReply i ∧ control = .cancel := by
    intro i hi
    rcases ha with ha | ⟨id, rfl, ha, hc⟩
    · exact .inl ⟨ids, ha, hi⟩
    · rw [mem_singleton.mp hi]
      exact .inr ⟨ha, hc⟩
  have hfold : Evolves a s (ids.foldl (controlJob control) s) := by
    refine Evolves.foldl (P := fun s i => i ∈ ids ∧ ∃ job, s.jobs.find i = some job ∧
      isTerminal job.state = false ∧ job.result.snapshot.cancelRequested = false ∧
      (control = .start → job.result.snapshot.deferred = true)) ?_ ?_ hnd s
      fun i hi => ⟨hi, hall i hi⟩
    · rintro s i ⟨hi, job, hfind, hl, hc, hd⟩
      obtain ⟨h1, h2, h3, h4, h5⟩ := steer_spec' s i job control
      rw [controlJob, hfind]
      dsimp only
      rw [h1]
      refine .update hfind (.steered (hcall i hi) hl hc hd)
        ⟨h3.journal, h3.limit, h3.issued, h3.stops⟩
        (by rw [put, h2]) h5 fun h => ?_
      exact absurd h4 (by exact Nat.not_le.mpr h)
    · rintro s i j hij ⟨hj, job, hfind, h⟩
      refine ⟨hj, job, ?_, h⟩
      rw [controlJob]
      split
      · exact hfind
      · rw [put, (steer_spec' _ i _ control).2.1, OrdMap.find_set_of_ne (Ne.symm hij)]
        exact hfind
  refine hfold.trans ?_
  split
  · exact Evolves.still ⟨rfl, rfl, rfl, rfl, fun _ => rfl, fun _ h => .inl (mem_append_left _ h)⟩
  · exact .refl

theorem linkRetry_evolves {s s' : State} {id : JobId} (hasTask stopped : Bool)
    {request : JobRequest} (lanes : List Lane)
    (h : s.linkRetry id { request with resourceLanes := lanes } = .ok s') :
    Evolves (.submit id hasTask stopped request) s s' ∧ Rest s s' ∧ s'.admitted = s.admitted := by
  unfold linkRetry at h
  split at h
  · obtain rfl := pure_eq_ok.mp h
    exact ⟨.refl, ⟨rfl, rfl, rfl, fun _ h => h⟩, rfl⟩
  split at h
  · cases h
  · rename_i parent hfind
    simp only [bind_eq_ok, failIf_eq_ok, pure_eq_ok] at h
    obtain ⟨-, hok, rfl⟩ := h
    refine ⟨.set hfind (.linked rfl rfl ?_) ⟨rfl, rfl, rfl, fun _ h => h⟩ rfl rfl rfl,
      ⟨rfl, rfl, rfl, fun _ h => h⟩, rfl⟩
    simpa using hok

/-- The identifier of a job was drawn for it. -/
def Known (s : State) : Prop := ∀ id job, s.jobs.find id = some job → id ∈ s.issued

end State

theorem Moves.known {a : Action} {id : JobId} {o o' : Option Job} {s s' : State}
    (h : Moves a id o o' s s') (hs : s.Known) : s'.Known := by
  intro i job hfind
  rw [h.jobs, OrdMap.find_put] at hfind
  rw [h.issued]
  by_cases hi : i = id
  · subst hi
    cases o with
    | none => exact mem_cons_self
    | some old => exact hs i old h.find
  · rw [if_neg hi] at hfind
    split
    · exact mem_cons_of_mem _ (hs i job hfind)
    · exact hs i job hfind

theorem Evolves.known {a : Action} {s s' : State} (h : Evolves a s s') (hs : s.Known) :
    s'.Known := by
  induction h with
  | refl => exact hs
  | tail _ hgo ih =>
    cases hgo with
    | still h =>
      intro i job hfind
      rw [h.issued]
      rw [h.jobs] at hfind
      exact ih i job hfind
    | moves h => exact h.known ih

namespace State

theorem submit_evolves {s s' : State} {fold : Str → Option Str} {id : JobId}
    {hasTask stopped : Bool} {request : JobRequest} (hs : s.Known) (hnew : id ∉ s.issued)
    (h : s.submit fold id hasTask stopped request = .ok s') :
    Evolves (.submit id hasTask stopped request) s s' := by
  simp only [submit, bind_eq_ok, failIf_eq_ok, pure_eq_ok] at h
  obtain ⟨-, -, -, -, lanes, -, -, -, -, -, s₁, hlink, rfl⟩ := h
  obtain ⟨hev, hr, ha⟩ := linkRetry_evolves hasTask stopped _ hlink
  have hnew₁ : id ∉ s₁.issued := by rw [hr.issued]; exact hnew
  have hnone : s₁.jobs.find id = none := by
    cases hf : s₁.jobs.find id with
    | none => rfl
    | some job => exact absurd (hev.known hs id job hf) hnew₁
  refine hev.trans (.single (.moves ⟨hnone, .submitted rfl, rfl, rfl, rfl, rfl, fun _ => hnew₁,
    fun _ _ => rfl, (fun h => by cases h), fun h => absurd h (Nat.lt_irrefl 0), fun _ h => h⟩))

theorem reply_evolves {s s' : State} {id : JobId} {answer : InteractionAnswer} {now : Nat}
    (h : s.reply id answer now = .ok s') : Evolves (.reply id answer now) s s' := by
  unfold reply at h
  split at h
  · cases h
  rename_i job hfind
  split at h
  · cases h
  rename_i prompt hprompt
  simp only [bind_eq_ok, failIf_eq_ok, pure_eq_ok] at h
  obtain ⟨-, hno, -, hno', rfl⟩ := h
  simp only [not_or, Bool.not_eq_true, ne_eq, not_not] at hno hno'
  obtain ⟨h1, h2, h3, h4, h5, h6⟩ := hno
  have hr := transition_rest s id (job.answered answer) job.resume
  refine .update hfind (.replied rfl hprompt h1 h2 h3 h4 h5 h6 hno'.2)
    ⟨hr.journal, hr.limit, hr.issued, hr.stops⟩ ?_ (fun h => ?_) fun h => ?_
  · show ((s.transition id (job.answered answer) job.resume).1.put id _).jobs = _
    rw [put, transition_jobs, transition_snd]
  · exact transition_admitted (job.answered answer) id job.resume h
  · exact absurd ((job.answered answer).weight_moved_le job.resume) (by exact Nat.not_le.mpr h)

theorem forget_evolves {s s' : State} {id : JobId} (h : s.forget id = .ok s') :
    Evolves (.forget id) s s' := by
  unfold forget at h
  split at h
  · cases h
  rename_i job hfind
  simp only [bind_eq_ok, failIf_eq_ok, pure_eq_ok] at h
  obtain ⟨-, hno, rfl⟩ := h
  simp only [not_or, Bool.not_eq_true, Bool.not_eq_false] at hno
  exact .single (.moves ⟨hfind, .forgotten rfl hno.1 hno.2, rfl, rfl, rfl, rfl,
    (fun h => by cases h), (fun h => by cases h), fun _ => rfl,
    fun h => absurd h (Nat.not_lt_zero _), fun _ h => h⟩)

theorem setForeground_evolves {s s' : State} {id : JobId} {foreground : Bool}
    (h : s.setForeground id foreground = .ok s') :
    Evolves (.setForeground id foreground) s s' := by
  unfold setForeground at h
  split at h
  · cases h
  rename_i job hfind
  simp only [bind_eq_ok, failIf_eq_ok] at h
  obtain ⟨-, hl, h⟩ := h
  split at h
  · obtain rfl := pure_eq_ok.mp h
    exact .refl
  · rename_i hne
    simp only [bind_eq_ok, failIf_eq_ok, pure_eq_ok] at h
    obtain ⟨-, hfull, rfl⟩ := h
    refine .update hfind (.foregrounded rfl (by simpa using hl) hne)
      ⟨rfl, rfl, rfl, fun _ h => h⟩ rfl
      (fun h => ?_) fun h => ?_
    · show (if job.admitted then if foreground then decrement s.admitted else s.admitted + 1
        else s.admitted) + job.weight = s.admitted + (job.withForeground foreground).notify.weight
      unfold Job.weight at *
      show _ = s.admitted + if job.admitted = true ∧ foreground = false then 1 else 0
      cases ha : job.admitted with
      | false => simp
      | true =>
        cases foreground with
        | false =>
          have : job.result.snapshot.foreground = true := by simpa using hne
          simp [this]
        | true =>
          have hfg : job.result.snapshot.foreground = false := by simpa using hne
          simp only [ha, hfg, and_self, if_true] at h
          simp only [hfg, and_self, if_true, decrement, if_neg (show ¬ s.admitted = 0 by omega),
            Bool.true_eq_false, and_false, if_false]
          omega
    · have : foreground = false := by
        cases foreground with
        | false => rfl
        | true =>
          have hz : (job.withForeground true).notify.weight = 0 := by
            show (if job.admitted = true ∧ true = false then 1 else 0) = 0
            simp
          rw [hz] at h
          exact absurd h (Nat.not_lt_zero _)
      by_contra hge
      exact hfull ⟨this, by omega⟩

theorem reorderQueued_evolves {s s' : State} {ids : List JobId}
    (h : s.reorderQueued ids = .ok s') : Evolves (.reorderQueued ids) s s' := by
  simp only [reorderQueued, bind_eq_ok, failIf_eq_ok, pure_eq_ok, not_or, not_not] at h
  obtain ⟨-, -, -, ⟨hnd, hall⟩, rfl⟩ := h
  refine Evolves.foldl (P := fun s i => ∀ job, s.jobs.find i = some job →
    job.result.snapshot.deferred = true ∧
    job.result.snapshot.cancelRequested = false) ?_ ?_ hnd s ?_
  · intro s i hi
    unfold reorderJob
    split
    · exact .refl
    · rename_i job hfind
      obtain ⟨hd, hc⟩ := hi job hfind
      exact .set hfind (.reordered rfl hd hc) ⟨rfl, rfl, rfl, fun _ h => h⟩ rfl rfl rfl
  · intro s i j hij hj job hfind
    refine hj job ?_
    unfold reorderJob at hfind
    split at hfind
    · exact hfind
    · rwa [put, OrdMap.find_set_of_ne (Ne.symm hij)] at hfind
  · intro i hi job hfind
    simp only [not_exists, not_and, not_forall, not_or] at hall
    obtain ⟨job', hj', h⟩ := hall i hi
    rw [Option.mem_def, hfind] at hj'
    cases hj'
    exact ⟨by simpa using h.1, by simpa using h.2⟩

theorem shutdown_evolves (s : State) : Evolves .shutdown s s.shutdown := by
  have hfold : ∀ (ids : List JobId) (s : State), Evolves .shutdown s (ids.foldl shutdownJob s) := by
    intro ids
    induction ids with
    | nil => exact fun _ => .refl
    | cons i rest ih =>
      intro s
      have hone : Evolves .shutdown s (s.shutdownJob i) := by
        unfold shutdownJob
        split
        · exact .refl
        · rename_i job hfind
          split
          · exact .refl
          · rename_i hl
            exact .set hfind (.shutDown rfl (by simpa using hl))
              ⟨rfl, rfl, rfl, fun _ h => mem_append_left _ h⟩ rfl rfl rfl
      exact hone.trans (ih _)
  have hstop : Evolves .shutdown s { s with stopping := true } :=
    .still ⟨rfl, rfl, rfl, rfl, fun _ => rfl, fun _ h => .inl h⟩
  exact hstop.trans (hfold _ _)

/-! ## Sections of workers -/

theorem claim_jobs (s : State) (id : JobId) (job : Job) (abort : Option Error) :
    (s.claim id job abort).jobs = s.jobs.set id (job.prepared.taken abort) ∧
      Rest s (s.claim id job abort) ∧ (s.claim id job abort).admitted = s.admitted := by
  unfold claim Job.prepared
  split
  · have hr := transition_rest s id job .preparing
    refine ⟨?_, ⟨hr.journal, hr.limit, hr.issued, hr.stops⟩, ?_⟩
    · show ((s.transition id job .preparing).1.put id _).jobs = _
      rw [put, transition_jobs, transition_snd]
    · show (s.transition id job .preparing).1.admitted = s.admitted
      unfold transition
      split
      · rfl
      · show (if leaves .preparing = true ∧ job.admitted = true ∧
          ¬ job.result.snapshot.foreground = true then decrement s.admitted else s.admitted) = _
        refine if_neg ?_
        rintro ⟨h, -⟩
        cases h
  · exact ⟨rfl, ⟨rfl, rfl, rfl, fun _ h => h⟩, rfl⟩

theorem weight_prepared (job : Job) (abort : Option Error) :
    (job.prepared.taken abort).weight = job.weight := by
  have hprep : job.prepared.weight = job.weight := by
    unfold Job.prepared Job.moved
    split
    · split
      · rfl
      · show Job.weight { job with admitted := job.admitted && !leaves .preparing } = _
        rw [show leaves .preparing = false from rfl, Bool.not_false, Bool.and_true]
    · rfl
  exact hprep

theorem acquire_eq {s s₁ : State} {job job₁ : Job} (h : s.acquire job = some (s₁, job₁)) :
    s₁.jobs = s.jobs ∧ Rest s s₁ ∧ s₁.admitted = s.admitted ∧
      job₁ = { job with lanesHeld := true } := by
  unfold acquire at h
  split at h
  · rename_i hh
    cases h
    refine ⟨rfl, ⟨rfl, rfl, rfl, fun _ h => h⟩, rfl, ?_⟩
    rw [← hh]
  · split at h
    · cases h
      exact ⟨rfl, ⟨rfl, rfl, rfl, fun _ h => h⟩, rfl, rfl⟩
    · cases h

theorem admit_eq (s : State) (job : Job) :
    (s.admit_ job).1.jobs = s.jobs ∧ Rest s (s.admit_ job).1 ∧
      (s.admit_ job).2 = { job with admitted := true } ∧
      (s.admit_ job).1.admitted + job.weight =
        s.admitted + ({ job with admitted := true } : Job).weight := by
  unfold admit_
  split
  · rename_i h
    refine ⟨rfl, ⟨rfl, rfl, rfl, fun _ h => h⟩, ?_, ?_⟩
    · rw [← h]
    · rw [← h]
  · rename_i h
    have h : job.admitted = false := by simpa using h
    refine ⟨rfl, ⟨rfl, rfl, rfl, fun _ h => h⟩, rfl, ?_⟩
    unfold Job.weight
    rw [h]
    cases job.result.snapshot.foreground <;> simp

theorem scan_evolves (now : Nat) (ids : List JobId) (s : State) :
    Evolves (.pick now) s (scan now ids s) := by
  induction ids generalizing s with
  | nil => exact .refl
  | cons id rest ih =>
    unfold scan
    split
    · exact ih s
    rename_i job hfind
    split
    · exact ih s
    rename_i hgo
    simp only [not_or, Bool.not_eq_true] at hgo
    obtain ⟨hlive, hfree⟩ := hgo
    have htaken : ∀ abort, abort = job.abortAt now → (abort = none → Ready s.journal now job) →
        ∀ {s₁ : State}, s₁.jobs = s.jobs → Rest s s₁ →
        s₁.admitted + job.weight = s.admitted + (job.readied abort).weight →
        (job.weight < (job.readied abort).weight → s.admitted < s.concurrencyLimit) →
        Evolves (.pick now) s (s₁.claim id (job.readied abort) abort) := by
      rintro _ rfl hready s₁ hj hr ha hl
      obtain ⟨h1, h2, h3⟩ := s₁.claim_jobs id (job.readied (job.abortAt now)) (job.abortAt now)
      refine .update hfind (.taken rfl hlive hfree hready) (hr.trans h2) (by rw [h1, hj])
        (fun _ => ?_) ?_
      · rw [h3, ha, weight_prepared]
      · rw [weight_prepared]; exact hl
    cases habort : job.abortAt now with
    | some e =>
      have hsame : job.readied (some e) = job := if_neg fun h => by cases h.1
      have := htaken (some e) habort.symm nofun rfl ⟨rfl, rfl, rfl, fun _ h => h⟩
        (by rw [hsame]) (by rw [hsame]; exact fun h => absurd h (Nat.lt_irrefl _))
      rwa [hsame] at this
    | none =>
      dsimp only
      split
      · exact ih s
      rename_i hreceipt
      split
      · exact ih s
      rename_i hwait
      split
      · rename_i hpause
        split
        · exact ih s
        · -- The job is paused on the way.
          rename_i hnot
          refine ReflTransGen.trans ?_ (ih _)
          have hr := transition_rest s id { job with resume := job.state } .paused
          have hc : ¬ (job.state = .committing ∧ job.commitEntered = true) := by
            simpa using hpause.2
          refine Evolves.update hfind (.paused rfl hlive hfree habort hpause.1 hnot hwait hc)
            ⟨hr.journal, hr.limit, hr.issued, hr.stops⟩ ?_ (fun h => ?_) fun h => ?_
          · rw [put, transition_jobs, transition_snd]
          · exact transition_admitted { job with resume := job.state } id .paused h
          · exact absurd (Job.weight_moved_le { job with resume := job.state } .paused)
              (by exact Nat.not_le.mpr h)
      rename_i hpause
      have hready : (job.result.snapshot.deferred = false → job.readyAt ≤ now) →
          Ready s.journal now job := by
        refine fun hdelay => ⟨fun hd => ?_, hwait, fun hp => ?_, hdelay⟩
        · rw [not_and_or, not_or] at hreceipt
          rcases hreceipt with h | h
          · exact absurd hd h
          · exact ⟨by simpa using h.1, by simpa using h.2⟩
        · simpa [hp] using hpause
      split
      · rename_i hd
        have hsame : job.readied none = job := if_neg fun h => by rw [hd] at h; cases h.2
        have := htaken none habort.symm (fun _ => hready fun h => by rw [hd] at h; cases h) rfl
          ⟨rfl, rfl, rfl, fun _ h => h⟩ (by rw [hsame])
            (by rw [hsame]; exact fun h => absurd h (Nat.lt_irrefl _))
        rwa [hsame] at this
      rename_i hd
      have hd : job.result.snapshot.deferred = false := by simpa using hd
      split
      · exact ih s
      rename_i hlimit
      split
      · exact ih s
      rename_i hdelay
      split
      · exact ih s
      · rename_i s₁ job₁ hacq
        obtain ⟨hj, hr, ha, rfl⟩ := acquire_eq hacq
        obtain ⟨hj', hr', hjob, ha'⟩ := s₁.admit_eq { job with lanesHeld := true }
        have hsame : job.readied none = { job with lanesHeld := true, admitted := true } :=
          if_pos ⟨rfl, hd⟩
        have := @htaken none habort.symm (fun _ => hready fun _ => by omega)
          (s₁.admit_ { job with lanesHeld := true }).1 (hj'.trans hj) (hr.trans hr')
          ?_ ?_
        · rw [hjob]
          rwa [hsame] at this
        · rw [hsame, ← ha]
          exact ha'
        · intro hw
          by_contra hge
          refine hlimit ⟨?_, ?_, by omega⟩
          · by_contra hf
            have hz : (job.readied none).weight = 0 := by
              rw [hsame]
              exact if_neg fun h => hf h.2
            rw [hz] at hw
            exact absurd hw (Nat.not_lt_zero _)
          · by_contra hadm
            have hadm : job.admitted = true := by simpa using hadm
            have heq : (job.readied none).weight = job.weight := by
              rw [hsame, Job.weight, Job.weight, hadm]
            rw [heq] at hw
            exact absurd hw (Nat.lt_irrefl _)

theorem pick_evolves (s : State) (now : Nat) : Evolves (.pick now) s (s.pick now) := by
  unfold pick
  split
  · exact .refl
  · exact scan_evolves now _ s

theorem takeReceipt_evolves (s : State) (id : JobId) :
    Evolves (.takeReceipt id) s (s.takeReceipt id) := by
  unfold takeReceipt
  split
  · exact .refl
  rename_i job hfind
  split
  · rename_i claim hp
    split
    · rename_i h
      exact .set hfind (.receiptTaken rfl hp h.1 h.2) ⟨rfl, rfl, rfl, fun _ h => h⟩ rfl rfl rfl
    · exact .refl
  · exact .refl

theorem saveReceipt_evolves (s : State) (id : JobId) (failure : Option Error) :
    Evolves (.saveReceipt id failure) s (s.saveReceipt id failure) := by
  unfold saveReceipt
  split
  · exact .refl
  rename_i job hfind
  split
  · rename_i claim hp
    split
    · rename_i h
      split
      · exact .refl
      · exact .set hfind (.receiptFailed rfl hp h.1 h.2) ⟨rfl, rfl, rfl, fun _ h => h⟩ rfl rfl rfl
      · rename_i order hr
        exact .set hfind (.receiptSaved rfl hp h.1 h.2 hr) ⟨rfl, rfl, rfl, fun _ h => h⟩ rfl rfl rfl
    · exact .refl
  · exact .refl

theorem opened_weight (journal : Bool) (job : Job) (claim : Claim) (input : StepInput) :
    (job.opened journal claim input).1.weight = job.weight := by
  unfold Job.opened openItems
  split
  · dsimp only
    split
    · rfl
    · split <;> rfl
  · rfl

theorem advanced_weight (journal : Bool) (job : Job) (claim : Claim) (input : StepInput) :
    (job.advanced journal claim input).1.weight = job.weight := by
  rw [← opened_weight journal job claim input]
  have hrec : ∀ (job : Job) result, result.snapshot.foreground = job.result.snapshot.foreground →
      ({ job with result } : Job).weight = job.weight := by
    intro job result h
    rw [Job.weight, Job.weight]
    rw [h]
  have hfg := record_snapshot .foreground
    (job.opened journal claim input).1.request.maxItemResults input.fault
    (job.opened journal claim input).1.result (stepOf (job.opened journal claim input).2 input)
  unfold Job.advanced
  dsimp only
  split
  · exact hrec _ _ hfg
  · exact hrec _ _ hfg

/-- What `settle` does to the job and with it. -/
theorem settle_eq (s : State) (id : JobId) (job : Job) (claim : Claim) (input : StepInput)
    (now : Nat) : ((job.advanced s.journal claim input).2.retry = true ∧
        (job.advanced s.journal claim input).1.MayRetry (job.advanced s.journal claim input).2 ∧
        s.settle id job claim input now = s.put id ((job.advanced s.journal claim input).1.delayed
          (job.advanced s.journal claim input).2 now)) ∨
      s.settle id job claim input now = s.resolve id (Job.verdict id now
        (job.advanced s.journal claim input).1 (job.advanced s.journal claim input).2) := by
  have hunfold : s.settle id job claim input now =
      (if (job.advanced s.journal claim input).2.retry = true then
        if (job.advanced s.journal claim input).1.state ≠ .committing ∧
            (job.advanced s.journal claim input).2.error.any (·.retryable) ∧
            (job.advanced s.journal claim input).1.result.snapshot.retryAttempt <
              (job.advanced s.journal claim input).1.request.maxRetries then
          s.put id ((job.advanced s.journal claim input).1.delayed
            (job.advanced s.journal claim input).2 now)
        else s.resolve id (judge id now { (job.advanced s.journal claim input).2 with
          error := (job.advanced s.journal claim input).2.error <|>
            some ⟨.internal, "invalid-retry", false⟩ }
          ((job.advanced s.journal claim input).1, .failed))
      else s.resolve id (judge id now (job.advanced s.journal claim input).2
        ((job.advanced s.journal claim input).1.withSnapshot fun p => { p with retryAttempt := 0 },
          (job.advanced s.journal claim input).2.next))) := rfl
  rw [hunfold]
  unfold Job.verdict
  split
  · split
    · rename_i h1 h2
      exact .inl ⟨h1, h2, rfl⟩
    · exact .inr rfl
  · exact .inr rfl

theorem judged_weight {id : JobId} {step : JobStep} {v v' : Verdict} (h : Judged id step v v') :
    v'.1.weight = v.1.weight := by
  cases h <;> rfl

theorem verdict_weight (id : JobId) (now : Nat) (job : Job) (step : JobStep) :
    (Job.verdict id now job step).1.weight = job.weight := by
  unfold Job.verdict
  split
  · exact judged_weight (judge_judged _ _ _ _)
  · exact judged_weight (judge_judged _ _ _ _)

theorem resolve_eq (s : State) (id : JobId) (v : Verdict) :
    (s.resolve id v).jobs = s.jobs.set id (Job.resolved v) ∧ Rest s (s.resolve id v) ∧
      (v.1.weight ≤ s.admitted →
        (s.resolve id v).admitted + v.1.weight = s.admitted + (Job.resolved v).weight) ∧
      (Job.resolved v).weight ≤ v.1.weight := by
  unfold resolve Job.resolved
  split
  · exact ⟨rfl, ⟨rfl, rfl, rfl, fun _ h => h⟩, fun _ => rfl, le_refl _⟩
  · dsimp only
    split
    · have hr := transition_rest s id { v.1 with resume := v.2 } .paused
      refine ⟨?_, ⟨hr.journal, hr.limit, hr.issued, hr.stops⟩, ?_, ?_⟩
      · rw [put, transition_jobs, transition_snd]
      · exact transition_admitted { v.1 with resume := v.2 } id .paused
      · exact Job.weight_moved_le { v.1 with resume := v.2 } .paused
    · have hr := transition_rest s id v.1 v.2
      refine ⟨?_, ⟨hr.journal, hr.limit, hr.issued, hr.stops⟩, ?_, ?_⟩
      · rw [put, transition_jobs, transition_snd]
      · exact transition_admitted v.1 id v.2
      · exact Job.weight_moved_le v.1 v.2

theorem advance_evolves (s : State) (id : JobId) (input : StepInput) (now : Nat) :
    Evolves (.advance id input now) s (s.advance id input now) := by
  unfold advance
  split
  · exact .refl
  rename_i job hfind
  split
  · rename_i claim hp
    split
    · exact .refl
    · rename_i hgo
      rcases settle_eq s id job claim input now with ⟨h1, h2, h⟩ | h
      · rw [h]
        exact .set hfind (.again rfl hp hgo h1 h2) ⟨rfl, rfl, rfl, fun _ h => h⟩ rfl rfl
          (advanced_weight s.journal job claim input)
      · rw [h]
        obtain ⟨h1, h2, h3, h4⟩ := resolve_eq s id (Job.verdict id now
          (job.advanced s.journal claim input).1 (job.advanced s.journal claim input).2)
        rw [verdict_weight, advanced_weight] at h3 h4
        exact .update hfind (.settled rfl hp hgo) h2 h1 h3
          fun h => absurd h4 (by exact Nat.not_le.mpr h)
  · exact .refl

theorem collect_evolves (s : State) (id : JobId) (effects : Option CompletedEffects)
    (fault : Nat → Option Error) :
    Evolves (.collect id effects fault) s (s.collect id effects fault) := by
  unfold collect
  split
  · exact .refl
  rename_i job hfind
  split
  · rename_i t hp
    have hset : Evolves (.collect id effects fault) s
        (s.put id (job.gathered t effects fault)) := by
      refine .set hfind (.collected rfl hp) ⟨rfl, rfl, rfl, fun _ h => h⟩ rfl rfl ?_
      unfold Job.gathered
      split
      · rfl
      · rename_i effects
        have hfg := recordLate_snapshot .foreground fault job.result effects
        rw [Job.weight, Job.weight]
        rw [hfg]
    split
    · exact hset
    · exact hset
  · exact .refl

theorem release_eq (s : State) (job : Job) :
    (s.release job).2 = { job with lanesHeld := false } ∧ (s.release job).1.jobs = s.jobs ∧
      Rest s (s.release job).1 ∧ (s.release job).1.admitted = s.admitted := by
  unfold release
  split
  · exact ⟨rfl, rfl, ⟨rfl, rfl, rfl, fun _ h => h⟩, rfl⟩
  · rename_i h
    have h : job.lanesHeld = false := by simpa using h
    refine ⟨?_, rfl, ⟨rfl, rfl, rfl, fun _ h => h⟩, rfl⟩
    rw [← h]

theorem finish_evolves (s : State) (id : JobId) (input : EndInput) :
    Evolves (.finish id input) s (s.finish id input) := by
  unfold finish
  split
  · exact .refl
  rename_i job hfind
  split
  · rename_i t collected hp
    have hclose : ∀ s₁ : State, s₁.jobs = s.jobs → Rest s s₁ → s₁.admitted = s.admitted →
        Evolves (.finish id input) s (s₁.close id { job.cleaned (job.cleanup s.journal collected
          input) with lanesHeld := false }
          (if job.cleanup s.journal collected input = [] then t else .failed)) := by
      intro s₁ hj hr ha
      have hr' := transition_rest s₁ id
        { job.cleaned (job.cleanup s.journal collected input) with lanesHeld := false }
        (if job.cleanup s.journal collected input = [] then t else .failed)
      refine .update hfind (.finished rfl hp) (hr.trans ⟨hr'.journal, hr'.limit,
        hr'.issued, hr'.stops⟩) ?_ (fun h => ?_) fun h => ?_
      · unfold close
        rw [put, transition_jobs, transition_snd, hj]
        rfl
      · rw [← ha] at h ⊢
        exact transition_admitted { job.cleaned _ with lanesHeld := false } id _ h
      · exact absurd (Job.weight_moved_le { job.cleaned _ with lanesHeld := false } _)
          (by exact Nat.not_le.mpr h)
    obtain ⟨h1, h2, h3, h4⟩ := s.release_eq (job.cleaned (job.cleanup s.journal collected input))
    have hfinish := hclose _ h2 h3 h4
    rw [← h1] at hfinish
    exact hfinish
  · exact .refl

end State

/-! ## Runs -/

/-- Every action is a sequence of moves. -/
theorem act_evolves (fold : Str → Option Str) {s : State} (hs : s.Known) (a : Action) :
    Evolves a s (s.act fold a) := by
  have hcall : ∀ r : Except Error State, (∀ s', r = .ok s' → Evolves a s s') →
      Evolves a s (s.orSame r) := by
    intro r hr
    cases r with
    | error e => exact .refl
    | ok s' => exact hr s' rfl
  cases a with
  | submit id hasTask stopped request =>
    rw [State.act]
    split
    · exact .refl
    · rename_i hnew
      exact hcall _ fun s' h => State.submit_evolves hs hnew h
  | control ids control => exact hcall _ fun s' h => State.control_evolves (.inl rfl) h
  | reply id answer now => exact hcall _ fun s' h => State.reply_evolves h
  | forget id => exact hcall _ fun s' h => State.forget_evolves h
  | setForeground id foreground => exact hcall _ fun s' h => State.setForeground_evolves h
  | setConcurrencyLimit limit =>
    refine hcall _ fun s' h => ?_
    simp only [State.setConcurrencyLimit, bind_eq_ok, failIf_eq_ok, pure_eq_ok] at h
    obtain ⟨-, -, rfl⟩ := h
    exact .still ⟨rfl, rfl, rfl, rfl, fun h => absurd rfl (h limit), fun _ h => .inl h⟩
  | setLaneLimit lane n =>
    refine hcall _ fun s' h => ?_
    simp only [State.setLaneLimit, bind_eq_ok, failIf_eq_ok, pure_eq_ok] at h
    obtain ⟨-, -, rfl⟩ := h
    exact .still ⟨rfl, rfl, rfl, rfl, fun _ => rfl, fun _ h => .inl h⟩
  | reorderQueued ids => exact hcall _ fun s' h => State.reorderQueued_evolves h
  | shutdown => exact State.shutdown_evolves s
  | requestStop id =>
    rw [State.act]
    split
    · have hstill : Evolves (.requestStop id) s { s with stops := s.stops.erase id } := by
        refine .still ⟨rfl, rfl, rfl, rfl, fun _ => rfl, fun i h => ?_⟩
        by_cases hi : i = id
        · exact .inr (by rw [hi])
        · exact .inl ((mem_erase_of_ne hi).mpr h)
      exact hstill.trans (State.requestStop_evolves _ (.inl rfl))
    · exact .refl
  | cancelReply id =>
    rw [State.act]
    split
    · have hstill : Evolves (.cancelReply id) s { s with cancels := s.cancels.erase id } :=
        .still ⟨rfl, rfl, rfl, rfl, fun _ => rfl, fun _ h => .inl h⟩
      refine hstill.trans ?_
      dsimp only
      cases h : State.control { s with cancels := s.cancels.erase id } [id] .cancel with
      | error e => exact .refl
      | ok s' => exact State.control_evolves (.inr ⟨id, rfl, rfl, rfl⟩) h
    · exact .refl
  | externalStop id => exact State.requestStop_evolves s (.inr rfl)
  | pick now => exact State.pick_evolves s now
  | takeReceipt id => exact State.takeReceipt_evolves s id
  | saveReceipt id failure => exact State.saveReceipt_evolves s id failure
  | advance id input now => exact State.advance_evolves s id input now
  | collect id effects fault => exact State.collect_evolves s id effects fault
  | finish id input => exact State.finish_evolves s id input

section

variable {a : Action} {id : JobId} {s s' : State}

theorem Evolves.journal (h : Evolves a s s') : s'.journal = s.journal := by
  induction h with
  | refl => rfl
  | tail _ hgo ih =>
    cases hgo with
    | still h => exact h.journal.trans ih
    | moves h => exact h.journal.trans ih

/-- The calls of `request_stop` to come are made, one by one. -/
theorem Evolves.stops (h : Evolves a s s') : ∀ i ∈ s.stops, i ∈ s'.stops ∨ a = .requestStop i := by
  induction h with
  | refl => exact fun _ h => .inl h
  | tail _ hgo ih =>
    intro i hi
    rcases ih i hi with h' | h'
    · cases hgo with
      | still h => exact h.stops i h'
      | moves h => exact .inl (h.stops h')
    · exact .inr h'

/-- What a section does to each job. -/
theorem Evolves.turns (h : Evolves a s s') (id : JobId) :
    ReflTransGen (Turn s.journal a id) (s.jobs.find id) (s'.jobs.find id) := by
  induction h with
  | refl => exact .refl
  | @tail s₁ s₂ hrun hgo ih =>
    cases hgo with
    | still h => rw [h.jobs]; exact ih
    | @moves i o o' h =>
      rw [h.jobs, OrdMap.find_put]
      by_cases hi : id = i
      · subst hi
        rw [if_pos rfl]
        have hturn := h.turn
        rw [Evolves.journal hrun] at hturn
        rw [h.find] at ih
        exact ih.tail hturn
      · rwa [if_neg hi]

end

/-- Identifiers stay drawn, and what every turn keeps of a job is kept of the job as long as it is
there. -/
theorem Evolves.keeps {a : Action} {id : JobId} {s s' : State} {I : Job → Prop}
    (hI : ∀ {journal job job'}, Turn journal a id (some job) (some job') → I job → I job')
    (h : Evolves a s s') (hid : id ∈ s.issued) (hs : ∀ job, s.jobs.find id = some job → I job) :
    id ∈ s'.issued ∧ ∀ job, s'.jobs.find id = some job → I job := by
  induction h with
  | refl => exact ⟨hid, hs⟩
  | tail _ hgo ih =>
    cases hgo with
    | still h =>
      rw [h.issued, h.jobs]
      exact ih
    | @moves i o o' h =>
      refine ⟨?_, fun job hfind => ?_⟩
      · rw [h.issued]
        split
        · exact mem_cons_of_mem _ ih.1
        · exact ih.1
      · rw [h.jobs, OrdMap.find_put] at hfind
        split at hfind
        · rename_i hi
          subst hi
          cases o with
          | none => exact absurd ih.1 (h.fresh rfl)
          | some old =>
            have hturn := h.turn
            rw [hfind] at hturn
            exact hI hturn (ih.2 old h.find)
        · exact ih.2 job hfind

variable {P : State → Action → Prop} {o o' : Option Job}

theorem Reaches.known {fold : Str → Option Str} {s : State} (h : Reaches fold P s) : s.Known := by
  induction h with
  | start => exact fun id job hjob => by cases hjob
  | act h hp ih => exact (act_evolves fold ih _).known ih

/-- What a section does to each job, in every run. -/
theorem Reaches.turns {fold : Str → Option Str} {s : State}
    (h : Reaches fold P s) (a : Action) (id : JobId) :
    ReflTransGen (Turn s.journal a id) (s.jobs.find id) ((s.act fold a).jobs.find id) :=
  (act_evolves fold h.known a).turns id

/-- What every turn of an action that satisfies `Q` keeps of a job. -/
def TurnKeeps (Q : Action → Prop) (I : JobId → Job → Prop) : Prop :=
  ∀ ⦃journal a id o o'⦄, Q a → Turn journal a id o o' → (∀ job, o = some job → I id job) →
    ∀ job, o' = some job → I id job

theorem TurnKeeps.turns {Q : Action → Prop} {I : JobId → Job → Prop} (hI : TurnKeeps Q I)
    {journal : Bool} {a : Action} {id : JobId} (hq : Q a)
    (h : ReflTransGen (Turn journal a id) o o') (ho : ∀ job, o = some job → I id job) :
    ∀ job, o' = some job → I id job := by
  induction h with
  | refl => exact ho
  | tail _ ht ih => exact hI hq ht ih

/-- What every turn keeps of a job holds of every job in every run. -/
theorem Reaches.forall_job {fold : Str → Option Str} {Q : Action → Prop}
    {I : JobId → Job → Prop} (hI : TurnKeeps Q I) {s : State} (h : Reaches fold (fun _ => Q) s) :
    ∀ id job, s.jobs.find id = some job → I id job := by
  induction h with
  | start => exact fun id job hjob => by cases hjob
  | @act s a h hq ih => exact fun id => hI.turns hq (h.turns a id) (ih id)

/-- The states of the run that takes the actions in turn. -/
def State.run (fold : Str → Option Str) (s : State) (actions : Nat → Action) : Nat → State
  | 0 => s
  | n + 1 => (s.run fold actions n).act fold (actions n)

theorem State.run_known {fold : Str → Option Str} {actions : Nat → Action} {s : State}
    (hs : s.Known) (n : Nat) : (s.run fold actions n).Known := by
  induction n with
  | zero => exact hs
  | succ n ih => exact (act_evolves fold ih _).known ih

/-- What every turn keeps of a job is kept of it in the rest of the run. -/
theorem State.run_keeps {fold : Str → Option Str} {actions : Nat → Action} {s : State}
    (hs : s.Known) {id : JobId} {I : Job → Prop} {m n : Nat} (hmn : m ≤ n)
    (hI : ∀ k, m ≤ k → k < n → ∀ {journal job job'},
      Turn journal (actions k) id (some job) (some job') → I job → I job')
    {old : Job} (hold : (s.run fold actions m).jobs.find id = some old) (h : I old) :
    ∀ job, (s.run fold actions n).jobs.find id = some job → I job := by
  suffices hall : id ∈ (s.run fold actions n).issued ∧
      ∀ job, (s.run fold actions n).jobs.find id = some job → I job from hall.2
  induction n, hmn using Nat.le_induction with
  | base =>
    refine ⟨run_known hs m id old hold, fun job hjob => ?_⟩
    rw [hold] at hjob
    cases hjob
    exact h
  | succ n hmn ih =>
    obtain ⟨h1, h2⟩ := ih fun k hk hkn => hI k hk (Nat.lt_succ_of_lt hkn)
    exact (act_evolves fold (run_known hs n) (actions n)).keeps
      (fun ht => hI n hmn (Nat.lt_succ_self n) ht) h1 h2

/-- What a job has after a section it had before, or one of its turns gave it. -/
theorem turns_since {journal : Bool} {a : Action} {id : JobId} {P : Job → Prop} {R : Prop}
    (hstep : ∀ o job, Turn journal a id o (some job) → P job → (∃ old, o = some old ∧ P old) ∨ R)
    (h : ReflTransGen (Turn journal a id) o o') {job : Job} (heq : o' = some job) (hp : P job) :
    (∃ old, o = some old ∧ P old) ∨ R := by
  induction h generalizing job with
  | refl => exact .inl ⟨job, heq, hp⟩
  | @tail mid o' hrun ht ih =>
    subst heq
    rcases hstep mid job ht hp with ⟨old, hold, hpold⟩ | hr
    · exact ih hold hpold
    · exact .inr hr

/-- What a job has at some moment of a run was given to it before. -/
theorem State.run_since {fold : Str → Option Str} {actions : Nat → Action} {workers retained : Nat}
    {journal : Bool} {id : JobId} {P : Job → Prop} {R : Nat → Prop}
    (hstep : ∀ n job, ((State.new workers retained journal).run fold actions (n + 1)).jobs.find id =
      some job → P job → (∃ old, ((State.new workers retained journal).run fold actions n).jobs.find
        id = some old ∧ P old) ∨ R n) {k : Nat} {job : Job}
    (hfind : ((State.new workers retained journal).run fold actions k).jobs.find id = some job)
    (hp : P job) : ∃ j < k, R j := by
  induction k generalizing job with
  | zero => cases hfind
  | succ k ih =>
    rcases hstep k job hfind hp with ⟨old, hold, hpold⟩ | hr
    · obtain ⟨j, hj, hr⟩ := ih hold hpold
      exact ⟨j, Nat.lt_succ_of_lt hj, hr⟩
    · exact ⟨k, Nat.lt_succ_self k, hr⟩

theorem State.known_new (workers retained : Nat) (journal : Bool) :
    (State.new workers retained journal).Known := fun id job hjob => by cases hjob

theorem State.run_reaches {fold : Str → Option Str}
    {actions : Nat → Action} (workers retained : Nat) (journal : Bool)
    (hp : ∀ n, P ((State.new workers retained journal).run fold actions n) (actions n)) (n : Nat) :
    Reaches fold P ((State.new workers retained journal).run fold actions n) := by
  induction n with
  | zero => exact .start _ _ _
  | succ n ih => exact .act ih (hp n)

section

variable (fold : Str → Option Str) (workers retained : Nat) (journal : Bool)
  (actions : Nat → Action)

/-- The state of the run before its action `n`. -/
abbrev stateAt (n : Nat) : State := (State.new workers retained journal).run fold actions n

theorem turns_at (n : Nat) (id : JobId) :
    ReflTransGen (Turn (stateAt fold workers retained journal actions n).journal (actions n) id)
      ((stateAt fold workers retained journal actions n).jobs.find id)
      ((stateAt fold workers retained journal actions (n + 1)).jobs.find id) :=
  (act_evolves fold (State.run_known (State.known_new workers retained journal) n)
    (actions n)).turns id

end

end Hc.Operations
