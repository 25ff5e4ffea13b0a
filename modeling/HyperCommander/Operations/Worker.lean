import HyperCommander.Operations.TurnLemmas

/-!
# Jobs and their workers

* `Sound`: what holds of a job and of its worker between two sections.
* `Sound.turn`: every turn keeps it.
-/

namespace Hc.Operations

open Storage Outcome Relation

/-- What holds of a job and its worker between two sections. -/
structure Sound (job : Job) : Prop where
  resume : isTerminal job.resume = false
  busy : job.executing = true ↔ job.phase ≠ .idle
  live : job.phase ≠ .idle → isTerminal job.state = false
  ended : ∀ t, job.phase = .ended t → isTerminal t = true
  collected : ∀ t cleanup, job.phase = .collected t cleanup → isTerminal t = true
  unadmitted : isTerminal job.state = true → job.admitted = false

section

variable {job job' : Job}

theorem Sound.idle (h : Sound job) (hx : job.executing = false) : job.phase = .idle := by
  by_contra hne
  rw [h.busy.mpr hne] at hx
  cases hx

/-- A job that differs in nothing that this is about. -/
theorem Sound.of_eq (h : Sound job) (h1 : job'.resume = job.resume)
    (h2 : job'.executing = job.executing) (h3 : job'.phase = job.phase)
    (h4 : job'.state = job.state) (h5 : job'.admitted = job.admitted) : Sound job' where
  resume := by rw [h1]; exact h.resume
  busy := by rw [h2, h3]; exact h.busy
  live := by rw [h3, h4]; exact h.live
  ended := by rw [h3]; exact h.ended
  collected := by rw [h3]; exact h.collected
  unadmitted := by rw [h4, h5]; exact h.unadmitted

/-- A job that no worker has. -/
theorem Sound.of_idle (h1 : isTerminal job.resume = false) (h2 : job.executing = false)
    (h3 : job.phase = .idle) (h4 : isTerminal job.state = true → job.admitted = false) :
    Sound job where
  resume := h1
  busy := by rw [h2, h3]; simp
  live hne := absurd h3 hne
  ended t ht := by rw [h3] at ht; cases ht
  collected t c ht := by rw [h3] at ht; cases ht
  unadmitted := h4

/-- A job that a worker has. -/
theorem Sound.of_busy (h1 : isTerminal job.resume = false) (h2 : job.executing = true)
    (h3 : job.phase ≠ .idle) (h4 : isTerminal job.state = false)
    (h5 : ∀ t, job.phase = .ended t → isTerminal t = true)
    (h6 : ∀ t cleanup, job.phase = .collected t cleanup → isTerminal t = true) : Sound job where
  resume := h1
  busy := by rw [h2]; exact ⟨fun _ => h3, fun _ => rfl⟩
  live _ := h4
  ended := h5
  collected := h6
  unadmitted ht := by rw [h4] at ht; cases ht

/-- A job goes on to a state that is not terminal. -/
theorem Sound.moved (h : Sound job) {next : JobState} (hn : isTerminal next = false) :
    Sound (job.moved next) := by
  obtain ⟨c, a, heq, -⟩ := job.moved_eq next
  rw [heq]
  exact ⟨h.resume, h.busy, fun _ => hn, h.ended, h.collected,
    fun ht => by rw [show isTerminal next = true from ht] at hn; cases hn⟩

theorem Job.readied_eq (job : Job) (abort : Option Error) : ∃ lanesHeld admitted,
    job.readied abort = { job with lanesHeld, admitted } ∧
    (abort = none → job.result.snapshot.deferred = false → lanesHeld = true ∧ admitted = true) ∧
    (job.admitted = true → admitted = true) := by
  unfold readied
  split
  · exact ⟨true, true, rfl, fun _ _ => ⟨rfl, rfl⟩, fun _ => rfl⟩
  · rename_i h
    exact ⟨job.lanesHeld, job.admitted, rfl, fun h1 h2 => absurd ⟨h1, h2⟩ h, fun h => h⟩

/-- What the worker that takes a job changes. -/
theorem Job.prepared_eq (job : Job) : ∃ state cancelRequested,
    job.prepared = job.withSnapshot (fun p => { p with state, cancelRequested }) ∧
    (state = job.state ∨ job.state = .queued ∧ job.result.snapshot.deferred = false ∧
      state = .preparing) ∧
    (job.state = .queued → job.result.snapshot.deferred = false → state = .preparing) ∧
    (job.result.snapshot.cancelRequested = true → cancelRequested = true) ∧
    (cancelRequested = true → job.result.snapshot.cancelRequested = true ∨
      job.stopRequested = true) := by
  unfold prepared
  split
  · rename_i h
    obtain ⟨c, a, heq, h1, h2, h3, -⟩ := job.moved_eq .preparing
    refine ⟨.preparing, c, ?_, .inr ⟨h.2, h.1, rfl⟩, fun _ _ => rfl, h1, h2⟩
    rw [heq, h3 rfl]
    rfl
  · rename_i h
    exact ⟨job.state, job.result.snapshot.cancelRequested, rfl, .inl rfl,
      fun h1 h2 => absurd ⟨h2, h1⟩ h, fun h => h, .inl⟩

/-- A step of the abort that a worker took along. -/
theorem Job.advanced_abort (job : Job) (journal : Bool) (claim : Claim) (input : State.StepInput)
    {e : Error} (h : (job.opened journal claim input).2 = some e) :
    (job.advanced journal claim input).2 =
      { next := if e.category = .cancelled then .cancelled else .failed, error := some e } := by
  unfold Job.advanced
  dsimp only
  rw [h]
  exact record_plain _ _ _ rfl rfl rfl rfl

/-- A worker that took an abort along ends the job. -/
theorem Job.verdict_abort (job : Job) (journal : Bool) {claim : Claim} (input : State.StepInput)
    (id : JobId) (now : Nat) (hne : claim.abort ≠ none) : isTerminal (Job.verdict id now
      (job.advanced journal claim input).1 (job.advanced journal claim input).2).2 = true := by
  obtain ⟨e, he⟩ := Option.ne_none_iff_exists'.mp hne
  have hstep :=
    Job.advanced_abort job journal claim input (e := e)
      (by rw [Job.opened, if_neg fun h => hne h.1, he])
  obtain ⟨step', attempt, from_, hj, -, -, hnext, -⟩ :=
    Job.verdict_judged id now (job.advanced journal claim input).1
      (job.advanced journal claim input).2
  have hterm : isTerminal from_ = true := by
    rw [hnext (by rw [hstep]), hstep]
    split <;> rfl
  revert hj
  generalize Job.verdict id now _ _ = v
  intro hj
  cases hj with
  | goes hsrc =>
    rcases hsrc with h | h | h
    · exact (congrArg isTerminal h).trans hterm
    · rw [h]; rfl
    · rw [h]; rfl
  | asks hv =>
    rw [show from_ = .waitingForUser from hv] at hterm
    cases hterm

/-- A worker that took an abort along does not come back for another try. -/
theorem Job.abort_of_retry {journal : Bool} {claim : Claim} {input : State.StepInput}
    (h : (job.advanced journal claim input).2.retry = true) : claim.abort = none := by
  by_contra hne
  obtain ⟨e, he⟩ := Option.ne_none_iff_exists'.mp hne
  rw [Job.advanced_abort _ _ _ _ (e := e) (by rw [Job.opened, if_neg fun h => hne h.1, he])] at h
  cases h

theorem Sound.steered (h : Sound job) (control : JobControl) : Sound (job.steered control) := by
  cases control with
  | resume =>
    unfold Job.steered
    dsimp only
    have hsame : Sound (job.withSnapshot fun p => { p with pauseRequested := false }) :=
      h.of_eq rfl rfl rfl rfl rfl
    split
    · exact hsame.moved h.resume
    · exact hsame
  | _ => exact h.of_eq rfl rfl rfl rfl rfl

/-- The verdict on a step keeps the job as its worker has it. -/
theorem Judged.sound {id : JobId} {step : JobStep} {v v' : State.Verdict}
    (h : Judged id step v v') (hs : Sound v.1) : Sound v'.1 := by
  cases h with
  | goes => exact hs.of_eq rfl rfl rfl rfl rfl
  | asks => exact ⟨rfl, hs.busy, hs.live, hs.ended, hs.collected, hs.unadmitted⟩

theorem Sound.verdict (h : Sound job) (id : JobId) (now : Nat) (step : JobStep) :
    Sound (Job.verdict id now job step).1 := by
  unfold Job.verdict
  split
  · exact (State.judge_judged _ _ _ _).sound h
  · refine (State.judge_judged _ _ _ _).sound ?_
    exact h.of_eq rfl rfl rfl rfl rfl

theorem Sound.resolved {v : State.Verdict} (h : Sound v.1) (hlive : isTerminal v.1.state = false)
    (hx : v.1.executing = true) : Sound (Job.resolved v) := by
  by_cases ht : isTerminal v.2 = true
  · rw [Job.resolved, if_pos ht]
    refine .of_busy h.resume hx nofun hlive (fun t heq => ?_) fun t c h => by cases h
    cases heq
    exact ht
  · have ht : isTerminal v.2 = false := by simpa using ht
    obtain ⟨state, resume, c, adm, heq, hs, -⟩ := Job.resolved_eq ht
    have hgo : isTerminal resume = false ∧ isTerminal state = false := by
      rcases hs with ⟨rfl, rfl⟩ | ⟨rfl, rfl, -⟩
      · exact ⟨h.resume, ht⟩
      · exact ⟨rfl, rfl⟩
    rw [heq]
    refine .of_idle hgo.1 rfl rfl fun hterm => ?_
    rw [show isTerminal state = true from hterm] at hgo
    cases hgo.2

/-- Every turn keeps a job sound. -/
theorem Sound.turn {Q : Action → Prop} : TurnKeeps Q fun _ => Sound := by
  intro journal a id o o' _ ht ho
  cases ht with
  | submitted => rintro _ ⟨⟩; exact .of_idle rfl rfl rfl nofun
  | forgotten => exact fun _ h => by cases h
  | linked => rintro _ ⟨⟩; exact (ho _ rfl).of_eq rfl rfl rfl rfl rfl
  | @steered job control =>
    rintro _ ⟨⟩
    exact ((ho _ rfl).steered control).of_eq rfl rfl rfl rfl rfl
  | @replied job answer =>
    rintro _ ⟨⟩
    have hans : Sound (job.answered answer) := (ho _ rfl).of_eq rfl rfl rfl rfl rfl
    exact hans.moved (ho _ rfl).resume
  | foregrounded | reordered | shutDown | stopped =>
    rintro _ ⟨⟩
    exact (ho _ rfl).of_eq rfl rfl rfl rfl rfl
  | @paused job now _ hl =>
    rintro _ ⟨⟩
    have h := ho _ rfl
    have hres : Sound { job with resume := job.state } :=
      ⟨hl, h.busy, h.live, h.ended, h.collected, h.unadmitted⟩
    exact hres.moved rfl
  | @taken job now _ hl =>
    rintro _ ⟨⟩
    have h := ho _ rfl
    obtain ⟨lanes, adm, heq, -⟩ := job.readied_eq (job.abortAt now)
    obtain ⟨state, c, heq', hs, -⟩ := (job.readied (job.abortAt now)).prepared_eq
    have hstate : isTerminal state = false := by
      rw [heq] at hs
      rcases hs with hs | ⟨-, -, hs⟩
      · rw [hs]; exact hl
      · rw [hs]; rfl
    rw [heq', heq]
    exact .of_busy h.resume rfl nofun hstate (fun t h => by cases h)
      fun t c h => by cases h
  | @receiptTaken job claim _ hp =>
    rintro _ ⟨⟩
    have h := ho _ rfl
    have hne : job.phase ≠ .idle := by rw [hp]; exact nofun
    exact .of_busy h.resume (h.busy.mpr hne) nofun (h.live hne)
      (fun t h => by cases h) fun t c h => by cases h
  | @receiptFailed job claim e _ hp =>
    rintro _ ⟨⟩
    have h := ho _ rfl
    have hne : job.phase ≠ .idle := by rw [hp]; exact nofun
    exact .of_busy h.resume (h.busy.mpr hne) nofun (h.live hne)
      (fun t h => by cases h) fun t c h => by cases h
  | receiptSaved =>
    rintro _ ⟨⟩
    exact .of_idle (ho _ rfl).resume rfl rfl (ho _ rfl).unadmitted
  | @again job claim input now =>
    rintro _ ⟨⟩
    obtain ⟨opened, result, heq, hsame, -⟩ := job.advanced_eq journal claim input
    have hstate := hsame .state
    rw [heq]
    refine .of_idle (ho _ rfl).resume rfl rfl fun ht => ?_
    refine (ho _ rfl).unadmitted ?_
    rw [show job.state = result.snapshot.state from hstate.symm]
    exact ht
  | @settled job claim input now _ hp =>
    rintro _ ⟨⟩
    have h := ho _ rfl
    have hne : job.phase ≠ .idle := by rw [hp]; exact nofun
    obtain ⟨opened, result, heq, hsame, -⟩ := job.advanced_eq journal claim input
    have hstate : result.snapshot.state = job.state := hsame .state
    have hadv : Sound (job.advanced journal claim input).1 := by
      rw [heq]
      exact h.of_eq rfl rfl rfl hstate rfl
    have hv : (Job.verdict id now (job.advanced journal claim input).1
        (job.advanced journal claim input).2).1.state = job.state ∧
        (Job.verdict id now (job.advanced journal claim input).1
          (job.advanced journal claim input).2).1.executing = job.executing := by
      have hkeep : ∀ {step : JobStep} {v v' : State.Verdict}, Judged id step v v' →
          v'.1.state = v.1.state ∧ v'.1.executing = v.1.executing := fun hj => by
        cases hj <;> exact ⟨rfl, rfl⟩
      unfold Job.verdict
      rw [heq]
      split
      · obtain ⟨h1, h2⟩ := hkeep (State.judge_judged id now _ _)
        exact ⟨h1.trans hstate, h2⟩
      · obtain ⟨h1, h2⟩ := hkeep (State.judge_judged id now _ _)
        exact ⟨h1.trans hstate, h2⟩
    exact (hadv.verdict id now _).resolved (by rw [hv.1]; exact h.live hne)
      (by rw [hv.2]; exact h.busy.mpr hne)
  | @collected job t effects fault _ hp =>
    rintro _ ⟨⟩
    have h := ho _ rfl
    have hne : job.phase ≠ .idle := by rw [hp]; exact nofun
    have hphase : ∀ result cleanup, result.snapshot.state = job.state →
        Sound { job with result, phase := .collected t cleanup } := fun result cleanup hs => by
      refine .of_busy h.resume (h.busy.mpr hne) nofun ?_ (fun t h => by cases h)
        fun t' c ht => ?_
      · show isTerminal result.snapshot.state = false
        rw [hs]
        exact h.live hne
      · cases ht
        exact h.ended t hp
    unfold Job.gathered
    split
    · exact hphase job.result _ rfl
    · exact hphase _ _ (recordLate_snapshot .state _ _ _)
  | @finished job t collected input _ hp =>
    rintro _ ⟨⟩
    have h := ho _ rfl
    unfold Job.finished
    obtain ⟨c, adm, heq, -, -, -, hadm⟩ := Job.moved_eq
      { job.cleaned (job.cleanup journal collected input) with lanesHeld := false }
      (if job.cleanup journal collected input = [] then t else .failed)
    have hl : State.leaves (if job.cleanup journal collected input = [] then t else .failed) =
        true := by
      unfold State.leaves
      split
      · rw [h.collected t _ hp, Bool.or_true]
      · rfl
    have hlive : isTerminal job.state = false := h.live (by rw [hp]; exact nofun)
    rw [heq]
    refine .of_idle h.resume rfl rfl fun ht => hadm (fun hs => ?_) hl
    exact absurd (hlive.symm.trans ((congrArg isTerminal hs).trans ht)) Bool.false_ne_true

end

end Hc.Operations
