import HyperCommander.Operations.CommitBoundary

/-!
# The life of a job

From its submission a job goes on until it ends, once, and stays as it ended until it is forgotten.
`Lives` says what one section under the mutex can make of the life of a job.

* `Turn.lives`: what every turn makes of it.
* `lived_since`: what a job has at some moment of a run was given to it before.
* `job_lifecycle`: how the jobs of a run live.
-/

namespace Hc.Operations

open Storage Outcome Relation

/-! ## One section -/

/-- The effects that arrived after the last step of the job were collected. -/
def Collected (job : Job) : Prop :=
  isTerminal job.state = true ∨ ∃ t cleanup, job.phase = .collected t cleanup

/-- The job is over: `Finalize` was called and the promise kept. -/
def ends (job : Job) : Nat := if isTerminal job.state then 1 else 0

/-- What a section can make of the life of the job `id`. -/
structure Lives (a : Action) (id : JobId) (job job' : Job) : Prop where
  deferred : job'.request.deferred = job.request.deferred
  metadata : job'.result.snapshot.metadata = job.result.snapshot.metadata
  absorbs : isTerminal job.state = true → job'.state = job.state
  finalized : job'.finalized + ends job = job.finalized + ends job'
  promised : job'.promised + ends job = job.promised + ends job'
  starts : job.result.snapshot.deferred = true → job'.result.snapshot.deferred = false →
    isTerminal job'.state = false → ∃ ids, a = .control ids .start ∧ id ∈ ids
  retries : job'.result.snapshot.retriedAs = job.result.snapshot.retriedAs ∨
    State.retryable job = true ∧ ∃ child hasTask stopped request,
      a = .submit child hasTask stopped request ∧ request.metadata.retryOf = id ∧
        job'.result.snapshot.retriedAs = child
  keeps : Collected job → Collected job'
  collects : Collected job' → Collected job ∨ ∃ effects fault, a = .collect id effects fault

section

variable {journal : Bool} {a : Action} {id : JobId} {job job' : Job}

theorem ends_of_live (h : isTerminal job.state = false) : ends job = 0 := by
  rw [ends, h]
  rfl

theorem ends_of_terminal (h : isTerminal job.state = true) : ends job = 1 := by
  rw [ends, h]
  rfl

/-- A job that goes on as before, as far as its life is concerned. -/
structure Alike (job job' : Job) : Prop where
  deferred : job'.request.deferred = job.request.deferred
  metadata : job'.result.snapshot.metadata = job.result.snapshot.metadata
  finalized : job'.finalized = job.finalized
  promised : job'.promised = job.promised
  waits : job'.result.snapshot.deferred = job.result.snapshot.deferred
  retriedAs : job'.result.snapshot.retriedAs = job.result.snapshot.retriedAs

/-- No worker is at the end of the job. -/
def Uncollected (job : Job) : Prop := ∀ t cleanup, job.phase ≠ .collected t cleanup

theorem Uncollected.not_collected (h : Uncollected job) (hl : isTerminal job.state = false) :
    ¬ Collected job := by
  rintro (ht | ⟨t, cleanup, hp⟩)
  · rw [ht] at hl
    cases hl
  · exact h t cleanup hp

/-- The job is over now if it was before. -/
theorem Alike.lives (h : Alike job job') (ht : isTerminal job'.state = isTerminal job.state)
    (hs : isTerminal job.state = true → job'.state = job.state)
    (hc : Collected job' ↔ Collected job) : Lives a id job job' where
  deferred := h.deferred
  metadata := h.metadata
  absorbs := hs
  finalized := by rw [h.finalized, ends, ends, ht]
  promised := by rw [h.promised, ends, ends, ht]
  starts hd hd' _ := by rw [h.waits, hd] at hd'; cases hd'
  retries := .inl h.retriedAs
  keeps := hc.mpr
  collects hc' := .inl (hc.mp hc')

theorem collected_iff (ht : isTerminal job'.state = isTerminal job.state)
    (hp : job'.phase = job.phase) : Collected job' ↔ Collected job := by
  unfold Collected
  rw [ht, hp]

/-- The job is where it was. -/
theorem Alike.same (h : Alike job job') (hs : job'.state = job.state)
    (hp : job'.phase = job.phase) : Lives a id job job' :=
  h.lives (congrArg isTerminal hs) (fun _ => hs) (collected_iff (congrArg isTerminal hs) hp)

/-- The job is not over, before and after. -/
theorem Alike.live (h : Alike job job') (hl : isTerminal job.state = false)
    (hl' : isTerminal job'.state = false) (hp : Uncollected job) (hp' : Uncollected job') :
    Lives a id job job' :=
  h.lives (hl'.trans hl.symm) (fun ht => by rw [hl] at ht; cases ht)
    ⟨fun hc => absurd hc (hp'.not_collected hl'), fun hc => absurd hc (hp.not_collected hl)⟩

/-- What `transition` to a state that is not terminal makes of a job. -/
theorem Alike.moved (h : Alike job job') (next : JobState) : Alike job (job'.moved next) := by
  obtain ⟨c, adm, heq, -⟩ := job'.moved_eq next
  rw [heq]
  exact ⟨h.deferred, h.metadata, h.finalized, h.promised, h.waits, h.retriedAs⟩

theorem Uncollected.of_idle (h : job.phase = .idle) : Uncollected job := fun t cleanup hp => by
  rw [h] at hp
  cases hp

theorem Uncollected.of_claimed {claim : Claim} (h : job.phase = .claimed claim) : Uncollected job :=
  fun t cleanup hp => by
    rw [h] at hp
    cases hp

/-- What a step makes of a job before it is judged. -/
theorem Alike.advanced (journal : Bool) (job : Job) (claim : Claim) (input : State.StepInput) :
    Alike job (job.advanced journal claim input).1 ∧
      (job.advanced journal claim input).1.state = job.state := by
  obtain ⟨opened, result, heq, hsame, -⟩ := job.advanced_eq journal claim input
  rw [heq]
  exact ⟨⟨rfl, hsame .metadata, rfl, rfl, hsame .deferred, hsame .retriedAs⟩, hsame .state⟩

theorem Alike.judged {step : JobStep} {v v' : State.Verdict} (hj : Judged id step v v')
    (h : Alike job v.1) : Alike job v'.1 ∧ v'.1.state = v.1.state := by
  cases hj with
  | goes | asks =>
    exact ⟨⟨h.deferred, h.metadata, h.finalized, h.promised, h.waits, h.retriedAs⟩, rfl⟩

/-- The step of a job is over. -/
theorem Lives.settled (hsound : Sound job) {claim : Claim} (input : State.StepInput) (now : Nat)
    (hp : job.phase = .claimed claim) : Lives a id job (Job.resolved (Job.verdict id now
      (job.advanced journal claim input).1 (job.advanced journal claim input).2)) := by
  have hl : isTerminal job.state = false := hsound.live (by rw [hp]; exact nofun)
  obtain ⟨halike, hstate⟩ := Alike.advanced journal job claim input
  obtain ⟨step', attempt, from_, hj, -⟩ := Job.verdict_judged id now
    (job.advanced journal claim input).1 (job.advanced journal claim input).2
  have hv := @Alike.judged _ job _ _ _ hj
    ⟨halike.deferred, halike.metadata, halike.finalized, halike.promised, halike.waits,
      halike.retriedAs⟩
  obtain ⟨hv, hvs⟩ := hv
  replace hvs := hvs.trans hstate
  revert hv hvs
  generalize Job.verdict id now _ _ = v
  intro hv hvs
  by_cases ht : isTerminal v.2 = true
  · rw [Job.resolved, if_pos ht]
    refine Alike.live ⟨hv.deferred, hv.metadata, hv.finalized, hv.promised, hv.waits, hv.retriedAs⟩
      hl ((congrArg isTerminal hvs).trans hl) (.of_claimed hp) fun t cleanup h => by cases h
  · obtain ⟨state, resume, c, adm, heq, hs, -⟩ := Job.resolved_eq (v := v) (by simpa using ht)
    rw [heq]
    refine Alike.live ⟨hv.deferred, hv.metadata, hv.finalized, hv.promised, hv.waits, hv.retriedAs⟩
      hl ?_ (.of_claimed hp) (.of_idle rfl)
    show isTerminal state = false
    rcases hs with ⟨rfl, -⟩ | ⟨rfl, -⟩
    · simpa using ht
    · rfl

/-- The late effects are in the result. -/
theorem Lives.gathered (hsound : Sound job) {t : JobState} {effects : Option CompletedEffects}
    {fault : Nat → Option Error} (ha : a = .collect id effects fault) (hp : job.phase = .ended t) :
    Lives a id job (job.gathered t effects fault) := by
  have hl : isTerminal job.state = false := hsound.live (by rw [hp]; exact nofun)
  have hput : ∀ result cleanup, (∀ {α : Type} {g : JobSnapshot → α}, Unrecorded g →
      g result.snapshot = g job.result.snapshot) →
      Lives a id job { job with result, phase := .collected t cleanup } := by
    intro result cleanup hsame
    have hs : result.snapshot.state = job.state := hsame .state
    have hng : ¬ Collected job :=
      Uncollected.not_collected (fun t' cleanup h => by rw [hp] at h; cases h) hl
    exact {
      deferred := rfl
      metadata := hsame .metadata
      absorbs := fun ht => by rw [hl] at ht; cases ht
      finalized := by
        rw [ends_of_live hl, ends_of_live ((congrArg isTerminal hs).trans hl)]
      promised := by
        rw [ends_of_live hl, ends_of_live ((congrArg isTerminal hs).trans hl)]
      starts := fun hd hd' _ => by
        rw [hsame .deferred, hd] at hd'
        cases hd'
      retries := .inl (hsame .retriedAs)
      keeps := fun hc => absurd hc hng
      collects := fun _ => .inr ⟨effects, fault, ha⟩ }
  unfold Job.gathered
  split
  · exact hput job.result _ fun _ => rfl
  · exact hput _ _ fun hg => recordLate_snapshot hg _ _ _

/-- The end of a job. -/
theorem Lives.finished (hsound : Sound job) {t : JobState} {collected cleanup : List Error}
    (hp : job.phase = .collected t collected) : Lives a id job (job.finished t cleanup) := by
  have hl : isTerminal job.state = false := hsound.live (by rw [hp]; exact nofun)
  obtain ⟨c, adm, heq, -⟩ := Job.moved_eq { job.cleaned cleanup with lanesHeld := false }
    (if cleanup = [] then t else .failed)
  have ht : isTerminal (if cleanup = [] then t else .failed) = true := by
    split
    · exact hsound.collected t _ hp
    · rfl
  unfold Job.finished
  rw [heq]
  exact {
    deferred := rfl
    metadata := rfl
    absorbs := fun ht => by rw [hl] at ht; cases ht
    finalized := by rw [ends_of_live hl, ends_of_terminal ht]; rfl
    promised := by rw [ends_of_live hl, ends_of_terminal ht]; rfl
    starts := fun _ _ hl' => absurd (ht.symm.trans hl') (by decide)
    retries := .inl rfl
    keeps := fun _ => .inl ht
    collects := fun _ => .inl (.inr ⟨t, collected, hp⟩) }

/-- A job is steered by `Control`. -/
theorem Lives.steered (hsound : Sound job) {control : JobControl}
    (ha : (∃ ids, a = .control ids control ∧ id ∈ ids) ∨ a = .cancelReply id ∧ control = .cancel)
    (hl : isTerminal job.state = false) : Lives a id job (job.steered control).notify := by
  obtain ⟨state, pause, cancel, deferred, adm, heq, hs, -, hd⟩ := job.steered_eq control
  have hl' : isTerminal state = false := by
    rcases hs with rfl | ⟨-, rfl⟩
    · exact hl
    · exact hsound.resume
  rw [heq]
  have hc := @collected_iff job ({ job.withSnapshot fun p => { p with
    state, pauseRequested := pause, cancelRequested := cancel, deferred } with
    admitted := adm } : Job).notify (hl'.trans hl.symm) rfl
  exact {
    deferred := rfl
    metadata := rfl
    absorbs := fun ht => absurd (ht.symm.trans hl) (by decide)
    finalized := by rw [ends_of_live hl, ends_of_live hl']; rfl
    promised := by rw [ends_of_live hl, ends_of_live hl']; rfl
    starts := fun hdef hdef' _ => by
      by_cases hstart : control = .start
      · subst hstart
        rcases ha with ha | ⟨-, h⟩
        · exact ha
        · cases h
      · have hdef' : deferred = false := hdef'
        rw [hd hstart, hdef] at hdef'
        cases hdef'
    retries := .inl rfl
    keeps := hc.mpr
    collects := fun h => .inl (hc.mp h) }

/-- What every turn makes of the life of a job. -/
theorem Turn.lives (hsound : Sound job) (ht : Turn journal a id (some job) (some job')) :
    Lives a id job job' := by
  cases ht with
  | @linked _ child hasTask stopped request ha hof hok =>
    exact {
      deferred := rfl
      metadata := rfl
      absorbs := fun _ => rfl
      finalized := rfl
      promised := rfl
      starts := fun hd hd' _ => absurd (hd.symm.trans hd') (by decide)
      retries := .inr ⟨hok, child, hasTask, stopped, request, ha, hof, rfl⟩
      keeps := fun h => h
      collects := .inl }
  | @steered _ control ha hl hc hd => exact .steered hsound ha hl
  | @replied _ answer now prompt ha hi hs hid hx =>
    have hl : isTerminal job.state = false := by rw [hs]; rfl
    have hans : Alike job (job.answered answer) := ⟨rfl, rfl, rfl, rfl, rfl, rfl⟩
    have hidle := hsound.idle hx
    obtain ⟨c, adm, heq, -⟩ := (job.answered answer).moved_eq job.resume
    refine (hans.moved job.resume).live hl ?_ (.of_idle hidle) (.of_idle ?_)
    · rw [heq]
      exact hsound.resume
    · rw [heq]
      exact hidle
  | foregrounded | reordered | shutDown | stopped =>
    exact Alike.same ⟨rfl, rfl, rfl, rfl, rfl, rfl⟩ rfl rfl
  | @paused _ now ha hl hx =>
    have hidle := hsound.idle hx
    have hres : Alike job { job with resume := job.state } := ⟨rfl, rfl, rfl, rfl, rfl, rfl⟩
    obtain ⟨c, adm, heq, -⟩ := Job.moved_eq { job with resume := job.state } .paused
    refine (hres.moved .paused).live hl ?_ (.of_idle hidle) (.of_idle ?_)
    · rw [heq]
      rfl
    · rw [heq]
      exact hidle
  | @taken _ now ha hl hx =>
    obtain ⟨lanes, adm, heq, -⟩ := job.readied_eq (job.abortAt now)
    obtain ⟨state, c, heq', hs, -⟩ := (job.readied (job.abortAt now)).prepared_eq
    have hstate : isTerminal state = false := by
      rw [heq] at hs
      rcases hs with hs | ⟨-, -, hs⟩
      · rw [hs]; exact hl
      · rw [hs]; rfl
    rw [heq', heq]
    exact Alike.live ⟨rfl, rfl, rfl, rfl, rfl, rfl⟩ hl hstate (.of_idle (hsound.idle hx))
      (.of_claimed rfl)
  | @receiptTaken _ claim ha hp =>
    have hl : isTerminal job.state = false := hsound.live (by rw [hp]; exact nofun)
    exact Alike.live ⟨rfl, rfl, rfl, rfl, rfl, rfl⟩ hl hl (.of_claimed hp) (.of_claimed rfl)
  | @receiptFailed _ claim e ha hp =>
    have hl : isTerminal job.state = false := hsound.live (by rw [hp]; exact nofun)
    exact Alike.live ⟨rfl, rfl, rfl, rfl, rfl, rfl⟩ hl hl (.of_claimed hp) (.of_claimed rfl)
  | @receiptSaved _ claim order ha hp =>
    have hl : isTerminal job.state = false := hsound.live (by rw [hp]; exact nofun)
    exact Alike.live ⟨rfl, rfl, rfl, rfl, rfl, rfl⟩ hl hl (.of_claimed hp) (.of_idle rfl)
  | @again _ claim input now ha hp =>
    have hl : isTerminal job.state = false := hsound.live (by rw [hp]; exact nofun)
    obtain ⟨h, hs⟩ := Alike.advanced journal job claim input
    exact Alike.live ⟨h.deferred, h.metadata, h.finalized, h.promised, h.waits, h.retriedAs⟩ hl
      ((congrArg isTerminal hs).trans hl) (.of_claimed hp) (.of_idle rfl)
  | settled ha hp => exact .settled hsound _ _ hp
  | collected ha hp => exact .gathered hsound ha hp
  | finished ha hp => exact .finished hsound hp

end

/-! ## Actions of a run -/

namespace State

/-- The late effects of the job are collected. -/
def Collects (s : State) (id : JobId) (a : Action) : Prop :=
  ∃ effects fault job t, a = .collect id effects fault ∧ s.jobs.find id = some job ∧
    job.phase = .ended t

/-- `Control` starts the job. -/
def Starts (s : State) (id : JobId) (a : Action) : Prop :=
  ∃ ids s', a = .control ids .start ∧ id ∈ ids ∧ s.control ids .start = .ok s'

/-- `Submit` takes `child` as the retry of `parent`. -/
def Retries (fold : Str → Option Str) (s : State) (parent child : JobId) (a : Action) : Prop :=
  ∃ hasTask stopped request s', a = .submit child hasTask stopped request ∧
    request.metadata.retryOf = parent ∧ child ∉ s.issued ∧
    s.submit fold child hasTask stopped request = .ok s'

/-- The task of the job is advanced. -/
def Steps (s : State) (id : JobId) (a : Action) : Prop :=
  ∃ job claim input now, a = .advance id input now ∧ s.jobs.find id = some job ∧
    job.phase = .claimed claim ∧ claim.receiptOnly = false ∧
    (job.opened s.journal claim input).2 = none

theorem act_submit {fold : Str → Option Str} {s s' : State} {id : JobId} {hasTask stopped : Bool}
    {request : JobRequest} (hnew : id ∉ s.issued)
    (h : s.submit fold id hasTask stopped request = .ok s') :
    s.act fold (.submit id hasTask stopped request) = s' := by
  rw [act, if_neg hnew, h]
  rfl

/-- What a retry leaves behind, in the parent and in the child. -/
theorem submit_ok {fold : Str → Option Str} {s s' : State} {id : JobId} {hasTask stopped : Bool}
    {request : JobRequest} (hs : s.Known) (hnew : id ∉ s.issued)
    (h : s.submit fold id hasTask stopped request = .ok s') (hof : request.metadata.retryOf ≠ []) :
    (∃ parent, s.jobs.find request.metadata.retryOf = some parent ∧ retryable parent = true) ∧
      (∃ parent, s'.jobs.find request.metadata.retryOf = some parent ∧
        parent.result.snapshot.retriedAs = id) ∧
      ∃ child, s'.jobs.find id = some child ∧
        child.result.snapshot.metadata = request.metadata := by
  simp only [submit, bind_eq_ok, failIf_eq_ok, pure_eq_ok] at h
  obtain ⟨-, -, -, -, lanes, -, -, -, -, -, s₁, hlink, rfl⟩ := h
  unfold linkRetry at hlink
  rw [if_neg hof] at hlink
  split at hlink
  · cases hlink
  rename_i parent hfind
  simp only [bind_eq_ok, failIf_eq_ok, pure_eq_ok] at hlink
  obtain ⟨-, hok, rfl⟩ := hlink
  have hne : request.metadata.retryOf ≠ id := fun heq => by
    rw [heq] at hfind
    exact hnew (hs id parent hfind)
  refine ⟨⟨parent, hfind, by simpa using hok⟩,
    ⟨(parent.withSnapshot fun p => { p with retriedAs := id }).notify, ?_, rfl⟩, _,
      OrdMap.find_set_self, rfl⟩
  rw [put, OrdMap.find_set_of_ne hne]
  exact OrdMap.find_set_self

end State

/-! ## Runs -/

section Runs

variable {fold : Str → Option Str} {workers retained : Nat} {journal : Bool}
  {actions : Nat → Action} {id : JobId}

variable {n m k i j : Nat} {old : Job} {child parent : JobId}

theorem sound_at {job : Job}
    (h : (stateAt fold workers retained journal actions n).jobs.find id = some job) : Sound job :=
  (kept_at h).1

theorem known_at (n : Nat) : (stateAt fold workers retained journal actions n).Known :=
  State.run_known (State.known_new workers retained journal) n

/-- What the life of a job keeps holds of it in the rest of the run. -/
theorem lived_on {I : Job → Prop}
    (hI : ∀ {a : Action} {job job' : Job}, Sound job → Lives a id job job' → I job → I job')
    (hmn : m ≤ n) {job : Job}
    (hold : (stateAt fold workers retained journal actions m).jobs.find id = some old) (h : I old)
    (hfind : (stateAt fold workers retained journal actions n).jobs.find id = some job) :
    I job := by
  have hkeep : ∀ k, m ≤ k → k < n → ∀ {journal : Bool} {job job' : Job},
      Turn journal (actions k) id (some job) (some job') → (Sound job ∧ I job) →
        Sound job' ∧ I job' := by
    rintro k - - journal job job' ht ⟨hsound, hi⟩
    refine ⟨?_, hI hsound (ht.lives hsound) hi⟩
    exact .turn (Q := fun _ => True) trivial ht (fun _ h => by cases h; exact hsound) job' rfl
  exact (State.run_keeps (State.known_new workers retained journal) hmn hkeep hold
    ⟨sound_at hold, h⟩ job hfind).2

/-- What a job has after a section it had before, or the section gave it. -/
theorem lived_section {P : Job → Prop} {a : Action} {o o' : Option Job} {R : Prop}
    (hnew : ∀ hasTask stopped request lanes order, a = .submit id hasTask stopped request →
      P (Job.submitted stopped { request with resourceLanes := lanes } order) → R)
    (hstep : ∀ job job', Sound job → Lives a id job job' → P job' → P job ∨ R)
    (h : ReflTransGen (Turn journal a id) o o') (hsound : ∀ job, o = some job → Sound job)
    {job : Job} (heq : o' = some job) (hp : P job) : (∃ old, o = some old ∧ P old) ∨ R := by
  induction h generalizing job with
  | refl => exact .inl ⟨job, heq, hp⟩
  | @tail mid o' hrun ht ih =>
    subst heq
    cases mid with
    | none =>
      cases ht with
      | @submitted hasTask stopped request lanes order ha =>
        exact .inr (hnew hasTask stopped request lanes order ha hp)
    | some old =>
      have hold := Sound.turn.turns (Q := fun _ => True) trivial hrun hsound old rfl
      rcases hstep old job hold (ht.lives hold) hp with hpold | hr
      · exact ih rfl hpold
      · exact .inr hr

/-- What a job has at some moment of a run was given to it before, by an action that changed it. -/
theorem lived_since {P : Job → Prop} {Q : Action → Prop} {R : Nat → Prop}
    (hnew : ∀ n hasTask stopped request lanes order,
      actions n = .submit id hasTask stopped request →
      P (Job.submitted stopped { request with resourceLanes := lanes } order) → Q (actions n))
    (hstep : ∀ n job job', Sound job → Lives (actions n) id job job' → P job' →
      P job ∨ Q (actions n))
    (hact : ∀ n, Q (actions n) → stateAt fold workers retained journal actions (n + 1) =
      stateAt fold workers retained journal actions n ∨ R n) {job : Job}
    (hfind : (stateAt fold workers retained journal actions k).jobs.find id = some job)
    (hp : P job) : ∃ j < k, R j := by
  refine State.run_since (P := P) (R := R) (fun n job' hjob hp' => ?_) hfind hp
  rcases lived_section (hnew n) (hstep n) (turns_at fold workers retained journal actions n id)
      (fun _ h => sound_at h) hjob hp' with
    hold | hq
  · exact .inl hold
  · rcases hact n hq with hsame | hr
    · exact .inl ⟨job', by rw [← hjob]; exact congrArg (fun s => s.jobs.find id) hsame.symm, hp'⟩
    · exact .inr hr

/-- Whether a job is over is all that its worker counted. -/
theorem counted_at {job : Job}
    (h : (stateAt fold workers retained journal actions n).jobs.find id = some job) :
    job.finalized = ends job ∧ job.promised = ends job := by
  have hkeep : TurnKeeps (fun _ => True) fun _ job =>
      Sound job ∧ job.finalized = ends job ∧ job.promised = ends job := by
    intro journal a id o o' hq ht ho job heq
    refine ⟨Sound.turn (Q := fun _ => True) hq ht (fun old hold => (ho old hold).1) job heq, ?_⟩
    subst heq
    cases o with
    | none => cases ht with | submitted => exact ⟨rfl, rfl⟩
    | some old =>
      obtain ⟨hsound, hf, hp⟩ := ho old rfl
      have hlives := ht.lives hsound
      have h1 := hlives.finalized
      have h2 := hlives.promised
      omega
  exact (Reaches.forall_job hkeep
    (State.run_reaches workers retained journal (fun _ => trivial) n) id job h).2

/-- A job that is over stays as it ended. -/
theorem terminal_on (hmn : m ≤ n) {job : Job}
    (hold : (stateAt fold workers retained journal actions m).jobs.find id = some old)
    (ht : isTerminal old.state = true)
    (hfind : (stateAt fold workers retained journal actions n).jobs.find id = some job) :
    job.state = old.state := by
  refine lived_on (I := fun job => job.state = old.state) (fun {a job job'} _ hl hi => ?_) hmn hold
    rfl hfind
  rw [hl.absorbs (by rw [hi]; exact ht), hi]

/-- A job leaves the scheduler by `Forget`, when it is over. -/
theorem gone_by (hmn : m ≤ n)
    (hold : (stateAt fold workers retained journal actions m).jobs.find id = some old)
    (hfind : (stateAt fold workers retained journal actions n).jobs.find id = none) :
    ∃ k, m ≤ k ∧ k < n ∧ actions k = .forget id ∧ ∃ last,
      (stateAt fold workers retained journal actions k).jobs.find id = some last ∧
        isTerminal last.state = true := by
  induction n, hmn using Nat.le_induction with
  | base =>
    rw [hold] at hfind
    cases hfind
  | succ n hmn ih =>
    cases hn : (stateAt fold workers retained journal actions n).jobs.find id with
    | none =>
      obtain ⟨k, hk, hkn, h⟩ := ih hn
      exact ⟨k, hk, Nat.lt_succ_of_lt hkn, h⟩
    | some last =>
      have hturns := turns_at fold workers retained journal actions n id
      rw [hn, hfind] at hturns
      have ha : actions n = .forget id := by
        rcases ReflTransGen.cases_tail hturns with h | ⟨mid, -, ht⟩
        · cases h
        · cases ht with
          | forgotten ha => exact ha
      refine ⟨n, hmn, Nat.lt_succ_self n, ha, last, hn, ?_⟩
      have hnext : stateAt fold workers retained journal actions (n + 1) =
          (stateAt fold workers retained journal actions n).orSame
            ((stateAt fold workers retained journal actions n).forget id) := by
        rw [stateAt, State.run, ha]
        rfl
      by_contra hlive
      rw [hnext, State.forget, hn] at hfind
      dsimp only at hfind
      rw [failIf, if_pos (.inl hlive)] at hfind
      rw [show State.orSame _ _ = stateAt fold workers retained journal actions n from rfl, hn]
        at hfind
      cases hfind

/-- The effects of a job that is past their collection were collected. -/
theorem collected_since {job : Job}
    (hfind : (stateAt fold workers retained journal actions k).jobs.find id = some job)
    (hc : Collected job) : ∃ j < k,
      (stateAt fold workers retained journal actions j).Collects id (actions j) := by
  refine lived_since (P := Collected) (Q := fun a => ∃ effects fault, a = .collect id effects fault)
    (R := fun n => (stateAt fold workers retained journal actions n).Collects id (actions n))
    (fun n hasTask stopped request lanes order _ h => ?_)
    (fun n job job' _ hl h => hl.collects h) (fun n hq => ?_) hfind hc
  · rcases h with h | ⟨t, cleanup, h⟩ <;> cases h
  · obtain ⟨effects, fault, ha⟩ := hq
    have hnext : stateAt fold workers retained journal actions (n + 1) =
        (stateAt fold workers retained journal actions n).collect id effects fault := by
      rw [stateAt, State.run, ha]
      rfl
    rw [hnext]
    unfold State.collect
    split
    · exact .inl rfl
    rename_i job hjob
    split
    · rename_i t hp
      exact .inr ⟨effects, fault, job, t, ha, hjob, hp⟩
    · exact .inl rfl

/-- Effects are collected before they are. -/
theorem State.Collects.before
    (h : (stateAt fold workers retained journal actions n).Collects id (actions n))
    (hm : m ≤ n) {job : Job}
    (hfind : (stateAt fold workers retained journal actions m).jobs.find id = some job) :
    ¬ Collected job := by
  obtain ⟨effects, fault, last, t, ha, hlast, hp⟩ := h
  intro hc
  have hsound := sound_at hlast
  refine @Uncollected.not_collected last (fun t' cleanup h => by rw [hp] at h; cases h)
    (hsound.live (by rw [hp]; exact nofun)) ?_
  exact lived_on (I := Collected) (fun _ hl => hl.keeps) hm hfind hc hlast

/-- Effects are collected once they are. -/
theorem State.Collects.after
    (h : (stateAt fold workers retained journal actions n).Collects id (actions n)) :
    ∃ job, (stateAt fold workers retained journal actions (n + 1)).jobs.find id = some job ∧
      Collected job := by
  obtain ⟨effects, fault, job, t, ha, hfind, hp⟩ := h
  have hnext : stateAt fold workers retained journal actions (n + 1) =
      (stateAt fold workers retained journal actions n).collect id effects fault := by
    rw [stateAt, State.run, ha]
    rfl
  rw [hnext, State.collect, hfind]
  dsimp only
  rw [hp]
  dsimp only
  split
  · exact ⟨_, OrdMap.find_set_self, .inr ⟨_, _, rfl⟩⟩
  · exact ⟨_, OrdMap.find_set_self, .inr ⟨_, _, rfl⟩⟩

theorem collects_once
    (hi : (stateAt fold workers retained journal actions i).Collects id (actions i))
    (hj : (stateAt fold workers retained journal actions j).Collects id (actions j)) : i = j := by
  have hlt : ∀ {i j : Nat},
      (stateAt fold workers retained journal actions i).Collects id (actions i) →
      (stateAt fold workers retained journal actions j).Collects id (actions j) → ¬ i < j := by
    intro i j hi hj h
    obtain ⟨job, hfind, hc⟩ := hi.after
    exact hj.before h hfind hc
  have h1 := hlt hi hj
  have h2 := hlt hj hi
  omega

/-- A deferred job that is to be advanced was started. -/
theorem started_since {job : Job}
    (hfind : (stateAt fold workers retained journal actions k).jobs.find id = some job)
    (hr : job.request.deferred = true) (hd : job.result.snapshot.deferred = false)
    (hl : isTerminal job.state = false) : ∃ j < k,
      (stateAt fold workers retained journal actions j).Starts id (actions j) := by
  refine lived_since (P := fun job => job.request.deferred = true ∧
      job.result.snapshot.deferred = false ∧ isTerminal job.state = false)
    (Q := fun a => ∃ ids, a = .control ids .start ∧ id ∈ ids)
    (R := fun n => (stateAt fold workers retained journal actions n).Starts id (actions n))
    (fun n hasTask stopped request lanes order _ h => ?_)
    (fun n job job' _ hlives h => ?_) (fun n hq => ?_) hfind ⟨hr, hd, hl⟩
  · exact absurd (h.1.symm.trans h.2.1) (by decide)
  · obtain ⟨h1, h2, h3⟩ := h
    by_cases hdef : job.result.snapshot.deferred = true
    · exact .inr (hlives.starts hdef h2 h3)
    · refine .inl ⟨hlives.deferred.symm.trans h1, by simpa using hdef, ?_⟩
      by_contra hterm
      rw [hlives.absorbs (by simpa using hterm)] at h3
      exact hterm h3
  · obtain ⟨ids, ha, hmem⟩ := hq
    cases hok : (stateAt fold workers retained journal actions n).control ids .start with
    | error e =>
      refine .inl ?_
      rw [stateAt, State.run, ha, State.act, hok]
      rfl
    | ok s' => exact .inr ⟨ids, s', ha, hmem, hok⟩

/-- A submission that matters was accepted. -/
theorem submit_act {hasTask stopped : Bool} {request : JobRequest}
    (ha : actions n = .submit child hasTask stopped request) :
    stateAt fold workers retained journal actions (n + 1) =
      stateAt fold workers retained journal actions n ∨
    (stateAt fold workers retained journal actions n).Retries fold request.metadata.retryOf child
      (actions n) := by
  rw [stateAt, State.run, ha, State.act]
  split
  · exact .inl rfl
  rename_i hnew
  cases hok : (stateAt fold workers retained journal actions n).submit fold child hasTask stopped
      request with
  | error e => exact .inl rfl
  | ok s' => exact .inr ⟨hasTask, stopped, request, s', rfl, rfl, hnew, hok⟩

/-- A job that is linked to its retry was retried so. -/
theorem retried_since {job : Job}
    (hfind : (stateAt fold workers retained journal actions k).jobs.find id = some job)
    (hr : job.result.snapshot.retriedAs = child) (hne : child ≠ []) : ∃ j < k,
      (stateAt fold workers retained journal actions j).Retries fold id child (actions j) := by
  refine lived_since (P := fun job => job.result.snapshot.retriedAs = child)
    (Q := fun a => ∃ hasTask stopped request, a = .submit child hasTask stopped request ∧
      request.metadata.retryOf = id)
    (R := fun n => (stateAt fold workers retained journal actions n).Retries fold id
      child (actions n))
    (fun n hasTask stopped request lanes order _ h => absurd h.symm hne)
    (fun n job job' _ hlives h => ?_) (fun n hq => ?_) hfind hr
  · rcases hlives.retries with hsame | ⟨-, c, hasTask, stopped, request, ha, hof, hc⟩
    · exact .inl (hsame.symm.trans h)
    · obtain rfl : c = child := hc.symm.trans h
      exact .inr ⟨hasTask, stopped, request, ha, hof⟩
  · obtain ⟨hasTask, stopped, request, ha, rfl⟩ := hq
    exact submit_act ha

/-- A job that is a retry was submitted as one. -/
theorem retry_since {job : Job}
    (hfind : (stateAt fold workers retained journal actions k).jobs.find id = some job) :
    ∃ j < k, (stateAt fold workers retained journal actions j).Retries fold
      job.result.snapshot.metadata.retryOf id (actions j) := by
  let parent := job.result.snapshot.metadata.retryOf
  refine lived_since (P := fun job => job.result.snapshot.metadata.retryOf = parent)
    (Q := fun a => ∃ hasTask stopped request, a = .submit id hasTask stopped request ∧
      request.metadata.retryOf = parent)
    (R := fun n => (stateAt fold workers retained journal actions n).Retries fold parent id
      (actions n))
    (fun n hasTask stopped request lanes order ha h => ⟨hasTask, stopped, request, ha, h⟩)
    (fun n job job' _ hlives h => .inl ?_) (fun n hq => ?_) hfind rfl
  · rw [← hlives.metadata]
    exact h
  · obtain ⟨hasTask, stopped, request, ha, hof⟩ := hq
    rw [← hof]
    exact submit_act ha

/-- What a retry leaves behind, in the rest of the run. -/
theorem State.Retries.after (hp : parent ≠ []) (hc : child ≠ [])
    (h : (stateAt fold workers retained journal actions n).Retries fold parent child (actions n)) :
    (∃ job, (stateAt fold workers retained journal actions n).jobs.find parent = some job ∧
      retryable job = true) ∧
    ∀ m, n < m → ∀ job,
      ((stateAt fold workers retained journal actions m).jobs.find parent = some job →
        job.result.snapshot.retriedAs = child) ∧
      ((stateAt fold workers retained journal actions m).jobs.find child = some job →
        job.result.snapshot.metadata.retryOf = parent) := by
  obtain ⟨hasTask, stopped, request, s', ha, rfl, hnew, hok⟩ := h
  obtain ⟨hbefore, ⟨old, hold, hr⟩, kid, hkid, hm⟩ := submit_ok (known_at n) hnew hok hp
  have hnext : stateAt fold workers retained journal actions (n + 1) = s' := by
    rw [stateAt, State.run, ha]
    exact act_submit hnew hok
  rw [← hnext] at hold hkid
  refine ⟨hbefore, fun m hnm job => ⟨fun hfind => ?_, fun hfind => ?_⟩⟩
  · refine lived_on (I := fun job => job.result.snapshot.retriedAs = child)
      (fun {a job job'} _ hlives hi => ?_) hnm hold hr hfind
    rcases hlives.retries with hsame | ⟨hretry, -⟩
    · exact hsame.trans hi
    · simp [retryable, hi, hc] at hretry
  · refine lived_on
      (I := fun job => job.result.snapshot.metadata.retryOf = request.metadata.retryOf)
      (fun {a job job'} _ hlives hi => ?_) hnm hkid (by rw [hm]) hfind
    rw [hlives.metadata]
    exact hi

/-- A job is retried at most once. -/
theorem retries_once {child' : JobId} (hp : parent ≠ []) (hc : child ≠ []) (hc' : child' ≠ [])
    (hi : (stateAt fold workers retained journal actions i).Retries fold parent child (actions i))
    (hj : (stateAt fold workers retained journal actions j).Retries fold parent child'
      (actions j)) :
    i = j := by
  have hlt : ∀ {i j : Nat} {child child' : JobId}, child ≠ [] → child' ≠ [] →
      (stateAt fold workers retained journal actions i).Retries fold parent child (actions i) →
      (stateAt fold workers retained journal actions j).Retries fold parent child' (actions j) →
      ¬ i < j := by
    intro i j child child' hc hc' hi hj h
    obtain ⟨⟨job, hfind, hretry⟩, -⟩ := hj.after hp hc'
    have hr := ((hi.after hp hc).2 j h job).1 hfind
    simp [State.retryable, hr, hc] at hretry
  have h1 := hlt hc hc' hi hj
  have h2 := hlt hc' hc hj hi
  omega

/-- In every run: a job that is over stays as it ended. `Finalize` was called and the promise kept
once if the job is over, else never; its late effects were collected before, and are collected at
most once. A job is gone only after it was over. The task of a deferred job is advanced only after
`Control` started it. A job is retried at most once; a job that names its retry was retried by the
job of that name, which names it in turn. -/
theorem job_lifecycle (fold : Str → Option Str) (workers retained : Nat) (journal : Bool)
    (actions : Nat → Action)
    (hdrawn : ∀ n id hasTask stopped request,
      actions n = .submit id hasTask stopped request → id ≠ []) (id : JobId) :
    (∀ m n old job, m ≤ n →
      (stateAt fold workers retained journal actions m).jobs.find id = some old →
      isTerminal old.state = true →
      (stateAt fold workers retained journal actions n).jobs.find id = some job →
        job.state = old.state) ∧
    (∀ n job, (stateAt fold workers retained journal actions n).jobs.find id = some job →
      job.finalized = ends job ∧ job.promised = ends job ∧
      (isTerminal job.state = true → ∃ j < n,
        (stateAt fold workers retained journal actions j).Collects id (actions j))) ∧
    (∀ i j, (stateAt fold workers retained journal actions i).Collects id (actions i) →
      (stateAt fold workers retained journal actions j).Collects id (actions j) → i = j) ∧
    (∀ m n old, m ≤ n →
      (stateAt fold workers retained journal actions m).jobs.find id = some old →
      (stateAt fold workers retained journal actions n).jobs.find id = none →
        ∃ k, m ≤ k ∧ k < n ∧ actions k = .forget id ∧ ∃ last,
          (stateAt fold workers retained journal actions k).jobs.find id = some last ∧
            isTerminal last.state = true) ∧
    (∀ n job, (stateAt fold workers retained journal actions n).Steps id (actions n) →
      (stateAt fold workers retained journal actions n).jobs.find id = some job →
      job.request.deferred = true → ∃ j < n,
        (stateAt fold workers retained journal actions j).Starts id (actions j)) ∧
    (id ≠ [] →
      (∀ i j child child',
        (stateAt fold workers retained journal actions i).Retries fold id child (actions i) →
        (stateAt fold workers retained journal actions j).Retries fold id child' (actions j) →
          i = j) ∧
      ∀ n job, (stateAt fold workers retained journal actions n).jobs.find id = some job →
        (∀ child, job.result.snapshot.retriedAs = child → child ≠ [] → ∃ j < n,
          (stateAt fold workers retained journal actions j).Retries fold id child (actions j) ∧
          ∀ kid, (stateAt fold workers retained journal actions n).jobs.find child = some kid →
            kid.result.snapshot.metadata.retryOf = id) ∧
        ∀ parent, job.result.snapshot.metadata.retryOf = parent → parent ≠ [] → ∃ j < n,
          (stateAt fold workers retained journal actions j).Retries fold parent id (actions j) ∧
          ∀ old, (stateAt fold workers retained journal actions n).jobs.find parent = some old →
            old.result.snapshot.retriedAs = id) := by
  have hchild : ∀ {j : Nat} {parent child : JobId},
      (stateAt fold workers retained journal actions j).Retries fold parent child (actions j) →
        child ≠ [] := by
    rintro j parent child ⟨hasTask, stopped, request, s', ha, -⟩
    exact hdrawn j child hasTask stopped request ha
  refine ⟨fun m n old job hmn hold ht hfind => terminal_on hmn hold ht hfind, ?_,
    fun i j => collects_once, fun m n old hmn => gone_by hmn, ?_, fun hid => ⟨?_, ?_⟩⟩
  · intro n job hfind
    obtain ⟨hf, hp⟩ := counted_at hfind
    exact ⟨hf, hp, fun ht => collected_since hfind (.inl ht)⟩
  · rintro n job ⟨job', claim, input, now, ha, hfind', hp, hreceipt, hopen⟩ hfind hr
    obtain rfl : job' = job := Option.some.inj (hfind'.symm.trans hfind)
    have hkept := kept_at hfind
    have habort : claim.abort = none := by
      unfold Job.opened at hopen
      split at hopen
      · rename_i h
        exact h.1
      · exact hopen
    exact started_since hfind hr (hkept.2.claimed claim hp habort hreceipt)
      (hkept.1.live (by rw [hp]; exact nofun))
  · intro i j child child' hi hj
    exact retries_once hid (hchild hi) (hchild hj) hi hj
  · intro n job hfind
    refine ⟨fun child hr hne => ?_, fun parent hm hne => ?_⟩
    · obtain ⟨j, hj, hretry⟩ := retried_since hfind hr hne
      exact ⟨j, hj, hretry, fun kid hkid => ((hretry.after hid hne).2 n hj kid).2 hkid⟩
    · obtain ⟨j, hj, hretry⟩ := retry_since hfind
      rw [hm] at hretry
      exact ⟨j, hj, hretry, fun old hold => ((hretry.after hne (hchild hretry)).2 n hj old).1 hold⟩

/-- A deferred job that is started, fails and is retried. -/
def retriedJob (n : Nat) : Action :=
  [.submit [1] true false { deferred := true }, .control [[1]] .start, .pick 0,
    .advance [1] { advance := some (.failed missing) } 0, .collect [1] (some {}) fun _ => none,
    .finish [1] {}, .submit [2] true false { metadata := { retryOf := [1] } }].getD n .shutdown

/-- Its effects were collected, and the job that retries it was submitted once. -/
theorem job_lifecycle_retried :
    (∃ j < 7, (stateAt some 1 16 false retriedJob j).Collects [1] (retriedJob j)) ∧
      ∃ j < 7, (stateAt some 1 16 false retriedJob j).Retries some [1] [2] (retriedJob j) := by
  have hdrawn : ∀ n id hasTask stopped request,
      retriedJob n = .submit id hasTask stopped request → id ≠ [] := by
    intro n id hasTask stopped request h
    rcases n with _ | _ | _ | _ | _ | _ | _ | n
    all_goals cases h
    · exact List.cons_ne_nil _ _
    · exact List.cons_ne_nil _ _
  have hjob : ((stateAt some 1 16 false retriedJob 7).jobs.find [1]).map
      (fun job => (isTerminal job.state, job.result.snapshot.retriedAs)) =
      some (true, [2]) := by decide +kernel
  obtain ⟨job, hfind, hjob⟩ := Option.map_eq_some_iff.mp hjob
  simp only [Prod.mk.injEq] at hjob
  obtain ⟨-, hone, -, -, -, hretry⟩ := job_lifecycle some 1 16 false retriedJob hdrawn [1]
  obtain ⟨j, hj, hlink, -⟩ := ((hretry (List.cons_ne_nil _ _)).2 7 job hfind).1 [2] hjob.2
    (List.cons_ne_nil _ _)
  exact ⟨(hone 7 job hfind).2.2 hjob.1, j, hj, hlink⟩

end Runs

end Hc.Operations
