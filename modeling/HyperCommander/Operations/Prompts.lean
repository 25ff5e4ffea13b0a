import HyperCommander.Operations.Worker

/-!
# Prompts and their answers

* `PromptOk`: the outstanding prompt of a job is the last one it put, and an answer on its way to
  the task is to that prompt.
* `PromptOk.turn`: every turn keeps this.
* `prompt_protocol`: replies are accepted for the outstanding prompt only, once, and reach the task
  before it puts another prompt.
-/

namespace Hc.Operations

open List Storage Outcome Relation

/-! ## Identifiers of prompts -/

/-- The number that is written in decimal. -/
def readDecimal (s : Str) : Nat := s.foldl (fun n b => 10 * n + (b.toNat - 48)) 0

theorem readDecimal_toString (n : Nat) : readDecimal (toString_ n) = n := by
  have hdigit : ∀ d < 10, d.digitChar.toNat.toUInt8.toNat - 48 = d := by decide
  induction n using Nat.strongRecOn with
  | ind n ih =>
    unfold readDecimal toString_ at *
    rw [Nat.toDigits_eq_if (by omega)]
    split
    · rename_i h
      show 10 * 0 + (n.digitChar.toNat.toUInt8.toNat - 48) = n
      rw [hdigit n h]
      omega
    · rename_i h
      rw [map_append, foldl_append, ih (n / 10) (by omega)]
      simp only [map_cons, map_nil, foldl_cons, foldl_nil,
        hdigit (n % 10) (Nat.mod_lt n (by omega))]
      omega

theorem toString_injective : Function.Injective toString_ :=
  Function.LeftInverse.injective readDecimal_toString

/-- The identifier of the prompt number `n` of a job. -/
def promptOf (id : JobId) (n : Nat) : Str := id ++ [colon] ++ toString_ n

theorem promptOf_injective (id : JobId) : Function.Injective (promptOf id) := fun _ _ h =>
  toString_injective (append_cancel_left h)

/-! ## The prompt of a job -/

/-- What holds between a job's prompt and the answer on its way to the task. -/
structure PromptOk (id : JobId) (job : Job) : Prop where
  prompt : ∀ p, job.result.snapshot.interaction = some p →
    p.id = promptOf id job.interactionSequence
  waits : job.result.snapshot.interaction ≠ none → job.state = .waitingForUser
  answer : ∀ a, job.answer = some a → a.requestId = promptOf id job.interactionSequence ∧
    job.result.snapshot.interaction = none
  busy : job.phase ≠ .idle → job.answer = none
  claim : ∀ claim a, job.phase = .claimed claim → claim.answer = some a →
    a.requestId = promptOf id job.interactionSequence ∧ job.result.snapshot.interaction = none
  running : ∀ claim, job.phase = .claimed claim → claim.abort = none →
    job.result.snapshot.interaction = none

section

variable {id : JobId} {job job' : Job}

/-- A job that differs in nothing that this is about. -/
theorem PromptOk.of_eq (h : PromptOk id job)
    (h1 : job'.result.snapshot.interaction = job.result.snapshot.interaction)
    (h2 : job'.interactionSequence = job.interactionSequence) (h3 : job'.state = job.state)
    (h4 : job'.answer = job.answer) (h5 : job'.phase = job.phase) : PromptOk id job' where
  prompt := by rw [h1, h2]; exact h.prompt
  waits := by rw [h1, h3]; exact h.waits
  answer := by rw [h1, h2, h4]; exact h.answer
  busy := by rw [h4, h5]; exact h.busy
  claim := by rw [h1, h2, h5]; exact h.claim
  running := by rw [h1, h5]; exact h.running

/-- A job that no worker has, with a prompt that is not answered yet, or without one. -/
theorem PromptOk.of_idle (hp : job.phase = .idle)
    (h1 : ∀ p, job.result.snapshot.interaction = some p →
      p.id = promptOf id job.interactionSequence ∧ job.state = .waitingForUser)
    (h2 : ∀ a, job.answer = some a → a.requestId = promptOf id job.interactionSequence ∧
      job.result.snapshot.interaction = none) : PromptOk id job where
  prompt p h := (h1 p h).1
  waits h := by
    obtain ⟨p, hp⟩ := Option.ne_none_iff_exists'.mp h
    exact (h1 p hp).2
  answer := h2
  busy h := absurd hp h
  claim claim a hc := by rw [hp] at hc; cases hc
  running claim hc := by rw [hp] at hc; cases hc

/-- A job that does not wait for an answer goes on to another state. -/
theorem PromptOk.moved (h : PromptOk id job) (hw : job.state ≠ .waitingForUser) (next : JobState) :
    PromptOk id (job.moved next) := by
  have hnone : job.result.snapshot.interaction = none := by
    by_contra hne
    exact hw (h.waits hne)
  obtain ⟨c, adm, heq, -⟩ := job.moved_eq next
  rw [heq]
  exact ⟨h.prompt, fun hne => absurd hnone hne, h.answer, h.busy, h.claim, h.running⟩

theorem PromptOk.steered (h : PromptOk id job) (control : JobControl) :
    PromptOk id (job.steered control) := by
  cases control with
  | resume =>
    unfold Job.steered
    dsimp only
    have hsame : PromptOk id (job.withSnapshot fun p => { p with pauseRequested := false }) :=
      h.of_eq rfl rfl rfl rfl rfl
    split
    · rename_i hs
      exact hsame.moved (by rw [hs]; exact nofun) _
    · exact hsame
  | _ => exact h.of_eq rfl rfl rfl rfl rfl

/-- A job whose worker is back. -/
theorem PromptOk.settled {journal : Bool} {claim : Claim} {input : State.StepInput} {now : Nat}
    (h : PromptOk id job) (hp : job.phase = .claimed claim) :
    PromptOk id (Job.resolved (Job.verdict id now
      (job.advanced journal claim input).1 (job.advanced journal claim input).2)) := by
  have hanswer : job.answer = none := h.busy (by rw [hp]; exact nofun)
  have habort := @Job.verdict_abort job journal claim input id now
  obtain ⟨step', attempt, from_, hj, -⟩ :=
    Job.verdict_judged id now (job.advanced journal claim input).1
      (job.advanced journal claim input).2
  obtain ⟨opened, result, heq, hsame, -⟩ := job.advanced_eq journal claim input
  have hstate : result.snapshot.state = job.state := hsame .state
  have hprompt : result.snapshot.interaction = job.result.snapshot.interaction :=
    hsame .interaction
  revert habort hj
  generalize Job.verdict id now _ _ = v
  intro habort hj
  rw [heq] at hj
  by_cases ht : isTerminal v.2 = true
  · rw [Job.resolved, if_pos ht]
    cases hj with
    | goes =>
      refine ⟨?_, ?_, fun a ha => ?_, fun _ => hanswer, (fun c a hc => by cases hc),
        (fun c hc => by cases hc)⟩
      · intro p hp
        exact h.prompt p (hprompt.symm.trans hp)
      · intro hne
        exact hstate.trans (h.waits fun hn => hne (hprompt.trans hn))
      · rw [show job.answer = some a from ha] at hanswer
        cases hanswer
    | asks => cases ht
  · have hnone : job.result.snapshot.interaction = none := by
      refine h.running claim hp ?_
      by_contra hne
      exact ht (habort hne)
    obtain ⟨state, resume, c, adm, hres, hs', -⟩ := Job.resolved_eq (v := v) (by simpa using ht)
    rw [hres]
    cases hj with
    | goes =>
      refine .of_idle rfl (fun p hp => ?_) fun a ha => ?_
      · rw [show result.snapshot.interaction = some p from hp] at hprompt
        rw [hnone] at hprompt
        cases hprompt
      · rw [show job.answer = some a from ha] at hanswer
        cases hanswer
    | asks =>
      refine .of_idle rfl (fun p hp => ?_) fun a ha => ?_
      · cases hp
        refine ⟨rfl, ?_⟩
        rcases hs' with ⟨h, -⟩ | ⟨-, -, h, -⟩
        · exact h
        · cases h
      · rw [show job.answer = some a from ha] at hanswer
        cases hanswer

/-- What a turn keeps, with the worker of the job. -/
def Prompted (id : JobId) (job : Job) : Prop := Sound job ∧ PromptOk id job

theorem PromptOk.turn {journal : Bool} {a : Action} {o o' : Option Job}
    (ht : Turn journal a id o o') (ho : ∀ job, o = some job → Prompted id job) :
    ∀ job, o' = some job → PromptOk id job := by
  cases ht with
  | submitted => rintro _ ⟨⟩; exact .of_idle rfl (fun _ h => by cases h) fun _ h => by cases h
  | forgotten => exact fun _ h => by cases h
  | linked => rintro _ ⟨⟩; exact (ho _ rfl).2.of_eq rfl rfl rfl rfl rfl
  | steered => rintro _ ⟨⟩; exact ((ho _ rfl).2.steered _).of_eq rfl rfl rfl rfl rfl
  | @replied job answer now prompt ha hi hs hid hx =>
    rintro _ ⟨⟩
    obtain ⟨hsound, h⟩ := ho _ rfl
    obtain ⟨c, adm, heq, -⟩ := (job.answered answer).moved_eq job.resume
    rw [heq]
    refine .of_idle (hsound.idle hx) (fun _ h => by cases h) fun a ha' => ?_
    cases ha'
    exact ⟨hid.symm.trans (h.prompt prompt hi), rfl⟩
  | foregrounded | reordered | shutDown | stopped =>
    rintro _ ⟨⟩
    exact (ho _ rfl).2.of_eq rfl rfl rfl rfl rfl
  | @paused job now ha hl hx habort hp hs hw =>
    rintro _ ⟨⟩
    have hres : PromptOk id { job with resume := job.state } :=
      (ho _ rfl).2.of_eq rfl rfl rfl rfl rfl
    exact hres.moved hw _
  | @taken job now ha hl hx hr =>
    rintro _ ⟨⟩
    obtain ⟨hsound, h⟩ := ho _ rfl
    obtain ⟨lanes, adm, heq, -⟩ := job.readied_eq (job.abortAt now)
    obtain ⟨state, c, heq', hs, -⟩ := (job.readied (job.abortAt now)).prepared_eq
    rw [heq] at heq' hs
    rw [heq, heq']
    refine ⟨h.prompt, fun hne => ?_, (fun _ h => by cases h), fun _ => rfl, ?_, ?_⟩
    · have hwait := h.waits hne
      rcases hs with hs | ⟨hq, -⟩
      · exact hs.trans hwait
      · rw [show job.state = .queued from hq] at hwait
        cases hwait
    · rintro claim a ⟨⟩ hans
      exact h.answer a hans
    · rintro claim ⟨⟩ hab
      by_contra hne
      exact (hr hab).prompt (h.waits hne)
  | @receiptTaken job claim ha hp habort =>
    rintro _ ⟨⟩
    have h := (ho _ rfl).2
    have hne : job.phase ≠ .idle := by rw [hp]; exact nofun
    refine ⟨h.prompt, h.waits, h.answer, fun _ => h.busy hne, ?_, ?_⟩
    · rintro c a ⟨⟩ hans
      exact h.claim claim a hp hans
    · rintro c ⟨⟩ hab
      exact h.running claim hp habort
  | @receiptFailed job claim e ha hp habort =>
    rintro _ ⟨⟩
    have h := (ho _ rfl).2
    have hne : job.phase ≠ .idle := by rw [hp]; exact nofun
    refine ⟨h.prompt, h.waits, h.answer, fun _ => h.busy hne, ?_, ?_⟩
    · rintro c a ⟨⟩ hans
      exact h.claim claim a hp hans
    · rintro c ⟨⟩ hab
      cases hab
  | @receiptSaved job claim =>
    rintro _ ⟨⟩
    have h := (ho _ rfl).2
    exact .of_idle rfl (fun p hp => ⟨h.prompt p hp, h.waits (by
      rw [show job.result.snapshot.interaction = some p from hp]; exact nofun)⟩) h.answer
  | @again job claim input now ha hp hgo hretry =>
    rintro _ ⟨⟩
    have h := (ho _ rfl).2
    have hnone := h.running claim hp (Job.abort_of_retry hretry)
    obtain ⟨opened, result, heq, hsame, -⟩ := job.advanced_eq journal claim input
    have hprompt : result.snapshot.interaction = none := (hsame .interaction).trans hnone
    rw [heq]
    refine .of_idle rfl (fun p hp' => ?_) fun a ha' => ?_
    · rw [show result.snapshot.interaction = some p from hp'] at hprompt
      cases hprompt
    · have := h.busy (by rw [hp]; exact nofun)
      rw [show job.answer = some a from ha'] at this
      cases this
  | settled ha hp => rintro _ ⟨⟩; exact (ho _ rfl).2.settled hp
  | @collected job t effects fault ha hp =>
    rintro _ ⟨⟩
    have h := (ho _ rfl).2
    have hphase : ∀ result cleanup, result.snapshot.state = job.state →
        result.snapshot.interaction = job.result.snapshot.interaction →
        PromptOk id { job with result, phase := .collected t cleanup } := by
      intro result cleanup hs hi
      refine ⟨?_, ?_, ?_, fun _ => h.busy (by rw [hp]; exact nofun),
        (fun _ _ h => by cases h), (fun _ h => by cases h)⟩
      · dsimp only
        rw [hi]
        exact h.prompt
      · intro hne
        exact hs.trans (h.waits fun hn => hne (hi.trans hn))
      · dsimp only
        rw [hi]
        exact h.answer
    unfold Job.gathered
    split
    · exact hphase job.result _ rfl rfl
    · exact hphase _ _ (recordLate_snapshot .state _ _ _) (recordLate_snapshot .interaction _ _ _)
  | @finished job t collected input ha hp =>
    rintro _ ⟨⟩
    have h := (ho _ rfl).2
    obtain ⟨c, adm, heq, -⟩ := Job.moved_eq
      { job.cleaned (job.cleanup journal collected input) with lanesHeld := false }
      (if job.cleanup journal collected input = [] then t else .failed)
    unfold Job.finished
    rw [heq]
    refine .of_idle rfl (fun _ h => by cases h) fun a ha' => ?_
    have := h.busy (by rw [hp]; exact nofun)
    rw [show job.answer = some a from ha'] at this
    cases this

theorem Prompted.turn {Q : Action → Prop} : TurnKeeps Q Prompted :=
  fun _ _ _ _ _ hq ht ho job hjob =>
  ⟨Sound.turn hq ht (fun job h => (ho job h).1) job hjob, PromptOk.turn ht ho job hjob⟩

/-! ## Where prompts and answers come from -/

/-- The answer is on its way to the task. -/
def Holds (answer : InteractionAnswer) (job : Job) : Prop :=
  job.answer = some answer ∨ ∃ claim, job.phase = .claimed claim ∧ claim.answer = some answer

/-- A turn leaves the prompt, takes it back or puts the next one, and the answers on their way come
from replies. -/
structure Asks (a : Action) (id : JobId) (job job' : Job) : Prop where
  prompt : job'.interactionSequence = job.interactionSequence ∧
      (job'.result.snapshot.interaction = job.result.snapshot.interaction ∨
        job'.result.snapshot.interaction = none) ∨
    job'.interactionSequence = job.interactionSequence + 1
  answer : ∀ answer, Holds answer job' → Holds answer job ∨ ∃ now, a = .reply id answer now

/-- A turn that is not about prompts. -/
theorem Asks.of_eq {a : Action} (h1 : job'.interactionSequence = job.interactionSequence)
    (h2 : job'.result.snapshot.interaction = job.result.snapshot.interaction)
    (h3 : job'.answer = job.answer) (h4 : job'.phase = job.phase) : Asks a id job job' :=
  ⟨.inl ⟨h1, .inl h2⟩, fun answer h => .inl (by unfold Holds at *; rwa [h3, h4] at h)⟩

/-- A turn by which no answer gets on its way. -/
theorem Asks.of_unclaimed {a : Action} (h1 : job'.interactionSequence = job.interactionSequence)
    (h2 : job'.result.snapshot.interaction = job.result.snapshot.interaction ∨
      job'.result.snapshot.interaction = none)
    (h3 : job'.answer = job.answer) (h4 : ∀ claim, job'.phase ≠ .claimed claim) :
    Asks a id job job' := by
  refine ⟨.inl ⟨h1, h2⟩, fun answer h => ?_⟩
  rcases h with h | ⟨claim, hp, -⟩
  · exact .inl (.inl (h3.symm.trans h))
  · exact absurd hp (h4 claim)

theorem Asks.settled {journal : Bool} {a : Action} {claim : Claim} {input : State.StepInput}
    {now : Nat} : Asks a id job (Job.resolved (Job.verdict id now
      (job.advanced journal claim input).1 (job.advanced journal claim input).2)) := by
  obtain ⟨step', attempt, from_, hj, -⟩ :=
    Job.verdict_judged id now (job.advanced journal claim input).1
      (job.advanced journal claim input).2
  obtain ⟨opened, result, heq, hsame, -⟩ := job.advanced_eq journal claim input
  have hprompt : result.snapshot.interaction = job.result.snapshot.interaction :=
    hsame .interaction
  revert hj
  generalize Job.verdict id now _ _ = v
  intro hj
  rw [heq] at hj
  by_cases ht : isTerminal v.2 = true
  · rw [Job.resolved, if_pos ht]
    cases hj with
    | goes => exact .of_unclaimed rfl (.inl hprompt) rfl fun _ h => by cases h
    | asks => cases ht
  · obtain ⟨state, resume, c, adm, hres, -⟩ := Job.resolved_eq (v := v) (by simpa using ht)
    rw [hres]
    cases hj with
    | goes => exact .of_unclaimed rfl (.inl hprompt) rfl fun _ h => by cases h
    | asks =>
      refine ⟨.inr rfl, fun answer h => ?_⟩
      rcases h with h | ⟨claim, hp, -⟩
      · exact .inl (.inl h)
      · cases hp

/-- What every turn does to prompts and answers. -/
theorem Turn.asks {journal : Bool} {a : Action} (ht : Turn journal a id (some job) (some job')) :
    Asks a id job job' := by
  cases ht with
  | linked => exact .of_eq rfl rfl rfl rfl
  | @steered _ control =>
    obtain ⟨state, pause, c, deferred, adm, heq, -⟩ := job.steered_eq control
    rw [heq]
    exact .of_eq rfl rfl rfl rfl
  | @replied _ answer now prompt ha =>
    obtain ⟨c, adm, heq, -⟩ := (job.answered answer).moved_eq job.resume
    rw [heq]
    refine ⟨.inl ⟨rfl, .inr rfl⟩, fun answer h => ?_⟩
    rcases h with h | h
    · cases h
      exact .inr ⟨now, ha⟩
    · exact .inl (.inr h)
  | foregrounded | reordered | shutDown | stopped => exact .of_eq rfl rfl rfl rfl
  | paused =>
    obtain ⟨c, adm, heq, -⟩ := Job.moved_eq { job with resume := job.state } .paused
    rw [heq]
    exact .of_eq rfl rfl rfl rfl
  | @taken _ now =>
    obtain ⟨lanes, adm, heq, -⟩ := job.readied_eq (job.abortAt now)
    obtain ⟨state, c, heq', -⟩ := (job.readied (job.abortAt now)).prepared_eq
    rw [heq] at heq'
    rw [heq, heq']
    refine ⟨.inl ⟨rfl, .inl rfl⟩, fun answer h => ?_⟩
    rcases h with h | ⟨claim, hp, h⟩
    · cases h
    · cases hp
      exact .inl (.inl h)
  | receiptTaken ha hp =>
    refine ⟨.inl ⟨rfl, .inl rfl⟩, fun answer h => ?_⟩
    rcases h with h | ⟨claim, hc, h⟩
    · exact .inl (.inl h)
    · cases hc
      exact .inl (.inr ⟨_, hp, h⟩)
  | receiptFailed ha hp =>
    refine ⟨.inl ⟨rfl, .inl rfl⟩, fun answer h => ?_⟩
    rcases h with h | ⟨claim, hc, h⟩
    · exact .inl (.inl h)
    · cases hc
      exact .inl (.inr ⟨_, hp, h⟩)
  | receiptSaved => exact .of_unclaimed rfl (.inl rfl) rfl fun _ h => by cases h
  | @again _ claim input =>
    obtain ⟨opened, result, heq, hsame, -⟩ := job.advanced_eq journal claim input
    rw [heq]
    exact .of_unclaimed rfl (.inl (hsame .interaction)) rfl fun _ h => by cases h
  | settled => exact .settled
  | @collected _ t effects fault =>
    unfold Job.gathered
    split
    · exact .of_unclaimed rfl (.inl rfl) rfl fun _ h => by cases h
    · exact .of_unclaimed rfl (.inl (recordLate_snapshot .interaction _ _ _)) rfl
        fun _ h => by cases h
  | @finished _ t collected input =>
    obtain ⟨c, adm, heq, -⟩ := Job.moved_eq
      { job.cleaned (job.cleanup journal collected input) with lanesHeld := false }
      (if job.cleanup journal collected input = [] then t else .failed)
    unfold Job.finished
    rw [heq]
    exact .of_unclaimed rfl (.inr rfl) rfl fun _ h => by cases h

/-- The prompt number `n` is not outstanding any more. -/
def Past (n : Nat) (job : Job) : Prop :=
  n < job.interactionSequence ∨
    job.interactionSequence = n ∧ job.result.snapshot.interaction = none

theorem Past.turn {journal : Bool} {a : Action} {n : Nat} (h : Past n job)
    (ht : Turn journal a id (some job) (some job')) : Past n job' := by
  rcases ht.asks.prompt with ⟨hn, hi⟩ | hn
  · rcases h with h | ⟨h, hnone⟩
    · exact .inl (by omega)
    · refine .inr ⟨hn.trans h, ?_⟩
      rcases hi with hi | hi
      · rw [hi, hnone]
      · exact hi
  · rcases h with h | ⟨h, -⟩
    · exact .inl (by omega)
    · exact .inl (by omega)

end

/-! ## Runs -/

/-- A reply that is accepted answers the outstanding prompt of a job that waits for it. -/
theorem State.reply_ok {s s' : State} {id : JobId} {answer : InteractionAnswer} {now : Nat}
    (h : s.reply id answer now = .ok s') : ∃ job prompt, s.jobs.find id = some job ∧
      job.result.snapshot.interaction = some prompt ∧ prompt.id = answer.requestId ∧
      answer.choice ∈ prompt.choices ∧ job.state = .waitingForUser ∧ job.executing = false ∧
      job.result.snapshot.cancelRequested = false ∧ job.stopRequested = false ∧
      expired job.request.deadline now = false ∧
      s'.jobs = s.jobs.set id ((job.answered answer).moved job.resume) := by
  unfold State.reply at h
  split at h
  · cases h
  rename_i job hfind
  split at h
  · cases h
  rename_i prompt hprompt
  simp only [bind_eq_ok, failIf_eq_ok, pure_eq_ok] at h
  obtain ⟨-, hno, -, hno', rfl⟩ := h
  simp only [not_or, Bool.not_eq_true, ne_eq, not_not] at hno hno'
  obtain ⟨h1, h2, h3, h4, h5, h6⟩ := hno
  refine ⟨job, prompt, hfind, hprompt, h2, hno'.2, h1, h3, h4, h5, h6, ?_⟩
  rw [State.put, State.transition_jobs, State.transition_snd]

section

variable {fold : Str → Option Str} {workers retained : Nat} {journal : Bool}
  {actions : Nat → Action} {id : JobId}

variable (fold workers retained journal actions id) in
/-- The action `k` of the run is a reply to the job that is accepted. -/
def Accepts (k : Nat) (answer : InteractionAnswer) : Prop :=
  ∃ now s', actions k = .reply id answer now ∧
    (stateAt fold workers retained journal actions k).reply id answer now = .ok s'

theorem prompted_at {n : Nat} {job : Job}
    (h : (stateAt fold workers retained journal actions n).jobs.find id = some job) :
    Prompted id job :=
  Reaches.forall_job (Q := fun _ => True) Prompted.turn
    (State.run_reaches workers retained journal (fun _ => trivial) n) id job h

theorem Accepts.step {k : Nat} {answer : InteractionAnswer}
    (h : Accepts fold workers retained journal actions id k answer) : ∃ old job,
      (stateAt fold workers retained journal actions k).jobs.find id = some old ∧
      (stateAt fold workers retained journal actions (k + 1)).jobs.find id = some job ∧
      (∃ prompt, old.result.snapshot.interaction = some prompt ∧ prompt.id = answer.requestId) ∧
      answer.requestId = promptOf id old.interactionSequence ∧
      Past old.interactionSequence job := by
  obtain ⟨now, s', ha, hok⟩ := h
  obtain ⟨job, prompt, hfind, hprompt, hid, -, -, -, -, -, -, hjobs⟩ := State.reply_ok hok
  obtain ⟨c, adm, heq, -⟩ := (job.answered answer).moved_eq job.resume
  refine ⟨job, (job.answered answer).moved job.resume, hfind, ?_, ⟨prompt, hprompt, hid⟩, ?_, ?_⟩
  · show (State.act fold (stateAt fold workers retained journal actions k)
      (actions k)).jobs.find id =
      some _
    rw [ha, State.act, hok]
    show s'.jobs.find id = _
    rw [hjobs, OrdMap.find_set_self]
  · rw [← hid]
    exact (prompted_at hfind).2.prompt prompt hprompt
  · rw [heq]
    exact .inr ⟨rfl, rfl⟩

/-- A prompt is answered once. -/
theorem Accepts.unique {j k : Nat} {answer answer' : InteractionAnswer} (hjk : j < k)
    (hj : Accepts fold workers retained journal actions id j answer)
    (hk : Accepts fold workers retained journal actions id k answer') :
    answer.requestId ≠ answer'.requestId := by
  intro hsame
  obtain ⟨old, job, -, hjob, -, hold, hpast⟩ := hj.step
  obtain ⟨late, -, hlate, -, ⟨prompt, hprompt, -⟩, hid, -⟩ := hk.step
  have hpast' := State.run_keeps (State.known_new workers retained journal) hjk
    (fun _ _ _ _ _ _ ht h => Past.turn h ht) hjob hpast late hlate
  have hn : old.interactionSequence = late.interactionSequence :=
    promptOf_injective id (hold.symm.trans (hsame.trans hid))
  rcases hpast' with h | ⟨-, h⟩
  · omega
  · rw [hprompt] at h
    cases h

/-- An answer on its way to the task was accepted before. -/
theorem Holds.accepted {k : Nat} {job : Job} {answer : InteractionAnswer}
    (hfind : (stateAt fold workers retained journal actions k).jobs.find id = some job)
    (h : Holds answer job) :
    ∃ j < k, Accepts fold workers retained journal actions id j answer := by
  refine State.run_since (P := Holds answer) (fun n job hfind h => ?_) hfind h
  by_cases hreply : ∃ now, actions n = .reply id answer now
  · -- A reply that is not accepted leaves everything as it is.
    obtain ⟨now, ha⟩ := hreply
    have hact : (State.act fold (stateAt fold workers retained journal actions n)
        (actions n)).jobs.find id = some job := hfind
    rw [ha, State.act] at hact
    cases hr : (stateAt fold workers retained journal actions n).reply id answer now with
    | error e =>
      rw [hr] at hact
      exact .inl ⟨job, hact, h⟩
    | ok s' => exact .inr ⟨now, s', ha, hr⟩
  · refine turns_since (fun o job ht h => ?_) (turns_at _ _ _ _ _ n id) hfind h
    cases o with
    | none =>
      cases ht
      rcases h with h | ⟨claim, hp, -⟩
      · cases h
      · cases hp
    | some old =>
      rcases ht.asks.answer answer h with hold | hr
      · exact .inl ⟨old, rfl, hold⟩
      · exact absurd hr hreply

end

/-- In every run: a reply is accepted only for the outstanding prompt of a job that waits for it, is
not cancelled and not too late; no prompt is answered twice; an answer that a worker takes to the
task was accepted for the last prompt that the job put. -/
theorem prompt_protocol (fold : Str → Option Str) (workers retained : Nat) (journal : Bool)
    (actions : Nat → Action) (id : JobId) (k : Nat) :
    (∀ answer now s',
      (stateAt fold workers retained journal actions k).reply id answer now = .ok s' →
      ∃ job prompt, (stateAt fold workers retained journal actions k).jobs.find id = some job ∧
        job.result.snapshot.interaction = some prompt ∧
        prompt.id = promptOf id job.interactionSequence ∧ answer.requestId = prompt.id ∧
        answer.choice ∈ prompt.choices ∧ job.state = .waitingForUser ∧ job.executing = false ∧
        job.result.snapshot.cancelRequested = false ∧ job.stopRequested = false ∧
        expired job.request.deadline now = false) ∧
    (∀ j < k, ∀ answer answer', Accepts fold workers retained journal actions id j answer →
      Accepts fold workers retained journal actions id k answer' →
        answer.requestId ≠ answer'.requestId) ∧
    ∀ job claim answer, (stateAt fold workers retained journal actions k).jobs.find id = some job →
      job.phase = .claimed claim → claim.answer = some answer →
        answer.requestId = promptOf id job.interactionSequence ∧
        job.result.snapshot.interaction = none ∧
        ∃ j < k, Accepts fold workers retained journal actions id j answer ∧
          ∃ old prompt, (stateAt fold workers retained journal actions j).jobs.find id = some old ∧
            old.result.snapshot.interaction = some prompt ∧ prompt.id = answer.requestId ∧
            old.interactionSequence = job.interactionSequence := by
  refine ⟨fun answer now s' hok => ?_, fun j hj answer answer' h h' => h.unique hj h',
    fun job claim answer hfind hp hans => ?_⟩
  · obtain ⟨job, prompt, hfind, hprompt, hid, hchoice, hs, hx, hc, hstop, hd, -⟩ :=
      State.reply_ok hok
    exact ⟨job, prompt, hfind, hprompt, (prompted_at hfind).2.prompt prompt hprompt,
      hid.symm, hchoice,
      hs, hx, hc, hstop, hd⟩
  · obtain ⟨hid, hnone⟩ := (prompted_at hfind).2.claim claim answer hp hans
    obtain ⟨j, hj, hacc⟩ := Holds.accepted hfind (.inr ⟨claim, hp, hans⟩)
    obtain ⟨old, -, hold, -, ⟨prompt, hprompt, hpid⟩, hnum, -⟩ := hacc.step
    exact ⟨hid, hnone, j, hj, hacc, old, prompt, hold, hprompt, hpid,
      promptOf_injective id (hnum.symm.trans hid)⟩

/-- The answer `skip` to the first prompt of the job `[1]`. -/
def skipAnswer : InteractionAnswer := { requestId := promptOf [1] 1, choice := .skip }

/-- A step that puts a prompt. -/
def askStep : JobStep where
  next := .waitingForUser
  interaction := some { reason := "exists", choices := [.replace, .skip] }

/-- A job puts a prompt, which is answered. -/
def answeredRun (n : Nat) : Action :=
  [.submit [1] true false {}, .pick 0, .advance [1] { advance := some askStep } 0,
    .reply [1] skipAnswer 0].getD n (.pick 0)

/-- A worker takes the answer to the task. -/
theorem prompt_protocol_answered : ∃ job claim,
    (stateAt some 1 16 false answeredRun 5).jobs.find [1] = some job ∧
      job.phase = .claimed claim ∧ claim.answer = some skipAnswer ∧
      ∃ j < 5, Accepts some 1 16 false answeredRun [1] j skipAnswer := by
  let claim : Claim := ⟨none, false, false, some skipAnswer, 0, none⟩
  have hsome : ((stateAt some 1 16 false answeredRun 5).jobs.find [1]).map (·.phase) =
      some (.claimed claim) := by decide +kernel
  obtain ⟨job, hfind, hp⟩ := Option.map_eq_some_iff.mp hsome
  obtain ⟨-, -, j, hj, hacc, -⟩ :=
    (prompt_protocol some 1 16 false answeredRun [1] 5).2.2 job claim skipAnswer hfind hp rfl
  exact ⟨job, claim, hfind, hp, rfl, j, hj, hacc⟩

end Hc.Operations
