import HyperCommander.Operations.Accounting

/-!
# The records of the jobs in every run

* `Books`: what holds of the record of a job.
* `books_at`: it holds in every run.
* `job_accounting`: the counters of a job are the histogram of its rows, and a row keeps its marks.
-/

namespace Hc.Operations

open List Storage Outcome Relation

/-! ## One section -/

/-- A worker may yet advance the task of the job. -/
structure Underway (job : Job) : Prop where
  live : isTerminal job.state = false
  phase : job.phase = .idle ∨ ∃ claim, job.phase = .claimed claim

/-- The job ends as failed or cancelled. -/
inductive Doomed (job : Job) : Prop
  | ended {t} (hp : job.phase = .ended t) (ht : t ≠ .completed)
  | collected {t cleanup} (hp : job.phase = .collected t cleanup)
    (ht : t ≠ .completed ∨ cleanup ≠ [])
  | closed (hs : isTerminal job.state = true) (hn : job.state ≠ .completed)

/-- The record of a job of a scheduler. `L` holds of the outcomes that could not be written, `F` if
an effect that arrived after the last step had failed. -/
structure Books (journal : Bool) (L : ItemOutcome → Prop) (F : Prop) (job : Job) : Prop where
  accounted : ∃ lost, Accounted job.result lost ∧ (lost ≠ [] → Doomed job) ∧ ∀ item ∈ lost, L item
  unopened : journal = true → job.itemsOpened = false → Underway job →
    job.result.items = [] ∧ job.result.outcomes = none
  ended : job.phase = .ended .completed → job.result.snapshot.failedItems = 0
  completed : (∃ cleanup, job.phase = .collected .completed cleanup) ∨ job.state = .completed →
    job.result.snapshot.failedItems = 0 ∨ F

/-- The part of a result that is on record. -/
structure SameBooks (result result' : JobResult) : Prop where
  counter : result'.snapshot.counter = result.snapshot.counter
  items : result'.items = result.items
  outcomes : result'.outcomes = result.outcomes

theorem SameBooks.failedItems {result result' : JobResult} (h : SameBooks result result') :
    result'.snapshot.failedItems = result.snapshot.failedItems := congrFun h.counter .failed

theorem SameBooks.ledger {result result' : JobResult} (h : SameBooks result result') :
    result'.ledger = result.ledger := by
  rw [JobResult.ledger, JobResult.ledger, h.outcomes, h.items]

theorem SameBooks.of_eq {result result' : JobResult}
    (h1 : result'.snapshot.completedItems = result.snapshot.completedItems)
    (h2 : result'.snapshot.skippedItems = result.snapshot.skippedItems)
    (h3 : result'.snapshot.failedItems = result.snapshot.failedItems)
    (h4 : result'.items = result.items) (h5 : result'.outcomes = result.outcomes) :
    SameBooks result result' :=
  ⟨funext fun status => by cases status; exacts [h1, h2, h3], h4, h5⟩

namespace Underway

variable {job : Job}

theorem not_doomed (h : Underway job) : ¬ Doomed job := by
  intro hd
  cases hd with
  | ended hp => rcases h.phase with h | ⟨claim, h⟩ <;> rw [hp] at h <;> cases h
  | collected hp => rcases h.phase with h | ⟨claim, h⟩ <;> rw [hp] at h <;> cases h
  | closed hs => rw [h.live] at hs; cases hs

theorem of_claimed (hsound : Sound job) {claim : Claim} (hp : job.phase = .claimed claim) :
    Underway job :=
  ⟨hsound.live (by rw [hp]; exact nofun), .inr ⟨claim, hp⟩⟩

theorem of_free (hsound : Sound job) (hl : isTerminal job.state = false)
    (hx : job.executing = false) : Underway job := ⟨hl, .inl (hsound.idle hx)⟩

theorem not_ended (h : Underway job) (t : JobState) : job.phase ≠ .ended t := by
  intro hp
  rcases h.phase with h | ⟨claim, h⟩ <;> rw [hp] at h <;> cases h

theorem not_completed (h : Underway job) :
    ¬ ((∃ cleanup, job.phase = .collected .completed cleanup) ∨ job.state = .completed) := by
  rintro (⟨cleanup, hp⟩ | hs)
  · rcases h.phase with h | ⟨claim, h⟩ <;> rw [hp] at h <;> cases h
  · have := h.live
    rw [hs] at this
    cases this

end Underway

section

variable {journal : Bool} {L : ItemOutcome → Prop} {F : Prop} {a : Action} {id : JobId}
  {job job' : Job}

/-- The record of a job under way. -/
theorem Books.exact (h : Books journal L F job) (hu : Underway job) : Accounted job.result [] := by
  obtain ⟨lost, hacc, hdoom, -⟩ := h.accounted
  by_cases hl : lost = []
  · rwa [hl] at hacc
  · exact absurd (hdoom hl) hu.not_doomed

theorem Books.of_underway (hu : Underway job) (h : Accounted job.result [])
    (hopen : journal = true → job.itemsOpened = false →
      job.result.items = [] ∧ job.result.outcomes = none) : Books journal L F job where
  accounted := ⟨[], h, fun hne => absurd rfl hne, fun _ hm => by cases hm⟩
  unopened hj ho _ := hopen hj ho
  ended hp := absurd hp (hu.not_ended _)
  completed hc := absurd hc hu.not_completed

/-- A turn that leaves the record alone and keeps the job under way. -/
theorem Books.underway (h : Books journal L F job) (hu : Underway job) (hu' : Underway job')
    (hsame : SameBooks job.result job'.result) (ho : job'.itemsOpened = job.itemsOpened) :
    Books journal L F job' :=
  .of_underway hu' ((h.exact hu).congr hsame.counter hsame.items hsame.outcomes) fun hj hopen => by
    rw [hsame.items, hsame.outcomes]
    exact h.unopened hj (ho.symm.trans hopen) hu

/-- A turn that leaves the record alone and the job where it is. -/
theorem Books.same (h : Books journal L F job) (hsame : SameBooks job.result job'.result)
    (ho : job'.itemsOpened = job.itemsOpened) (hp : job'.phase = job.phase)
    (ht : isTerminal job'.state = isTerminal job.state)
    (hs : isTerminal job.state = true → job'.state = job.state) : Books journal L F job' := by
  have hdoom : Doomed job → Doomed job' := fun hd => by
    cases hd with
    | ended hp' hne => exact .ended (hp.trans hp') hne
    | collected hp' hne => exact .collected (hp.trans hp') hne
    | closed hs' hne => exact .closed (ht.trans hs') (by rw [hs hs']; exact hne)
  obtain ⟨lost, hacc, hd, hl⟩ := h.accounted
  refine ⟨⟨lost, hacc.congr hsame.counter hsame.items hsame.outcomes,
    fun hne => hdoom (hd hne), hl⟩,
    fun hj hopen hu => ?_, fun hp' => ?_, fun hc => ?_⟩
  · rw [hsame.items, hsame.outcomes]
    exact h.unopened hj (ho.symm.trans hopen) ⟨ht.symm.trans hu.live, hp ▸ hu.phase⟩
  · rw [hsame.failedItems]
    exact h.ended (hp.symm.trans hp')
  · rw [hsame.failedItems]
    refine h.completed ?_
    rcases hc with ⟨cleanup, hc⟩ | hc
    · exact .inl ⟨cleanup, hp.symm.trans hc⟩
    · have hterm : isTerminal job.state = true := by rw [← ht, hc]; rfl
      exact .inr ((hs hterm).symm.trans hc)

/-- The end of a job. -/
theorem Books.finished (h : Books journal L F job) (hsound : Sound job) (kept : Bool) {t : JobState}
    {collected : List Error} (hp : job.phase = .collected t collected) (input : State.EndInput) :
    Books journal L F (job.finished t (job.cleanup kept collected input)) ∧
      SameBooks job.result (job.finished t (job.cleanup kept collected input)).result := by
  obtain ⟨c, adm, heq, -⟩ := Job.moved_eq
    { job.cleaned (job.cleanup kept collected input) with lanesHeld := false }
    (if job.cleanup kept collected input = [] then t else .failed)
  have hterm := hsound.collected t _ hp
  have hclean : collected ≠ [] → job.cleanup kept collected input ≠ [] := by
    intro hne hnil
    unfold Job.cleanup at hnil
    simp only [append_assoc, append_eq_nil_iff] at hnil
    exact hne hnil.1
  have hl : isTerminal job.state = false := hsound.live (by rw [hp]; exact nofun)
  unfold Job.finished
  rw [heq]
  have hsame : SameBooks job.result (Job.promise { (job.cleaned (job.cleanup kept collected
      input)).withSnapshot fun p => { p with
        state := if job.cleanup kept collected input = [] then t else .failed
        cancelRequested := c } with lanesHeld := false, admitted := adm }).result :=
    .of_eq rfl rfl rfl rfl rfl
  obtain ⟨lost, hacc, hd, hlost⟩ := h.accounted
  refine ⟨⟨⟨lost, hacc.congr hsame.counter hsame.items hsame.outcomes, fun hne => ?_, hlost⟩,
    fun hj hopen hu => ?_, (fun hp' => by cases hp'), fun hc => ?_⟩, hsame⟩
  · refine .closed ?_ ?_
    · show isTerminal (if job.cleanup kept collected input = [] then t else .failed) = true
      split
      · exact hterm
      · rfl
    · show (if job.cleanup kept collected input = [] then t else .failed) ≠ .completed
      cases hd hne with
      | ended hp' => rw [hp] at hp'; cases hp'
      | collected hp' hne' =>
        rw [hp] at hp'
        cases hp'
        rcases hne' with hne' | hne'
        · split
          · exact hne'
          · exact nofun
        · rw [if_neg (hclean hne')]
          exact nofun
      | closed hs => rw [hl] at hs; cases hs
  · have hlive : isTerminal (if job.cleanup kept collected input = [] then t else .failed) =
        false := hu.live
    split at hlive
    · rw [hterm] at hlive; cases hlive
    · cases hlive
  · show job.result.snapshot.failedItems = 0 ∨ F
    rcases hc with ⟨cleanup, hc⟩ | hc
    · cases hc
    · have hc : (if job.cleanup kept collected input = [] then t else .failed) = .completed := hc
      split at hc
      · exact h.completed (.inl ⟨collected, by rw [hp, hc]⟩)
      · cases hc

/-- A turn that leaves the record and the state alone. -/
theorem Books.stays (h : Books journal L F job) (hsame : SameBooks job.result job'.result)
    (ho : job'.itemsOpened = job.itemsOpened) (hp : job'.phase = job.phase)
    (hs : job'.state = job.state) : Books journal L F job' ∧ SameBooks job.result job'.result :=
  ⟨h.same hsame ho hp (congrArg isTerminal hs) fun _ => hs, hsame⟩

/-- The record is left alone by a turn that neither advances the job nor collects its effects. -/
theorem Turn.books {kept : Bool} (hsound : Sound job) (ht : Turn kept a id (some job) (some job'))
    (hadvance : ∀ input now, a ≠ .advance id input now)
    (hcollect : ∀ effects fault, a ≠ .collect id effects fault) (h : Books journal L F job) :
    Books journal L F job' ∧ SameBooks job.result job'.result := by
  cases ht with
  | linked => exact h.stays (.of_eq rfl rfl rfl rfl rfl) rfl rfl rfl
  | @steered _ control ha hl =>
    obtain ⟨state, pause, cancel, deferred, adm, heq, hs, -⟩ := job.steered_eq control
    have hl' : isTerminal state = false := by
      rcases hs with rfl | ⟨-, rfl⟩
      · exact hl
      · exact hsound.resume
    have hsame : SameBooks job.result (job.steered control).notify.result := by
      rw [heq]
      exact .of_eq rfl rfl rfl rfl rfl
    refine ⟨h.same hsame ?_ ?_ ?_ fun ht => absurd (hl.symm.trans ht) (by decide), hsame⟩
    · rw [heq]; rfl
    · rw [heq]; rfl
    · rw [heq]; exact hl'.trans hl.symm
  | @replied _ answer now prompt ha hi hs hid hx =>
    have hl : isTerminal job.state = false := by rw [hs]; rfl
    obtain ⟨c, adm, heq, -⟩ := (job.answered answer).moved_eq job.resume
    have hsame : SameBooks job.result ((job.answered answer).moved job.resume).result := by
      rw [heq]
      exact .of_eq rfl rfl rfl rfl rfl
    refine ⟨h.underway (.of_free hsound hl hx) ⟨?_, .inl ?_⟩ hsame ?_, hsame⟩
    · rw [heq]; exact hsound.resume
    · rw [heq]; exact hsound.idle hx
    · rw [heq]; rfl
  | foregrounded | reordered | shutDown | stopped =>
    exact h.stays (.of_eq rfl rfl rfl rfl rfl) rfl rfl rfl
  | @paused _ now ha hl hx =>
    obtain ⟨c, adm, heq, -⟩ := Job.moved_eq { job with resume := job.state } .paused
    have hsame : SameBooks job.result
        (Job.moved { job with resume := job.state } .paused).result := by
      rw [heq]
      exact .of_eq rfl rfl rfl rfl rfl
    refine ⟨h.underway (.of_free hsound hl hx) ⟨?_, .inl ?_⟩ hsame ?_, hsame⟩
    · rw [heq]; rfl
    · rw [heq]; exact hsound.idle hx
    · rw [heq]; rfl
  | @taken _ now ha hl hx =>
    obtain ⟨lanes, adm, heq, -⟩ := job.readied_eq (job.abortAt now)
    obtain ⟨state, c, heq', hs, -⟩ := (job.readied (job.abortAt now)).prepared_eq
    have hstate : isTerminal state = false := by
      rw [heq] at hs
      rcases hs with hs | ⟨-, -, hs⟩
      · rw [hs]; exact hl
      · rw [hs]; rfl
    rw [heq', heq]
    have hsame : SameBooks job.result
        (job.withSnapshot fun p => { p with state, cancelRequested := c }).result :=
      .of_eq rfl rfl rfl rfl rfl
    exact ⟨h.underway (.of_free hsound hl hx) ⟨hstate, .inr ⟨_, rfl⟩⟩ hsame rfl, hsame⟩
  | @receiptTaken _ claim ha hp =>
    have hu := Underway.of_claimed hsound hp
    have hsame : SameBooks job.result job.result := .of_eq rfl rfl rfl rfl rfl
    exact ⟨h.underway hu ⟨hu.live, .inr ⟨_, rfl⟩⟩ hsame rfl, hsame⟩
  | @receiptFailed _ claim e ha hp =>
    have hu := Underway.of_claimed hsound hp
    have hsame : SameBooks job.result job.result := .of_eq rfl rfl rfl rfl rfl
    exact ⟨h.underway hu ⟨hu.live, .inr ⟨_, rfl⟩⟩ hsame rfl, hsame⟩
  | @receiptSaved _ claim order ha hp =>
    have hu := Underway.of_claimed hsound hp
    have hsame : SameBooks job.result job.result := .of_eq rfl rfl rfl rfl rfl
    exact ⟨h.underway hu ⟨hu.live, .inl rfl⟩ hsame rfl, hsame⟩
  | again ha => exact absurd ha (hadvance _ _)
  | settled ha => exact absurd ha (hadvance _ _)
  | collected ha => exact absurd ha (hcollect _ _)
  | finished ha hp => exact h.finished hsound kept hp _

/-- The stores of a job are opened before anything is on record. -/
theorem Books.opened (h : Books journal L F job) (hu : Underway job) (claim : Claim)
    (input : State.StepInput) : Booked job.result (job.opened journal claim input).1.result [] ∧
      (journal = true → (job.opened journal claim input).1.itemsOpened = false →
        claim.abort ≠ none) := by
  have hexact := h.exact hu
  have hsame : Booked job.result job.result [] := ⟨hexact, .refl _⟩
  unfold Job.opened State.openItems
  split
  · dsimp only
    split
    · rename_i hopen
      exact ⟨hsame, fun _ hno => by rw [hopen] at hno; cases hno⟩
    · rename_i hj hopen
      have hopen : job.itemsOpened = false := by simpa using hopen
      split
      · exact ⟨hsame, fun _ hno => by cases hno⟩
      · exact ⟨hsame, fun _ hno => by cases hno⟩
      · obtain ⟨hitems, ho⟩ := h.unopened hj.2 hopen hu
        have hl : job.result.ledger = [] := by
          rw [JobResult.ledger, ho, hitems]
          rfl
        refine ⟨⟨⟨fun status => ?_, fun rows hrows _ => ?_⟩, ?_⟩, fun _ hno => by cases hno⟩
        · have hcount := hexact.counts status
          rw [hl] at hcount
          exact hcount
        · cases hrows
          exact hitems
        · rw [hl]
          exact .append [] _
  · rename_i hno
    exact ⟨hsame, fun hj _ habort => hno ⟨habort, hj⟩⟩

/-- A step is recorded before it is judged. -/
theorem Books.advanced (h : Books journal L F job) (hu : Underway job) (claim : Claim)
    (input : State.StepInput) : ∃ lost,
      Booked job.result (job.advanced journal claim input).1.result lost ∧
      (lost ≠ [] → (job.advanced journal claim input).2.next = .failed ∧
        (job.advanced journal claim input).2.retry = false ∧
        ∃ step, input.advance = some step ∧ (∀ item ∈ lost, item ∈ step.items) ∧
          Unwritten (job.opened journal claim input).1.request.maxItemResults input.fault
            (job.opened journal claim input).1.result step.items) ∧
      (journal = true → (job.advanced journal claim input).1.itemsOpened = false →
        claim.abort ≠ none) := by
  obtain ⟨hopen, hitems⟩ := h.opened hu claim input
  obtain ⟨lost, hbooked, hlost⟩ := @record_accounted
    (job.opened journal claim input).1.request.maxItemResults input.fault
    (job.opened journal claim input).1.result
    (State.stepOf (job.opened journal claim input).2 input) hopen.accounted
  refine ⟨lost, ?_, fun hne => ?_, ?_⟩
  · have hb : Booked job.result (record (job.opened journal claim input).1.request.maxItemResults
        input.fault (job.opened journal claim input).1.result
        (State.stepOf (job.opened journal claim input).2 input)).1 lost :=
      ⟨hbooked.accounted, hopen.grows.trans hbooked.grows⟩
    unfold Job.advanced
    dsimp only
    split
    · exact ⟨hb.accounted.congr (funext fun status => by cases status <;> rfl) rfl rfl, hb.grows⟩
    · exact hb
  · obtain ⟨hsuffix, hunwritten, hnext, hretry⟩ := hlost hne
    -- Only a step of the task has a batch.
    obtain ⟨step, hstep, hof⟩ : ∃ step, input.advance = some step ∧
        State.stepOf (job.opened journal claim input).2 input = step := by
      cases habort : (job.opened journal claim input).2 with
      | some e =>
        rw [habort] at hsuffix
        exact absurd (suffix_nil.mp hsuffix) hne
      | none =>
        cases ha : input.advance with
        | none =>
          rw [habort] at hsuffix
          unfold State.stepOf at hsuffix
          rw [ha] at hsuffix
          exact absurd (suffix_nil.mp hsuffix) hne
        | some step =>
          refine ⟨step, rfl, ?_⟩
          unfold State.stepOf
          rw [ha]
    rw [hof] at hunwritten hsuffix
    exact ⟨hnext, hretry, step, hstep, fun item hm => hsuffix.subset hm, hunwritten⟩
  · intro hj hno
    refine hitems hj ?_
    rw [← hno]
    unfold Job.advanced
    dsimp only
    split <;> rfl

/-- A step that is to be done again leaves its record. -/
theorem Books.again {F' : Prop} (h : Books journal L F job) (hsound : Sound job) {claim : Claim}
    (hp : job.phase = .claimed claim) {input : State.StepInput} (now : Nat)
    (hretry : (job.advanced journal claim input).2.retry = true) {L' : ItemOutcome → Prop} :
    Books journal L' F' ((job.advanced journal claim input).1.delayed
        (job.advanced journal claim input).2 now) ∧
      Grows job.result.ledger ((job.advanced journal claim input).1.delayed
        (job.advanced journal claim input).2 now).result.ledger := by
  have hu := Underway.of_claimed hsound hp
  obtain ⟨lost, hbooked, hlost, hopen⟩ := h.advanced hu claim input
  have hnone : lost = [] := by
    by_contra hne
    rw [(hlost hne).2.1] at hretry
    cases hretry
  subst hnone
  have hstate := (Alike.advanced journal job claim input).2
  refine ⟨.of_underway ⟨(congrArg isTerminal hstate).trans hu.live, .inl rfl⟩ ?_ fun hj hno => ?_,
    hbooked.grows⟩
  · exact hbooked.accounted.congr (funext fun status => by cases status <;> rfl) rfl rfl
  · exact absurd (Job.abort_of_retry hretry) (hopen hj hno)

/-- The step of a job is over. -/
theorem Books.settled {F' : Prop} (h : Books journal L F job) (hsound : Sound job) {claim : Claim}
    (hp : job.phase = .claimed claim) {input : State.StepInput} (now : Nat)
    {L' : ItemOutcome → Prop} (hL : ∀ step, input.advance = some step → Unwritten
      (job.opened journal claim input).1.request.maxItemResults input.fault
      (job.opened journal claim input).1.result step.items → ∀ item ∈ step.items, L' item) :
    Books journal L' F' (Job.resolved (Job.verdict id now
        (job.advanced journal claim input).1 (job.advanced journal claim input).2)) ∧
      Grows job.result.ledger
        (Job.resolved (Job.verdict id now (job.advanced journal claim input).1
          (job.advanced journal claim input).2)).result.ledger := by
  have hu := Underway.of_claimed hsound hp
  obtain ⟨lost, hbooked, hlost, hopen⟩ := h.advanced hu claim input
  have hstate := (Alike.advanced journal job claim input).2
  obtain ⟨step', attempt, from_, hj, -, -, hnext, -⟩ := Job.verdict_judged id now
    (job.advanced journal claim input).1 (job.advanced journal claim input).2
  have habort := @Job.verdict_abort job journal claim input id now
  have hopened := hopen
  revert hj habort
  generalize Job.verdict id now _ _ = v
  intro hj habort
  -- The verdict leaves the record alone; it is not `Completed` with a failed item.
  obtain ⟨hsame, hvs, hvo, hdone, hfail⟩ : SameBooks (job.advanced journal claim input).1.result
      v.1.result ∧ v.1.state = job.state ∧
      v.1.itemsOpened = (job.advanced journal claim input).1.itemsOpened ∧
      (v.2 = .completed → v.1.result.snapshot.failedItems = 0) ∧
      (lost ≠ [] → isTerminal v.2 = true ∧ v.2 ≠ .completed) := by
    have hfrom : lost ≠ [] → from_ = .failed := fun hne =>
      (hnext (hlost hne).2.1).trans (hlost hne).1
    cases hj with
    | goes hsrc hq hpz hw hdone =>
      refine ⟨.of_eq rfl rfl rfl rfl rfl, hstate, rfl, hdone, fun hne => ?_⟩
      rcases hsrc with hs | hs | hs
      · have hs := Eq.trans hs (hfrom hne)
        exact ⟨congrArg isTerminal hs, fun h => by cases hs.symm.trans h⟩
      · exact ⟨congrArg isTerminal hs, fun h => by cases hs.symm.trans h⟩
      · exact ⟨congrArg isTerminal hs, fun h => by cases hs.symm.trans h⟩
    | asks hv =>
      refine ⟨.of_eq rfl rfl rfl rfl rfl, hstate, rfl, nofun, fun hne => ?_⟩
      cases Eq.trans (Eq.symm hv) (hfrom hne)
  have hacc := hbooked.accounted.congr hsame.counter hsame.items hsame.outcomes
  have hgrows : Grows job.result.ledger v.1.result.ledger := by
    rw [hsame.ledger]
    exact hbooked.grows
  have hlive : isTerminal v.1.state = false := (congrArg isTerminal hvs).trans hu.live
  by_cases ht : isTerminal v.2 = true
  · rw [Job.resolved, if_pos ht]
    refine ⟨⟨⟨lost, hacc, fun hne => .ended rfl (hfail hne).2, fun item hm => ?_⟩,
      fun _ _ hu' => absurd rfl (hu'.not_ended v.2), fun hend => ?_, fun hc => ?_⟩, hgrows⟩
    · obtain ⟨-, -, step, hstep, hof, hun⟩ := hlost (ne_nil_of_mem hm)
      exact hL step hstep hun item (hof item hm)
    · exact hdone (Phase.ended.inj hend)
    · rcases hc with ⟨cleanup, hc⟩ | hc
      · cases hc
      · have hc : v.1.state = .completed := hc
        rw [hc] at hlive
        cases hlive
  · have hnone : lost = [] := by
      by_contra hne
      exact ht (hfail hne).1
    subst hnone
    have hgo : claim.abort = none := by
      by_contra hne
      exact ht (habort hne)
    obtain ⟨state, resume, c, adm, heq, hs, -⟩ := Job.resolved_eq (v := v) (by simpa using ht)
    have hstate' : isTerminal state = false := by
      rcases hs with ⟨rfl, -⟩ | ⟨rfl, -⟩
      · simpa using ht
      · rfl
    rw [heq]
    refine ⟨.of_underway ⟨hstate', .inl rfl⟩ ?_ fun hj hno => ?_, hgrows⟩
    · exact hacc.congr (funext fun status => by cases status <;> rfl) rfl rfl
    · exact absurd hgo (hopened hj (hvo.symm.trans hno))

/-- The late effects of a job are recorded. -/
theorem Books.gathered (h : Books journal L F job) (hsound : Sound job) {t : JobState}
    (hp : job.phase = .ended t) (effects : Option CompletedEffects) (fault : Nat → Option Error)
    {L' : ItemOutcome → Prop} {F' : Prop} (hmono : ∀ item, L item → L' item)
    (hL : ∀ late, effects = some late → UnwrittenLate fault job.result late.items →
      ∀ item ∈ late.items, L' item)
    (hF : ∀ late, effects = some late → (∃ item ∈ late.items, item.status = .failed) → F') :
    Books journal L' F' (job.gathered t effects fault) ∧
      Grows job.result.ledger (job.gathered t effects fault).result.ledger := by
  have hl : isTerminal job.state = false := hsound.live (by rw [hp]; exact nofun)
  obtain ⟨lost, hacc, hdoom, hof⟩ := h.accounted
  have hne : lost ≠ [] → t ≠ .completed := fun hne => by
    cases hdoom hne with
    | ended hp' ht => rw [hp] at hp'; cases hp'; exact ht
    | collected hp' => rw [hp] at hp'; cases hp'
    | closed hs => rw [hl] at hs; cases hs
  have hover : ∀ {result : JobResult} {cleanup : List Error},
      ¬ Underway { job with result, phase := .collected t cleanup } := fun hu => by
    rcases hu.phase with hu | ⟨claim, hu⟩ <;> cases hu
  cases effects with
  | none =>
    refine ⟨⟨⟨lost, hacc, fun hne' => .collected rfl (.inl (hne hne')), fun item hm =>
      hmono item (hof item hm)⟩, fun _ _ hu => absurd hu hover, (fun hp' => by cases hp'),
      fun hc => ?_⟩, .refl _⟩
    rcases hc with ⟨cleanup, hc⟩ | hc
    · cases hc
      exact .inl (h.ended hp)
    · have hc : job.state = .completed := hc
      rw [hc] at hl
      cases hl
  | some late =>
    obtain ⟨gone, hsuffix, hacc', hgrows, hun⟩ := recordLate_accounted hacc fault late
    have hstate : (recordLate fault job.result late).1.snapshot.state = job.state :=
      recordLate_snapshot .state _ _ _
    refine ⟨⟨⟨lost ++ gone, hacc', fun hne' => .collected rfl ?_, fun item hm => ?_⟩,
      fun _ _ hu => absurd hu hover, (fun hp' => by cases hp'), fun hc => ?_⟩, hgrows⟩
    · by_cases hg : gone = []
      · rw [hg, append_nil] at hne'
        exact .inl (hne hne')
      · exact .inr (hun hg).1
    · rcases mem_append.mp hm with hm | hm
      · exact hmono item (hof item hm)
      · exact hL late rfl (hun (ne_nil_of_mem hm)).2 item (hsuffix.subset hm)
    · rcases hc with ⟨cleanup, hc⟩ | hc
      · obtain ⟨rfl, -⟩ := Phase.collected.inj hc
        have hcount := recordLate_counter fault job.result late .failed
        have hzero : job.result.snapshot.counter .failed = 0 := h.ended hp
        rw [hzero, Nat.zero_add] at hcount
        by_cases hany : ∃ item ∈ late.items, item.status = .failed
        · exact .inr (hF late rfl hany)
        · refine .inl (Eq.trans hcount ?_)
          rw [tally, countP_eq_zero]
          intro item hm hs
          exact hany ⟨item, hm, by simpa using hs⟩
      · have hc : (recordLate fault job.result late).1.snapshot.state = .completed := hc
        rw [hstate] at hc
        rw [hc] at hl
        cases hl

theorem Books.submitted (stopped : Bool) (request : JobRequest) (order : Nat) :
    Books journal L F (Job.submitted stopped request order) :=
  .of_underway ⟨rfl, .inl rfl⟩ ⟨fun status => by cases status <;> rfl, fun rows h => by cases h⟩
    fun _ _ => ⟨rfl, rfl⟩

theorem Books.mono {L' : ItemOutcome → Prop} {F' : Prop} (h : Books journal L F job)
    (hL : ∀ item, L item → L' item) (hF : F → F') : Books journal L' F' job := by
  obtain ⟨lost, hacc, hdoom, hof⟩ := h.accounted
  refine ⟨⟨lost, hacc, hdoom, fun item hm => hL item (hof item hm)⟩, h.unopened,
    h.ended, fun hc => ?_⟩
  rcases h.completed hc with hz | hf
  · exact .inl hz
  · exact .inr (hF hf)

end

/-! ## Runs -/

/-- The store does not take a batch of a step, or the late effects, whole, and `item` is one of
them. -/
inductive State.Loses (s : State) (id : JobId) (item : ItemOutcome) : Action → Prop
  | batch {job claim input now step} (hfind : s.jobs.find id = some job)
    (hp : job.phase = .claimed claim) (hstep : input.advance = some step)
    (hlost : Unwritten (job.opened s.journal claim input).1.request.maxItemResults input.fault
      (job.opened s.journal claim input).1.result step.items) (hitem : item ∈ step.items) :
    Loses s id item (.advance id input now)
  | late {job t effects fault} (hfind : s.jobs.find id = some job) (hp : job.phase = .ended t)
    (hlost : UnwrittenLate fault job.result effects.items) (hitem : item ∈ effects.items) :
    Loses s id item (.collect id (some effects) fault)

/-- An effect that arrives after the last step had failed. -/
def FailsLate (id : JobId) (a : Action) : Prop :=
  ∃ effects fault, a = .collect id (some effects) fault ∧
    ∃ item ∈ effects.items, item.status = .failed

section Runs

variable {fold : Str → Option Str} {workers retained : Nat} {journal : Bool}
  {actions : Nat → Action} {id : JobId}

variable (fold workers retained journal actions id) in
/-- The record of the job before action `n`. -/
abbrev BooksAt (n : Nat) : Job → Prop :=
  Books journal
    (fun item => ∃ j < n,
      (stateAt fold workers retained journal actions j).Loses id item (actions j))
    (∃ j < n, FailsLate id (actions j))

theorem BooksAt.succ {n : Nat} {job : Job}
    (h : BooksAt fold workers retained journal actions id n job) :
    BooksAt fold workers retained journal actions id (n + 1) job :=
  h.mono (fun _ hl => hl.imp fun _ hj => ⟨Nat.lt_succ_of_lt hj.1, hj.2⟩)
    fun hf => hf.imp fun _ hj => ⟨Nat.lt_succ_of_lt hj.1, hj.2⟩

theorem journal_at (n : Nat) :
    (stateAt fold workers retained journal actions n).journal = journal := by
  induction n with
  | zero => rfl
  | succ n ih => exact (act_evolves fold (known_at n) (actions n)).journal.trans ih

/-- A job that is there before and after an action. -/
theorem books_section {n : Nat} {old job : Job}
    (hold : (stateAt fold workers retained journal actions n).jobs.find id = some old)
    (hfind : (stateAt fold workers retained journal actions (n + 1)).jobs.find id = some job)
    (h : BooksAt fold workers retained journal actions id n old) :
    BooksAt fold workers retained journal actions id (n + 1) job ∧
      Grows old.result.ledger job.result.ledger := by
  have hsound := sound_at hold
  have hsame : (stateAt fold workers retained journal actions (n + 1)).jobs =
      (stateAt fold workers retained journal actions n).jobs →
      BooksAt fold workers retained journal actions id (n + 1) job ∧
        Grows old.result.ledger job.result.ledger := by
    intro heq
    rw [heq, hold] at hfind
    cases hfind
    exact ⟨h.succ, .refl _⟩
  by_cases hadvance : ∃ input now, actions n = .advance id input now
  · obtain ⟨input, now, ha⟩ := hadvance
    have hnext : stateAt fold workers retained journal actions (n + 1) =
        (stateAt fold workers retained journal actions n).advance id input now := by
      rw [stateAt, State.run, ha]
      rfl
    rw [hnext] at hsame hfind
    unfold State.advance at hsame hfind
    rw [hold] at hsame hfind
    dsimp only at hsame hfind
    cases hp : old.phase with
    | claimed claim =>
      rw [hp] at hsame hfind
      dsimp only at hsame hfind
      by_cases hgo : claim.abort = none ∧ claim.receiptOnly = true
      · rw [if_pos hgo] at hsame
        exact hsame rfl
      rw [if_neg hgo] at hfind
      have hL : ∀ step, input.advance = some step → Unwritten
          (old.opened journal claim input).1.request.maxItemResults input.fault
          (old.opened journal claim input).1.result step.items → ∀ item ∈ step.items,
          ∃ j < n + 1, (stateAt fold workers retained journal actions j).Loses id item
            (actions j) := by
        intro step hstep hun item hm
        refine ⟨n, Nat.lt_succ_self n, ?_⟩
        rw [ha]
        refine .batch hold hp hstep ?_ hm
        rw [journal_at]
        exact hun
      rcases State.settle_eq (stateAt fold workers retained journal actions n) id old claim
        input now with
        ⟨hretry, -, heq⟩ | heq
      · rw [heq, journal_at] at hfind
        rw [journal_at] at hretry
        cases OrdMap.find_set_self.symm.trans hfind
        exact h.again hsound hp now hretry
      · rw [heq, journal_at, (State.resolve_eq _ id _).1] at hfind
        cases OrdMap.find_set_self.symm.trans hfind
        exact h.settled hsound hp now hL
    | _ => rw [hp] at hsame; exact hsame rfl
  by_cases hcollect : ∃ effects fault, actions n = .collect id effects fault
  · obtain ⟨effects, fault, ha⟩ := hcollect
    have hnext : stateAt fold workers retained journal actions (n + 1) =
        (stateAt fold workers retained journal actions n).collect id effects fault := by
      rw [stateAt, State.run, ha]
      rfl
    rw [hnext] at hsame hfind
    cases hp : old.phase with
    | ended t =>
      have hput : (stateAt fold workers retained journal actions n).collect id effects fault =
          (stateAt fold workers retained journal actions n).put id
            (old.gathered t effects fault) := by
        unfold State.collect Job.gathered
        rw [hold]
        dsimp only
        rw [hp]
        cases effects <;> rfl
      rw [hput] at hfind
      cases OrdMap.find_set_self.symm.trans hfind
      refine h.gathered hsound hp effects fault
        (fun item hl => hl.imp fun _ hj => ⟨Nat.lt_succ_of_lt hj.1, hj.2⟩) ?_ ?_
      · rintro late rfl hun item hm
        refine ⟨n, Nat.lt_succ_self n, ?_⟩
        rw [ha]
        exact .late hold hp hun hm
      · rintro late rfl hany
        exact ⟨n, Nat.lt_succ_self n, late, fault, ha, hany⟩
    | _ =>
      unfold State.collect at hsame
      rw [hold] at hsame
      dsimp only at hsame
      rw [hp] at hsame
      exact hsame rfl
  · have hkeep : ∀ {kept : Bool} {mid mid' : Job},
        Turn kept (actions n) id (some mid) (some mid') →
        (Sound mid ∧ BooksAt fold workers retained journal actions id (n + 1) mid ∧
          Grows old.result.ledger mid.result.ledger) →
        Sound mid' ∧ BooksAt fold workers retained journal actions id (n + 1) mid' ∧
          Grows old.result.ledger mid'.result.ledger := by
      rintro kept mid mid' ht ⟨hs, hb, hg⟩
      obtain ⟨hb', hsame'⟩ := ht.books hs (fun input now ha => hadvance ⟨input, now, ha⟩)
        (fun effects fault ha => hcollect ⟨effects, fault, ha⟩) hb
      refine ⟨Sound.turn (Q := fun _ => True) trivial ht (fun _ h => by cases h; exact hs) mid' rfl,
        hb', ?_⟩
      rw [hsame'.ledger]
      exact hg
    have hall := (act_evolves fold (known_at n) (actions n)).keeps hkeep (known_at n id old hold)
      fun last hlast => by
        cases hold.symm.trans hlast
        exact ⟨hsound, h.succ, .refl _⟩
    exact (hall.2 job hfind).2

/-- A job that is there after an action only was submitted by it. -/
theorem books_submitted {n : Nat} {job : Job}
    (hnone : (stateAt fold workers retained journal actions n).jobs.find id = none)
    (hfind : (stateAt fold workers retained journal actions (n + 1)).jobs.find id = some job) :
    BooksAt fold workers retained journal actions id n job := by
  have hplain : (∀ input now, actions n ≠ .advance id input now) ∧
      ∀ effects fault, actions n ≠ .collect id effects fault := by
    refine ⟨fun input now ha => ?_, fun effects fault ha => ?_⟩
    · rw [stateAt, State.run, ha, State.act, State.advance, hnone] at hfind
      cases hnone.symm.trans hfind
    · rw [stateAt, State.run, ha, State.act, State.collect, hnone] at hfind
      cases hnone.symm.trans hfind
  have hall : ∀ o', ReflTransGen (Turn (stateAt fold workers retained journal actions n).journal
      (actions n) id) none o' → ∀ job, o' = some job →
        Sound job ∧ BooksAt fold workers retained journal actions id n job := by
    intro o' h
    induction h with
    | refl => exact fun _ h => by cases h
    | @tail mid o' hrun ht ih =>
      rintro job rfl
      refine ⟨Sound.turn (Q := fun _ => True) trivial ht (fun last hl => (ih last hl).1) job rfl,
        ?_⟩
      cases mid with
      | none => cases ht with | submitted => exact .submitted _ _ _
      | some last =>
        obtain ⟨hs, hb⟩ := ih last rfl
        exact (ht.books hs hplain.1 hplain.2 hb).1
  exact (hall _ (hnone ▸ turns_at fold workers retained journal actions n id) job hfind).2

/-- The record of every job in every run. -/
theorem books_at {n : Nat} {job : Job}
    (hfind : (stateAt fold workers retained journal actions n).jobs.find id = some job) :
    BooksAt fold workers retained journal actions id n job := by
  induction n generalizing job with
  | zero => cases hfind
  | succ n ih =>
    cases hold : (stateAt fold workers retained journal actions n).jobs.find id with
    | none => exact (books_submitted hold hfind).succ
    | some old => exact (books_section hold hfind (ih hold)).1

/-- An identifier that was drawn stays drawn. -/
theorem issued_on {m n : Nat} (hmn : m ≤ n)
    (h : id ∈ (stateAt fold workers retained journal actions m).issued) :
    id ∈ (stateAt fold workers retained journal actions n).issued := by
  induction n, hmn using Nat.le_induction with
  | base => exact h
  | succ n hmn ih =>
    exact ((act_evolves fold (known_at n) (actions n)).keeps (I := fun _ => True)
      (fun _ _ => trivial) ih fun _ _ => trivial).1

/-- A row of a job stays, with its marks. -/
theorem ledger_grows {m n : Nat} (hmn : m ≤ n) {old job : Job}
    (hold : (stateAt fold workers retained journal actions m).jobs.find id = some old)
    (hfind : (stateAt fold workers retained journal actions n).jobs.find id = some job) :
    Grows old.result.ledger job.result.ledger := by
  induction n, hmn using Nat.le_induction generalizing job with
  | base =>
    cases hold.symm.trans hfind
    exact .refl _
  | succ n hmn ih =>
    cases hn : (stateAt fold workers retained journal actions n).jobs.find id with
    | some mid => exact (ih hn).trans (books_section hn hfind (books_at hn)).2
    | none =>
      -- A job that is gone does not come back under its identifier.
      have hid := issued_on hmn (known_at m id old hold)
      exact (((act_evolves fold (known_at n) (actions n)).keeps (I := fun _ => False)
        (fun _ h => h) hid fun last hlast => by cases hn.symm.trans hlast).2 job hfind).elim

/-- In every run: the counters of a job are the histogram of its rows and of the outcomes that its
store did not take, and the rows that are shown are the first ones. If the store did not take some,
the job ends as failed or cancelled. No job ends as completed with a failed item unless the item
arrived after its last step. A row stays, with its item and its marks. -/
theorem job_accounting (fold : Str → Option Str) (workers retained : Nat) (journal : Bool)
    (actions : Nat → Action) (id : JobId) :
    (∀ n job, (stateAt fold workers retained journal actions n).jobs.find id = some job →
      (∃ lost, Accounted job.result lost ∧ (lost ≠ [] → Doomed job) ∧ ∀ item ∈ lost, ∃ j < n,
        (stateAt fold workers retained journal actions j).Loses id item (actions j)) ∧
      (job.state = .completed → job.result.snapshot.failedItems ≠ 0 →
        ∃ j < n, FailsLate id (actions j))) ∧
    ∀ m n old job, m ≤ n →
      (stateAt fold workers retained journal actions m).jobs.find id = some old →
      (stateAt fold workers retained journal actions n).jobs.find id = some job →
        Grows old.result.ledger job.result.ledger := by
  refine ⟨fun n job hfind => ?_, fun m n old job hmn hold hfind => ledger_grows hmn hold hfind⟩
  have h := books_at hfind
  exact ⟨h.accounted, fun hs hne => (h.completed (.inr hs)).resolve_left hne⟩

/-- A job whose store takes no row of a batch. -/
def unwrittenBatch (n : Nat) : Action :=
  [.submit [1] true false {}, .pick 0,
    .advance [1] {
      opened := .ok true
      advance := some { items := [{ item := [2], status := .completed }] }
      fault := fun _ => some ⟨.unavailable, "job-outcome-write-exception", false⟩ } 0].getD n
    .shutdown

/-- Its counters count an outcome that is not in its ledger. -/
theorem unwritten_counted :
    ((stateAt some 1 16 true unwrittenBatch 3).jobs.find [1]).map
      (fun job => (job.result.snapshot.counter .completed, tally job.result.ledger .completed)) =
      some (1, 0) := by
  decide +kernel

end Runs

end Hc.Operations
