import HyperCommander.Operations.Worker

/-!
# Cancellation and the stop source

* `CancelOk`: the stop source of a job that is marked as cancelled has been asked, or its caller is
  still to ask it.
* `cancel_reaches_stop`: this holds in every run in which no prompt is answered with `Cancel`.
* `replied_cancel_lost`: such an answer marks the job and never asks its stop source, since `Cancel`
  finds the job marked already.
-/

namespace Hc.Operations

open List Storage Outcome Relation

/-- The stop source of a job that is marked as cancelled was asked, or is to be asked by a call that
has not returned yet. -/
def CancelOk (s : State) : Prop := ∀ id job, s.jobs.find id = some job →
  job.result.snapshot.cancelRequested = true → job.stopRequested = true ∨ id ∈ s.stops

/-- A section that marks the job as cancelled itself. -/
inductive Marks (a : Action) (id : JobId) : Prop
  | control {ids} (ha : a = .control ids .cancel) (hid : id ∈ ids)
  | cancelReply (ha : a = .cancelReply id)
  | reply {answer now} (ha : a = .reply id answer now) (hc : answer.choice = .cancel)
  | shutdown (ha : a = .shutdown)

/-- A turn marks a job as cancelled only if its stop source was asked, or at a caller's request. -/
structure Cancels (a : Action) (id : JobId) (job job' : Job) : Prop where
  cancelled : job'.result.snapshot.cancelRequested = true →
    job.result.snapshot.cancelRequested = true ∨ job'.stopRequested = true ∨ Marks a id
  stopped : job.stopRequested = true → job'.stopRequested = true

section

variable {journal : Bool} {a : Action} {id : JobId} {job job' : Job}

/-- A turn that only notes that the stop source was asked. -/
theorem Cancels.of_noted (h1 : job'.result.snapshot.cancelRequested = true →
    job.result.snapshot.cancelRequested = true ∨ job.stopRequested = true)
    (h2 : job'.stopRequested = job.stopRequested) : Cancels a id job job' := by
  refine ⟨fun h => ?_, fun h => h2.trans h⟩
  rcases h1 h with h | h
  · exact .inl h
  · exact .inr (.inl (h2.trans h))

theorem Job.notify_cancelled (h : job.notify.result.snapshot.cancelRequested = true) :
    job.result.snapshot.cancelRequested = true ∨ job.stopRequested = true := by
  have h : (job.result.snapshot.cancelRequested || job.stopRequested) = true := h
  simpa using h

theorem Turn.cancels (ht : Turn journal a id (some job) (some job')) : Cancels a id job job' := by
  cases ht with
  | linked => exact .of_noted Job.notify_cancelled rfl
  | @steered _ control ha =>
    obtain ⟨state, pause, c, deferred, adm, heq, -, hc, -⟩ := job.steered_eq control
    rw [heq]
    refine ⟨fun h => ?_, fun h => h⟩
    rcases Job.notify_cancelled h with h | h
    · rcases hc h with h | h | rfl
      · exact .inl h
      · exact .inr (.inl h)
      · rcases ha with ⟨ids, ha, hid⟩ | ⟨ha, -⟩
        · exact .inr (.inr (.control ha hid))
        · exact .inr (.inr (.cancelReply ha))
    · exact .inr (.inl h)
  | @replied _ answer now prompt ha =>
    obtain ⟨c, adm, heq, -, hc, -⟩ := (job.answered answer).moved_eq job.resume
    rw [heq]
    refine ⟨fun h => ?_, fun h => h⟩
    rcases hc h with h | h
    · have h : (job.result.snapshot.cancelRequested || answer.choice == .cancel) = true := h
      rw [Bool.or_eq_true, beq_iff_eq] at h
      rcases h with h | h
      · exact .inl h
      · exact .inr (.inr (.reply ha h))
    · exact .inr (.inl h)
  | foregrounded | reordered => exact .of_noted Job.notify_cancelled rfl
  | shutDown ha => exact ⟨fun _ => .inr (.inr (.shutdown ha)), fun h => h⟩
  | stopped => exact ⟨.inl, fun _ => rfl⟩
  | paused =>
    obtain ⟨c, adm, heq, -, hc, -⟩ := Job.moved_eq { job with resume := job.state } .paused
    rw [heq]
    exact .of_noted hc rfl
  | @taken _ now =>
    obtain ⟨lanes, adm, heq, -⟩ := job.readied_eq (job.abortAt now)
    obtain ⟨state, c, heq', -, -, -, hc⟩ := (job.readied (job.abortAt now)).prepared_eq
    rw [heq] at heq' hc
    rw [heq, heq']
    exact .of_noted hc rfl
  | receiptTaken | receiptFailed | receiptSaved => exact .of_noted .inl rfl
  | @again _ claim input =>
    obtain ⟨opened, result, heq, -, -, hc⟩ := job.advanced_eq journal claim input
    rw [heq]
    refine .of_noted (fun h => ?_) rfl
    rcases Job.notify_cancelled h with h | h
    · exact hc h
    · exact .inr h
  | @settled _ claim input now =>
    obtain ⟨step', attempt, from_, hj, -⟩ :=
      Job.verdict_judged id now (job.advanced journal claim input).1
        (job.advanced journal claim input).2
    obtain ⟨opened, result, heq, -, -, hc⟩ := job.advanced_eq journal claim input
    revert hj
    generalize Job.verdict id now _ _ = v
    intro hj
    rw [heq] at hj
    have hv : v.1.result.snapshot.cancelRequested = result.snapshot.cancelRequested ∧
        v.1.stopRequested = job.stopRequested := by
      cases hj <;> exact ⟨rfl, rfl⟩
    by_cases ht : isTerminal v.2 = true
    · rw [Job.resolved, if_pos ht]
      exact .of_noted (fun h => hc (hv.1.symm.trans h)) hv.2
    · obtain ⟨state, resume, c, adm, hres, -, -, hc', -⟩ :=
        Job.resolved_eq (v := v) (by simpa using ht)
      rw [hres]
      refine .of_noted (fun h => ?_) hv.2
      rcases hc' h with h | h
      · exact hc (hv.1.symm.trans h)
      · exact .inr (hv.2.symm.trans h)
  | @collected _ t effects fault =>
    unfold Job.gathered
    split
    · exact .of_noted .inl rfl
    · exact .of_noted (fun h =>
        .inl ((recordLate_snapshot .cancelRequested _ _ _).symm.trans h)) rfl
  | @finished _ t collected input =>
    obtain ⟨c, adm, heq, -, hc, -⟩ := Job.moved_eq
      { job.cleaned (job.cleanup journal collected input) with lanesHeld := false }
      (if job.cleanup journal collected input = [] then t else .failed)
    unfold Job.finished
    rw [heq]
    exact .of_noted hc rfl

end

section

variable {a : Action} {s s' : State}

/-- What a section leaves marked. -/
theorem CancelOk.turns (hs : CancelOk s) (h : Evolves a s s') {id : JobId} {job : Job}
    (hfind : s'.jobs.find id = some job) (hc : job.result.snapshot.cancelRequested = true) :
    job.stopRequested = true ∨ Marks a id ∨ id ∈ s.stops := by
  have hstart : ∀ job, s.jobs.find id = some job → job.result.snapshot.cancelRequested = true →
      job.stopRequested = true ∨ Marks a id ∨ id ∈ s.stops := fun job hj hc => by
    rcases hs id job hj hc with h | h
    · exact .inl h
    · exact .inr (.inr h)
  have hturns := h.turns id
  revert hstart
  rw [hfind] at hturns
  clear hfind
  generalize s.jobs.find id = o at hturns
  intro hstart
  generalize heq : some job = o' at hturns
  induction hturns generalizing job with
  | refl => exact hstart job heq.symm hc
  | @tail mid o' hrun ht ih =>
    subst heq
    cases mid with
    | none =>
      cases ht
      rcases Job.notify_cancelled hc with h | h
      · cases h
      · exact .inl h
    | some mid =>
      have hcan := ht.cancels
      rcases hcan.cancelled hc with h | h | h
      · have hmid := ih h rfl
        rcases hmid with h | h
        · exact .inl (hcan.stopped h)
        · exact .inr h
      · exact .inl h
      · exact .inr (.inl h)

theorem State.control_stops {ids : List JobId} (h : s.control ids .cancel = .ok s') :
    ids ⊆ s'.stops := by
  simp only [State.control, bind_eq_ok, failIf_eq_ok, pure_eq_ok, if_true] at h
  obtain ⟨-, -, _, -, rfl⟩ := h
  exact fun i hi => mem_append_right _ hi

/-- A batch that is cancelled is in the hands of the caller, who is to ask the stop sources. -/
theorem CancelOk.control {ids : List JobId} {control : JobControl}
    (ha : a = .control ids control ∨ ∃ id, ids = [id] ∧ a = .cancelReply id ∧ control = .cancel)
    (hs : CancelOk s) (h : s.control ids control = .ok s') : CancelOk s' := by
  have hev : Evolves a s s' := State.control_evolves ha h
  intro id job hfind hc
  have hmarked : control = .cancel → id ∈ ids → id ∈ s'.stops := by
    rintro rfl hid
    exact State.control_stops h hid
  rcases hs.turns hev hfind hc with hstop | hm | hid
  · exact .inl hstop
  · refine .inr ?_
    rcases ha with rfl | ⟨i, rfl, rfl, rfl⟩
    · cases hm with
      | control ha hid => cases ha; exact hmarked rfl hid
      | cancelReply ha => cases ha
      | reply ha => cases ha
      | shutdown ha => cases ha
    · cases hm with
      | control ha => cases ha
      | cancelReply ha => cases ha; exact hmarked rfl mem_cons_self
      | reply ha => cases ha
      | shutdown ha => cases ha
  · rcases hev.stops id hid with hstop | hstop
    · exact .inr hstop
    · rcases ha with ha | ⟨i, -, ha, -⟩
      · rw [ha] at hstop
        cases hstop
      · rw [ha] at hstop
        cases hstop

theorem CancelOk.shutdown (hs : CancelOk s) : CancelOk s.shutdown := by
  have hone : ∀ {s : State} (i : JobId), CancelOk s → CancelOk (s.shutdownJob i) := by
    intro s i hs
    unfold State.shutdownJob
    split
    · exact hs
    rename_i old hold
    split
    · exact hs
    intro id job hfind hc
    have hfind : (s.jobs.set i _).find id = some job := hfind
    rw [OrdMap.find_set] at hfind
    split at hfind
    · rename_i hi
      exact .inr (mem_append_right _ (by rw [hi]; exact mem_cons_self))
    · rcases hs id job hfind hc with h | h
      · exact .inl h
      · exact .inr (mem_append_left _ h)
  have hfold : ∀ (ids : List JobId) (s : State), CancelOk s →
      CancelOk (ids.foldl State.shutdownJob s) := by
    intro ids
    induction ids with
    | nil => exact fun _ h => h
    | cons i rest ih => exact fun s h => ih _ (hone i h)
  exact hfold _ _ hs

/-- The stop source is asked. -/
theorem CancelOk.requestStop {id : JobId} (hs : CancelOk s) :
    CancelOk ({ s with stops := s.stops.erase id }.requestStop id) := by
  unfold State.requestStop
  have hother : ∀ i job, i ≠ id → s.jobs.find i = some job →
      job.result.snapshot.cancelRequested = true →
      job.stopRequested = true ∨ i ∈ s.stops.erase id := by
    intro i job hi hfind hc
    rcases hs i job hfind hc with h | h
    · exact .inl h
    · exact .inr ((mem_erase_of_ne hi).mpr h)
  split
  · rename_i hnone
    intro i job hfind hc
    refine hother i job ?_ hfind hc
    rintro rfl
    rw [show s.jobs.find i = some job from hfind] at hnone
    cases hnone
  · intro i job hfind hc
    have hfind : (s.jobs.set id _).find i = some job := hfind
    rw [OrdMap.find_set] at hfind
    split at hfind
    · cases hfind
      exact .inl rfl
    · rename_i hi
      exact hother i job hi hfind hc

end

/-- A reply that is accepted does not answer with `Cancel`. -/
def RepliesGoOn (s : State) (a : Action) : Prop :=
  ∀ id answer now s', a = .reply id answer now → s.reply id answer now = .ok s' →
    answer.choice ≠ .cancel

theorem CancelOk.act {fold : Str → Option Str} {s : State} (hs : CancelOk s) (hk : s.Known)
    {a : Action} (hgo : RepliesGoOn s a) : CancelOk (s.act fold a) := by
  -- What is left marked by a section that marks nothing itself.
  have hplain : (∀ id, ¬ Marks a id) → (∀ i, a ≠ .requestStop i) → CancelOk (s.act fold a) := by
    intro hno hstop id job hfind hc
    rcases hs.turns (act_evolves fold hk a) hfind hc with h | h | h
    · exact .inl h
    · exact absurd h (hno id)
    · rcases (act_evolves fold hk a).stops id h with h | h
      · exact .inr h
      · exact absurd h (hstop id)
  have hnone : (∀ ids, a ≠ .control ids .cancel) → (∀ i, a ≠ .cancelReply i) →
      (∀ i answer now, a ≠ .reply i answer now) → a ≠ .shutdown → ∀ id, ¬ Marks a id := by
    intro h1 h2 h3 h4 id hm
    cases hm with
    | control ha => exact h1 _ ha
    | cancelReply ha => exact h2 _ ha
    | reply ha => exact h3 _ _ _ ha
    | shutdown ha => exact h4 ha
  cases a with
  | control ids control =>
    rw [State.act]
    cases h : s.control ids control with
    | error e => exact hs
    | ok s' => exact hs.control (.inl rfl) h
  | cancelReply id =>
    rw [State.act]
    split
    · have hs' : CancelOk { s with cancels := s.cancels.erase id } := hs
      dsimp only
      cases h : State.control { s with cancels := s.cancels.erase id } [id] .cancel with
      | error e => exact hs
      | ok s' => exact hs'.control (.inr ⟨id, rfl, rfl, rfl⟩) h
    · exact hs
  | reply id answer now =>
    cases h : s.reply id answer now with
    | error e =>
      rw [State.act, h]
      exact hs
    | ok s' =>
      have hch := hgo id answer now s' rfl h
      refine hplain (fun i hm => ?_) fun i h => by cases h
      cases hm with
      | control ha => cases ha
      | cancelReply ha => cases ha
      | reply ha hc => cases ha; exact hch hc
      | shutdown ha => cases ha
  | shutdown => exact hs.shutdown
  | requestStop id =>
    rw [State.act]
    split
    · exact hs.requestStop
    · exact hs
  | _ =>
    refine hplain (hnone ?_ ?_ ?_ ?_) ?_
    all_goals
      intros
      intro h
      cases h

/-- In every run in which no accepted reply answers a prompt with `Cancel`, the stop source of every
job that is marked as cancelled was asked, or is to be asked by a call that has not returned. -/
theorem cancel_reaches_stop (fold : Str → Option Str) {s : State}
    (h : Reaches fold RepliesGoOn s) : CancelOk s := by
  induction h with
  | start => exact fun id job hjob => by cases hjob
  | act h hp ih => exact ih.act h.known hp

/-- A job that was cancelled, with the call returned. -/
def controlledCancel : State :=
  [Action.submit [1] true false {}, .control [[1]] .cancel, .requestStop [1]].foldl (State.act some)
    (.new 1 16 false)

theorem controlledCancel_reaches : Reaches some RepliesGoOn controlledCancel :=
  .run (.start 1 16 false) (by
    intro a ha s id answer now s' h
    subst h
    simp at ha)

theorem cancel_reaches_stop_controlled : controlledCancel.stops = [] ∧
    ∀ job, controlledCancel.jobs.find [1] = some job →
      job.result.snapshot.cancelRequested = true → job.stopRequested = true := by
  have hnil : controlledCancel.stops = [] := by decide +kernel
  refine ⟨hnil, fun job hfind hc => ?_⟩
  rcases cancel_reaches_stop some controlledCancel_reaches [1] job hfind hc with h | h
  · exact h
  · rw [hnil] at h
    cases h

/-- A step that puts a prompt with the choice to cancel. -/
def cancelStep : JobStep where
  next := .waitingForUser
  interaction := some { reason := "exists", choices := [.replace, .cancel] }

/-- A job that waits for an answer. -/
def waitingRun : State :=
  [Action.submit [1] true false {}, .pick 0, .advance [1] { advance := some cancelStep } 0].foldl
    (State.act some) (.new 1 16 false)

/-- `Cancel` in answer to a prompt, up to the return of `Reply`. -/
def repliedCancel : State :=
  [Action.reply [1] { requestId := [1] ++ [colon] ++ toString_ 1, choice := .cancel } 0,
    .cancelReply [1]].foldl (State.act some) waitingRun

/-- The job is marked as cancelled, nobody is left to ask its stop source, and it was never asked; a
cancellation by `Control` does ask it. -/
theorem replied_cancel_lost : Reaches some (fun _ _ => True) repliedCancel ∧
    repliedCancel.stops = [] ∧ repliedCancel.cancels = [] ∧
    (repliedCancel.jobs.find [1]).map (fun job =>
      (job.result.snapshot.cancelRequested, job.stopRequested, job.commitEntered)) =
        some (true, false, false) ∧
    (([Action.control [[1]] .cancel, .requestStop [1]].foldl (State.act some)
      waitingRun).jobs.find [1]).map (fun job =>
      (job.result.snapshot.cancelRequested, job.stopRequested)) = some (true, true) :=
  ⟨.run (.run (.start 1 16 false) fun _ _ _ => trivial) fun _ _ _ => trivial, by decide +kernel,
    by decide +kernel, by decide +kernel, by decide +kernel⟩

end Hc.Operations
