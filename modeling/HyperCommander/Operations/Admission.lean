import HyperCommander.Operations.Worker

/-!
# Admissions

* `Evolves.counted`: what a section does to the number of admitted background jobs it does to the
  counter.
* `admission`: in every state of every run the counter is that number, and it is within the limit
  after a section that admits a background job.
-/

namespace Hc.Operations

open Storage Outcome Relation

/-- The number of admitted background jobs. -/
def State.background (s : State) : Nat :=
  s.jobs.entries.countP fun e => e.2.admitted ∧ e.2.result.snapshot.foreground = false

/-- The counter is right. -/
structure Counted (s : State) : Prop where
  sound : ∀ id job, s.jobs.find id = some job → Sound job
  admitted : s.admitted = s.background

section

variable {a : Action} {id : JobId} {o o' : Option Job} {s s' : State}

theorem State.background_of_find (h : s.jobs.find id = o) : s.background =
    (s.jobs.erase id).entries.countP (fun e => e.2.admitted ∧
      e.2.result.snapshot.foreground = false) +
      weight o := by
  cases o with
  | none =>
    rw [OrdMap.erase_of_find_eq_none h]
    rfl
  | some job =>
    rw [State.background, OrdMap.countP_of_find _ h]
    simp [weight, Job.weight]

theorem State.background_put (h : s'.jobs = s.jobs.put id o') : s'.background =
    (s.jobs.erase id).entries.countP (fun e => e.2.admitted ∧
      e.2.result.snapshot.foreground = false) +
      weight o' := by
  rw [State.background, h]
  cases o' with
  | none => rfl
  | some job =>
    rw [OrdMap.put, OrdMap.countP_set]
    simp [weight, Job.weight]

/-- A job that was forgotten weighed nothing. -/
theorem Turn.weight_forgotten {journal : Bool} (h : Turn journal a id o none)
    (hs : ∀ job, o = some job → Sound job) : weight o = 0 := by
  cases h with
  | forgotten ha ht => rw [weight, Job.weight, (hs _ rfl).unadmitted ht]; rfl

theorem Moves.counted (h : Moves a id o o' s s') (hs : Counted s) : Counted s' := by
  have hsound : ∀ job, o = some job → Sound job := fun job hj => hs.sound id job (h.find.trans hj)
  refine ⟨fun i job hjob => ?_, ?_⟩
  · rw [h.jobs, OrdMap.find_put] at hjob
    split at hjob
    · exact Sound.turn (Q := fun _ => True) trivial h.turn hsound job hjob
    · exact hs.sound i job hjob
  · have h1 := State.background_of_find h.find
    have h2 := State.background_put h.jobs
    have hadm := hs.admitted
    cases ho : o' with
    | none =>
      have hturn := h.turn
      rw [ho] at hturn
      have hz := hturn.weight_forgotten hsound
      rw [h.forgotten ho]
      rw [ho] at h2
      rw [hz] at h1
      rw [hadm, h1, h2, weight]
    | some job =>
      have := h.admitted (by rw [ho]; rfl) (by omega)
      omega

theorem Evolves.counted (h : Evolves a s s') (hs : Counted s) : Counted s' := by
  induction h with
  | refl => exact hs
  | tail _ hgo ih =>
    cases hgo with
    | still h =>
      refine ⟨by rw [h.jobs]; exact ih.sound, ?_⟩
      rw [h.admitted, ih.admitted, State.background, State.background, h.jobs]
    | moves h => exact h.counted ih

/-- The limit of background jobs is set without a turn of any job. -/
theorem Turn.not_limit {journal : Bool} {n : Nat} :
    ¬ Turn journal (.setConcurrencyLimit n) id o o' := by
  intro h
  cases h with
  | submitted ha => cases ha
  | linked ha => cases ha
  | forgotten ha => cases ha
  | steered ha => rcases ha with ⟨ids, ha, -⟩ | ⟨ha, -⟩ <;> cases ha
  | replied ha => cases ha
  | foregrounded ha => cases ha
  | reordered ha => cases ha
  | shutDown ha => cases ha
  | stopped ha => rcases ha with ha | ha <;> cases ha
  | paused ha => cases ha
  | taken ha => cases ha
  | receiptTaken ha => cases ha
  | receiptFailed ha => cases ha
  | receiptSaved ha => cases ha
  | again ha => cases ha
  | settled ha => cases ha
  | collected ha => cases ha
  | finished ha => cases ha

theorem Evolves.jobs_of_limit {n : Nat} (h : Evolves (.setConcurrencyLimit n) s s') :
    s'.jobs = s.jobs := by
  induction h with
  | refl => rfl
  | tail _ hgo ih =>
    cases hgo with
    | still h => exact h.jobs.trans ih
    | moves h => exact absurd h.turn Turn.not_limit

/-- A section that admits a background job leaves the counter within the limit. -/
theorem Evolves.limited (h : Evolves a s s') (hs : Counted s)
    (hw : weight (s.jobs.find id) < weight (s'.jobs.find id)) :
    s'.admitted ≤ s'.concurrencyLimit := by
  have ha : ∀ n, a ≠ .setConcurrencyLimit n := by
    rintro n rfl
    rw [h.jobs_of_limit] at hw
    exact absurd hw (Nat.lt_irrefl _)
  induction h with
  | refl => exact absurd hw (Nat.lt_irrefl _)
  | @tail s₁ s₂ hrun hgo ih =>
    have hs₁ := Evolves.counted hrun hs
    cases hgo with
    | still h =>
      rw [h.jobs] at hw
      rw [h.admitted, h.limit ha]
      exact ih hw
    | @moves i o o' h =>
      have hle : weight (s₁.jobs.find i) ≤ s₁.admitted := by
        have := @State.background_of_find i _ s₁ rfl
        rw [hs₁.admitted, this]
        omega
      rw [h.find] at hle
      rw [h.limit]
      by_cases hnew : weight o < weight o'
      · have hsome : o'.isSome = true := by
          cases o' with
          | none => exact absurd hnew (Nat.not_lt_zero _)
          | some job => rfl
        have h1 := h.admitted hsome hle
        have h2 := h.limited hnew
        have h3 : weight o' ≤ 1 := by
          cases o' with
          | none => exact Nat.zero_le _
          | some job =>
            rw [weight, Job.weight]
            split <;> omega
        omega
      · -- A turn that admits no job leaves the counter no higher.
        have hold : weight (s.jobs.find id) < weight (s₁.jobs.find id) := by
          rw [h.jobs, OrdMap.find_put] at hw
          split at hw
          · rename_i hi
            rw [hi, h.find]
            rw [hi] at hw
            omega
          · exact hw
        have hbound := ih hold
        cases ho : o' with
        | none =>
          rw [h.forgotten ho]
          exact hbound
        | some job =>
          have := h.admitted (by rw [ho]; rfl) hle
          omega

end

theorem Reaches.counted {fold : Str → Option Str} {P : State → Action → Prop} {s : State}
    (h : Reaches fold P s) : Counted s := by
  induction h with
  | start => exact ⟨(fun id job hjob => by cases hjob), rfl⟩
  | act h hp ih => exact (act_evolves fold h.known _).counted ih

/-- In every state of every run `admitted` is the number of admitted background jobs, it is not
below what any job gives back, and it is within the limit after each section by which a job becomes
an admitted background job. -/
theorem admission (fold : Str → Option Str) {s : State} (h : Reaches fold (fun _ _ => True) s) :
    s.admitted = s.background ∧ (∀ id job, s.jobs.find id = some job → job.weight ≤ s.admitted) ∧
      ∀ a id, weight (s.jobs.find id) < weight ((s.act fold a).jobs.find id) →
        (s.act fold a).admitted ≤ (s.act fold a).concurrencyLimit := by
  have hc := h.counted
  refine ⟨hc.admitted, fun id job hfind => ?_,
    fun a id hw => (act_evolves fold h.known a).limited hc hw⟩
  rw [hc.admitted, State.background_of_find hfind]
  exact Nat.le_add_left _ _

/-- Two background jobs run, the limit is lowered to one, and a foreground job waits. -/
def loweredLimit : State :=
  [Action.submit [1] true false {}, .submit [2] true false {}, .pick 0, .pick 0,
    .setConcurrencyLimit 1, .submit [3] true false { foreground := true }].foldl (State.act some)
    (.new 3 16 false)

theorem loweredLimit_reaches : Reaches some (fun _ _ => True) loweredLimit :=
  .run (.start 3 16 false) fun _ _ _ => trivial

/-- The foreground job is admitted while the background jobs are still above the limit. -/
theorem admission_above_limit : Reaches some (fun _ _ => True) loweredLimit ∧
    (loweredLimit.jobs.find [3]).map (·.admitted) = some false ∧
    ((loweredLimit.act some (.pick 0)).jobs.find [3]).map (·.admitted) = some true ∧
    (loweredLimit.act some (.pick 0)).concurrencyLimit <
      (loweredLimit.act some (.pick 0)).admitted :=
  ⟨loweredLimit_reaches, by decide +kernel, by decide +kernel, by decide +kernel⟩

/-- The counter in that state. -/
theorem admission_lowered : loweredLimit.admitted = loweredLimit.background ∧
    loweredLimit.background = 2 :=
  ⟨(admission some loweredLimit_reaches).1, by decide +kernel⟩

end Hc.Operations
