import HyperCommander.Operations.Scheduler

/-!
# What the sections of the scheduler do

* `JobOk`: what holds of every job between two sections.
* `Change`: a section adds or forgets a job, takes or gives back the lanes of one, or leaves lanes
  and their holders alone.
* `act_changes`: every action is a sequence of changes that end no job, or one that ends a job.
* `Reaches`: the states in the runs of a new scheduler.
* `Reaches.jobsOk`: the invariant of the jobs in every run.
-/

namespace Hc.Operations

open Storage Outcome

/-! ## One job -/

/-- What holds of a job between two sections. -/
structure JobOk (job : Job) : Prop where
  lanes : job.request.resourceLanes.Nodup
  resume : isTerminal job.resume = false
  held : job.lanesHeld = true → isTerminal job.state = false
  busy : job.phase ≠ .idle → isTerminal job.state = false
  ended : ∀ t, job.phase = .ended t → isTerminal t = true
  collected : ∀ t cleanup, job.phase = .collected t cleanup → isTerminal t = true

/-- The job goes on: it keeps its lanes and does not become terminal. -/
structure Quiet (job job' : Job) : Prop where
  lanes : job'.request.resourceLanes = job.request.resourceLanes
  held : job'.lanesHeld = job.lanesHeld
  terminal : isTerminal job'.state = isTerminal job.state
  ok : JobOk job → JobOk job'

theorem Quiet.refl (job : Job) : Quiet job job := ⟨rfl, rfl, rfl, id⟩

theorem Quiet.trans {a b c : Job} (h : Quiet a b) (h' : Quiet b c) : Quiet a c :=
  ⟨h'.lanes.trans h.lanes, h'.held.trans h.held, h'.terminal.trans h.terminal, h'.ok ∘ h.ok⟩

variable {job job' : Job} {s s' : State}

/-- A job that differs in nothing the invariant looks at. -/
theorem Quiet.of_eq (h1 : job'.request.resourceLanes = job.request.resourceLanes)
    (h2 : job'.lanesHeld = job.lanesHeld) (h3 : job'.state = job.state)
    (h4 : job'.resume = job.resume) (h5 : job'.phase = job.phase) : Quiet job job' where
  lanes := h1
  held := h2
  terminal := by rw [h3]
  ok h := by
    refine ⟨?_, ?_, ?_, ?_, ?_, ?_⟩
    · rw [h1]; exact h.lanes
    · rw [h4]; exact h.resume
    · rw [h2, h3]; exact h.held
    · rw [h3, h5]; exact h.busy
    · rw [h5]; exact h.ended
    · rw [h5]; exact h.collected

@[simp] theorem Job.notify_state (job : Job) : job.notify.state = job.state := rfl

theorem Quiet.notify (job : Job) : Quiet job job.notify := .of_eq rfl rfl rfl rfl rfl

/-- The job goes back to wait for a worker. -/
theorem Quiet.of_idle (h1 : job'.request.resourceLanes = job.request.resourceLanes)
    (h2 : job'.lanesHeld = job.lanesHeld) (h3 : job'.state = job.state)
    (h4 : job'.resume = job.resume) (h5 : job'.phase = .idle) : Quiet job job' where
  lanes := h1
  held := h2
  terminal := by rw [h3]
  ok h := by
    refine ⟨?_, ?_, ?_, fun hp => absurd h5 hp, fun _ hp => ?_, fun _ _ hp => ?_⟩
    · rw [h1]; exact h.lanes
    · rw [h4]; exact h.resume
    · rw [h2, h3]; exact h.held
    · rw [h5] at hp; cases hp
    · rw [h5] at hp; cases hp

/-- A worker that has a claim changes what it has of it. -/
theorem Quiet.claimed {claim claim' : Claim} (hp : job.phase = .claimed claim) :
    Quiet job { job with phase := .claimed claim' } where
  lanes := rfl
  held := rfl
  terminal := rfl
  ok h := ⟨h.lanes, h.resume, h.held, fun _ => h.busy (by rw [hp]; simp), (fun _ h => by cases h),
    (fun _ _ h => by cases h)⟩

/-- A job that still runs is taken by a worker. -/
theorem Quiet.taken {job : Job} {abort : Option Error} (hlive : isTerminal job.state = false) :
    Quiet job (job.taken abort) where
  lanes := rfl
  held := rfl
  terminal := rfl
  ok h := ⟨h.lanes, h.resume, h.held, fun _ => hlive, (fun _ h => by cases h),
    (fun _ _ h => by cases h)⟩

/-! ## Changes -/

/-- Nothing about lanes or the identifiers in use. -/
structure Frame (s s' : State) : Prop where
  occupied : s'.occupied = s.occupied
  laneLimits : s'.laneLimits = s.laneLimits
  issued : s'.issued = s.issued

/-- What one section does to the jobs and the lanes; a job ends, or not. -/
inductive Change (s s' : State) : (ends : Bool) → Prop
  | none (hf : Frame s s') (hj : s'.jobs = s.jobs) : Change s s' false
  | update {id job job'} (hf : Frame s s') (hfind : s.jobs.find id = some job)
    (hq : Quiet job job') (hj : s'.jobs = s.jobs.set id job') : Change s s' false
  | add {id job} (hocc : s'.occupied = s.occupied) (hlim : s'.laneLimits = s.laneLimits)
    (hiss : s'.issued = id :: s.issued) (hnew : id ∉ s.issued) (hok : JobOk job)
    (hfree : job.lanesHeld = false) (hj : s'.jobs = s.jobs.set id job) : Change s s' false
  | drop {id job} (hf : Frame s s') (hfind : s.jobs.find id = some job)
    (ht : isTerminal job.state = true) (hj : s'.jobs = s.jobs.erase id) : Change s s' true
  | acquire {id job job'} (hlim : s'.laneLimits = s.laneLimits) (hiss : s'.issued = s.issued)
    (hfind : s.jobs.find id = some job) (hheld : job.lanesHeld = false)
    (hfree : job.request.resourceLanes.all s.laneFree = true)
    (hocc : s'.occupied = job.request.resourceLanes.foldl State.occupy s.occupied)
    (hq : Quiet { job with lanesHeld := true } job') (hlive : isTerminal job.state = false)
    (hj : s'.jobs = s.jobs.set id job') : Change s s' false
  | release {id job job'} (hlim : s'.laneLimits = s.laneLimits) (hiss : s'.issued = s.issued)
    (hfind : s.jobs.find id = some job) (hheld : job.lanesHeld = true)
    (hocc : s'.occupied = job.request.resourceLanes.foldl State.vacate s.occupied)
    (hlanes : job'.request.resourceLanes = job.request.resourceLanes)
    (hfree : job'.lanesHeld = false) (hend : isTerminal job'.state = true) (hok : JobOk job')
    (hj : s'.jobs = s.jobs.set id job') : Change s s' true
  | close {id job job'} (hf : Frame s s') (hfind : s.jobs.find id = some job)
    (hheld : job.lanesHeld = false) (hlive : isTerminal job.state = false)
    (hlanes : job'.request.resourceLanes = job.request.resourceLanes)
    (hfree : job'.lanesHeld = false) (hend : isTerminal job'.state = true) (hok : JobOk job')
    (hj : s'.jobs = s.jobs.set id job') : Change s s' true
  | limit {lane n} (hocc : s'.occupied = s.occupied) (hiss : s'.issued = s.issued)
    (hpos : 0 < n) (hpath : isPathLane lane = true → n = 1)
    (hfit : (s.occupied.find lane).getD 0 ≤ n)
    (hj : s'.jobs = s.jobs) (hlim : s'.laneLimits = s.laneLimits.set lane n) : Change s s' false

/-- The invariant of all jobs. -/
def JobsOk (s : State) : Prop := ∀ id job, s.jobs.find id = some job → JobOk job ∧ id ∈ s.issued

theorem JobsOk.change {ends : Bool} (h : JobsOk s) (hc : Change s s' ends) :
    JobsOk s' := by
  intro id job hjob
  cases hc with
  | none hf hj =>
    rw [hj] at hjob
    rw [hf.issued]
    exact h id job hjob
  | @update i a b hf hfind hq hj =>
    rw [hj, OrdMap.find_set] at hjob
    rw [hf.issued]
    split at hjob
    · cases hjob
      subst i
      exact ⟨hq.ok (h _ _ hfind).1, (h _ _ hfind).2⟩
    · exact h id job hjob
  | @add i a hocc hlim hiss hnew hok hfree hj =>
    rw [hj, OrdMap.find_set] at hjob
    rw [hiss, List.mem_cons]
    split at hjob
    · cases hjob
      exact ⟨hok, .inl ‹_›⟩
    · exact ⟨(h id job hjob).1, .inr (h id job hjob).2⟩
  | @drop i a hf hfind ht hj =>
    rw [hj, OrdMap.find_erase] at hjob
    rw [hf.issued]
    split at hjob
    · cases hjob
    · exact h id job hjob
  | @acquire i a b hlim hiss hfind hheld hfree hocc hq hlive hj =>
    rw [hj, OrdMap.find_set] at hjob
    rw [hiss]
    split at hjob
    · cases hjob
      subst i
      obtain ⟨hok, hid⟩ := h _ _ hfind
      exact ⟨hq.ok ⟨hok.lanes, hok.resume, fun _ => hlive, hok.busy, hok.ended, hok.collected⟩, hid⟩
    · exact h id job hjob
  | @release i a b hlim hiss hfind hheld hocc hlanes hfree hend hok hj =>
    rw [hj, OrdMap.find_set] at hjob
    rw [hiss]
    split at hjob
    · cases hjob
      subst i
      exact ⟨hok, (h _ _ hfind).2⟩
    · exact h id job hjob
  | @close i a b hf hfind hheld hlive hlanes hfree hend hok hj =>
    rw [hj, OrdMap.find_set] at hjob
    rw [hf.issued]
    split at hjob
    · cases hjob
      subst i
      exact ⟨hok, (h _ _ hfind).2⟩
    · exact h id job hjob
  | limit hocc hiss hpos hpath hfit hj hlim =>
    rw [hj] at hjob
    rw [hiss]
    exact h id job hjob

/-- A change that ends no job. -/
def Going (s s' : State) : Prop := Change s s' false

/-- A section that ends no job, as long as the jobs are as they should be. -/
def Changes (s s' : State) : Prop := JobsOk s → Relation.ReflTransGen Going s s'

theorem Changes.refl (s : State) : Changes s s := fun _ => .refl

theorem Changes.single (h : JobsOk s → Change s s' false) : Changes s s' :=
  fun hs => .single (h hs)

theorem JobsOk.changes (h : JobsOk s) (hc : Relation.ReflTransGen Going s s') :
    JobsOk s' := by
  induction hc with
  | refl => exact h
  | tail _ hc ih => exact ih.change hc

theorem Changes.trans {a b c : State} (h : Changes a b) (h' : Changes b c) : Changes a c :=
  fun ha => (h ha).trans (h' (ha.changes (h ha)))

theorem Changes.of_frame (hf : Frame s s') (hj : s'.jobs = s.jobs) :
    Changes s s' := .single fun _ => .none hf hj

theorem Changes.update {s s' : State} {id : JobId} {job job' : Job} (hf : Frame s s')
    (hfind : s.jobs.find id = some job) (hj : s'.jobs = s.jobs.set id job')
    (hq : JobOk job → Quiet job job') : Changes s s' :=
  .single fun hs => .update hf hfind (hq (hs _ _ hfind).1) hj

/-- A loop over jobs, each of which is a sequence of changes. -/
theorem Changes.foldl {f : State → JobId → State} (hf : ∀ s id, Changes s (f s id))
    (ids : List JobId) (s : State) : Changes s (ids.foldl f s) := by
  induction ids generalizing s with
  | nil => exact .refl s
  | cons id rest ih => exact (hf s id).trans (ih _)

/-! ## Recording keeps the state of the job -/

/-- Something that recording leaves alone in a snapshot. -/
structure Unrecorded {α : Type} (g : JobSnapshot → α) : Prop where
  count : ∀ f s status, g (s.count f status) = g s
  progress : ∀ s p, g { s with progress := p } = g s

theorem Unrecorded.state : Unrecorded JobSnapshot.state :=
  ⟨fun _ _ status => by cases status <;> rfl, fun _ _ => rfl⟩

theorem Unrecorded.deferred : Unrecorded JobSnapshot.deferred :=
  ⟨fun _ _ status => by cases status <;> rfl, fun _ _ => rfl⟩

theorem Unrecorded.interaction : Unrecorded JobSnapshot.interaction :=
  ⟨fun _ _ status => by cases status <;> rfl, fun _ _ => rfl⟩

theorem Unrecorded.foreground : Unrecorded JobSnapshot.foreground :=
  ⟨fun _ _ status => by cases status <;> rfl, fun _ _ => rfl⟩

theorem Unrecorded.cancelRequested : Unrecorded JobSnapshot.cancelRequested :=
  ⟨fun _ _ status => by cases status <;> rfl, fun _ _ => rfl⟩

theorem Unrecorded.metadata : Unrecorded JobSnapshot.metadata :=
  ⟨fun _ _ status => by cases status <;> rfl, fun _ _ => rfl⟩

theorem Unrecorded.retriedAs : Unrecorded JobSnapshot.retriedAs :=
  ⟨fun _ _ status => by cases status <;> rfl, fun _ _ => rfl⟩

theorem showItem_snapshot (result : JobResult) (item : ItemOutcome) :
    (showItem result item).snapshot = result.snapshot := by
  unfold showItem
  split <;> rfl

theorem storeBatch_snapshot (limit : Nat) (fault : Nat → Option Error) (result : JobResult)
    (step : JobStep) : (storeBatch limit fault result step).1.snapshot = result.snapshot := by
  unfold storeBatch
  split <;> rfl

theorem storeItem_snapshot (limit : Nat) (fault : Nat → Option Error) (result : JobResult)
    (step : JobStep) : (storeItem limit fault result step).1.snapshot = result.snapshot := by
  unfold storeItem
  split
  · rfl
  split
  · rfl
  split
  · rfl
  split
  · split
    · rfl
    · split
      · split <;> rfl
      · rfl
  · rfl
  · split
    · rfl
    · split <;> rfl

section Unrecorded

variable {α : Type} {g : JobSnapshot → α}

theorem accountItem_snapshot (hg : Unrecorded g) (limit : Nat) (previous : Option ItemOutcome)
    (result : JobResult) (step : JobStep) (item : ItemOutcome) :
    g (accountItem limit previous result step item).1.snapshot = g result.snapshot := by
  unfold accountItem
  split
  · rfl
  split
  · split
    · exact (hg.count _ _ _).trans (hg.count _ _ _)
    · rfl
  · rw [showItem_snapshot]
    exact hg.count _ _ _

theorem accountAll_snapshot (hg : Unrecorded g) (limit : Nat) (previous : Option ItemOutcome)
    (result : JobResult) (step : JobStep) (items : List ItemOutcome) :
    g (accountAll limit previous result step items).1.snapshot = g result.snapshot := by
  induction items generalizing result step with
  | nil => rfl
  | cons item rest ih =>
    rw [accountAll, ih]
    exact accountItem_snapshot hg _ _ _ _ _

theorem record_snapshot (hg : Unrecorded g) (limit : Nat) (fault : Nat → Option Error)
    (result : JobResult) (step : JobStep) :
    g (record limit fault result step).1.snapshot = g result.snapshot := by
  rw [record]
  rw [accountAll_snapshot hg]
  split
  · rw [storeItem_snapshot, storeBatch_snapshot]
  · rw [hg.progress, storeItem_snapshot, storeBatch_snapshot]

theorem recordLate_snapshot (hg : Unrecorded g) (fault : Nat → Option Error) (result : JobResult)
    (effects : CompletedEffects) :
    g (recordLate fault result effects).1.snapshot = g result.snapshot := by
  have hfold : ∀ (items : List ItemOutcome) (result : JobResult),
      g (items.foldl (fun result item => showItem { result with
        snapshot := result.snapshot.count (· + 1) item.status } item) result).snapshot =
        g result.snapshot := by
    intro items
    induction items with
    | nil => exact fun _ => rfl
    | cons item rest ih =>
      intro result
      rw [List.foldl_cons, ih, showItem_snapshot]
      exact hg.count _ _ _
  rw [recordLate]
  rw [hfold]
  split
  · rfl
  · exact hg.progress _ _

end Unrecorded

/-! ## Sections of callers -/

namespace State

variable {job : Job} {s s' : State} {id : JobId} {request : JobRequest}

theorem transition_spec (s : State) (id : JobId) {next : JobState}
    (hn : isTerminal next = isTerminal job.state) :
    Frame s (s.transition id job next).1 ∧ (s.transition id job next).1.jobs = s.jobs ∧
      Quiet job (s.transition id job next).2 := by
  unfold transition
  split
  · exact ⟨⟨rfl, rfl, rfl⟩, rfl, .refl job⟩
  · refine ⟨⟨rfl, rfl, rfl⟩, rfl, rfl, rfl, hn, fun h => ?_⟩
    exact ⟨h.lanes, h.resume, fun hh => hn.trans (h.held hh), fun hp => hn.trans (h.busy hp),
      h.ended, h.collected⟩

theorem put_frame (s : State) (id : JobId) (job : Job) : Frame s (s.put id job) :=
  ⟨rfl, rfl, rfl⟩

/-- A job that moves on by itself. -/
theorem put_changes {job' : Job} (hfind : s.jobs.find id = some job)
    (hq : JobOk job → Quiet job job') : Changes s (s.put id job') :=
  .update (put_frame s id job') hfind rfl hq

theorem steer_spec (s : State) (id : JobId) (control : JobControl) (hok : JobOk job) :
    Frame s (s.steer id job control).1 ∧ (s.steer id job control).1.jobs = s.jobs ∧
      Quiet job (s.steer id job control).2 := by
  have hsame : ∀ job' : Job, Quiet job job' → Frame s s ∧ s.jobs = s.jobs ∧ Quiet job job' :=
    fun job' hq => ⟨⟨rfl, rfl, rfl⟩, rfl, hq⟩
  cases control with
  | start | pause | cancel => exact hsame _ (.of_eq rfl rfl rfl rfl rfl)
  | resume =>
    have hq : Quiet job (job.withSnapshot fun p => { p with pauseRequested := false }) :=
      .of_eq rfl rfl rfl rfl rfl
    unfold steer
    simp only
    split
    · rename_i hp
      have hn : isTerminal job.resume = isTerminal (job.withSnapshot fun p =>
          { p with pauseRequested := false }).state := by
        rw [hp, hok.resume]; rfl
      obtain ⟨h1, h2, h3⟩ := s.transition_spec id hn
      exact ⟨h1, h2, hq.trans h3⟩
    · exact hsame _ hq

theorem controlJob_changes (control : JobControl) (s : State) (id : JobId) :
    Changes s (controlJob control s id) := by
  unfold controlJob
  split
  · exact .refl s
  · rename_i job hfind
    intro hs
    obtain ⟨hf, hj, hq⟩ := s.steer_spec id control (hs _ _ hfind).1
    exact .single (.update ⟨hf.occupied, hf.laneLimits, hf.issued⟩ hfind (hq.trans (.notify _))
      (by rw [put, hj]))

theorem control_changes {ids : List JobId} {control : JobControl}
    (h : s.control ids control = .ok s') : Changes s s' := by
  simp only [State.control, bind_eq_ok, failIf_eq_ok, pure_eq_ok] at h
  obtain ⟨-, -, -, -, rfl⟩ := h
  refine (Changes.foldl (controlJob_changes control) ids s).trans ?_
  split
  · exact .of_frame ⟨rfl, rfl, rfl⟩ rfl
  · exact .refl _

theorem linkRetry_changes (h : s.linkRetry id request = .ok s') : Changes s s' := by
  unfold linkRetry at h
  split at h
  · obtain rfl := pure_eq_ok.mp h
    exact .refl s
  split at h
  · cases h
  · rename_i parent hfind
    simp only [bind_eq_ok, failIf_eq_ok, pure_eq_ok] at h
    obtain ⟨-, -, rfl⟩ := h
    exact put_changes hfind fun _ => .of_eq rfl rfl rfl rfl rfl

theorem linkRetry_frame (h : s.linkRetry id request = .ok s') : Frame s s' := by
  unfold linkRetry at h
  split at h
  · obtain rfl := pure_eq_ok.mp h
    exact ⟨rfl, rfl, rfl⟩
  split at h
  · cases h
  · simp only [bind_eq_ok, failIf_eq_ok, pure_eq_ok] at h
    obtain ⟨-, -, rfl⟩ := h
    exact ⟨rfl, rfl, rfl⟩

theorem submit_changes {fold : Str → Option Str} {hasTask stopped : Bool} (hnew : id ∉ s.issued)
    (h : s.submit fold id hasTask stopped request = .ok s') : Changes s s' := by
  simp only [submit, bind_eq_ok, failIf_eq_ok, pure_eq_ok] at h
  obtain ⟨-, -, -, -, lanes, -, -, -, -, -, s₁, hlink, rfl⟩ := h
  have hframe := linkRetry_frame hlink
  refine (linkRetry_changes hlink).trans (.single fun _ => ?_)
  refine .add rfl rfl rfl (by rw [hframe.issued]; exact hnew) ?_ rfl rfl
  refine ⟨List.nodup_dedup _, rfl, fun h => ?_, fun h => absurd rfl h, (fun _ h => ?_),
    (fun _ _ h => ?_)⟩ <;> cases h

theorem reply_changes {answer : InteractionAnswer} {now : Nat}
    (h : s.reply id answer now = .ok s') : Changes s s' := by
  unfold reply at h
  split at h
  · cases h
  rename_i job hfind
  split at h
  · cases h
  simp only [bind_eq_ok, failIf_eq_ok, pure_eq_ok] at h
  obtain ⟨-, hno, -, -, rfl⟩ := h
  intro hs
  have hok := (hs _ _ hfind).1
  have hwait : job.state = .waitingForUser := by
    by_contra hne
    exact hno (.inl hne)
  have hq : Quiet job (job.answered answer) := .of_eq rfl rfl rfl rfl rfl
  have hn : isTerminal job.resume = isTerminal (job.answered answer).state := by
    rw [hq.terminal, hwait, hok.resume]; rfl
  obtain ⟨hf, hj, hq'⟩ := s.transition_spec id hn
  exact .single (.update ⟨hf.occupied, hf.laneLimits, hf.issued⟩ hfind (hq.trans hq')
    (by simp only [put, hj]))

theorem forget_change (h : s.forget id = .ok s') :
    Change s s' true := by
  unfold forget at h
  split at h
  · cases h
  rename_i job hfind
  simp only [bind_eq_ok, failIf_eq_ok, pure_eq_ok] at h
  obtain ⟨-, hno, rfl⟩ := h
  have ht : isTerminal job.state = true := by
    by_contra hne
    exact hno (.inl hne)
  exact .drop ⟨rfl, rfl, rfl⟩ hfind ht rfl

theorem setForeground_changes {foreground : Bool}
    (h : s.setForeground id foreground = .ok s') : Changes s s' := by
  unfold setForeground at h
  split at h
  · cases h
  rename_i job hfind
  simp only [bind_eq_ok, failIf_eq_ok] at h
  obtain ⟨-, -, h⟩ := h
  split at h
  · obtain rfl := pure_eq_ok.mp h
    exact .refl s
  · simp only [bind_eq_ok, failIf_eq_ok, pure_eq_ok] at h
    obtain ⟨-, -, rfl⟩ := h
    exact .update ⟨rfl, rfl, rfl⟩ hfind rfl fun _ => .of_eq rfl rfl rfl rfl rfl

theorem reorderJob_changes (s : State) (id : JobId) : Changes s (s.reorderJob id) := by
  unfold reorderJob
  split
  · exact .refl s
  · rename_i job hfind
    exact .update ⟨rfl, rfl, rfl⟩ hfind rfl fun _ => .of_eq rfl rfl rfl rfl rfl

theorem shutdownJob_changes (s : State) (id : JobId) : Changes s (s.shutdownJob id) := by
  unfold shutdownJob
  split
  · exact .refl s
  · rename_i job hfind
    split
    · exact .refl s
    · exact .update ⟨rfl, rfl, rfl⟩ hfind rfl fun _ => .of_eq rfl rfl rfl rfl rfl

theorem requestStop_changes (s : State) (id : JobId) : Changes s (s.requestStop id) := by
  unfold requestStop
  split
  · exact .refl s
  · rename_i job hfind
    exact put_changes hfind fun _ => .of_eq rfl rfl rfl rfl rfl

/-! ## Sections of workers -/

theorem claim_spec (s : State) (id : JobId) (abort : Option Error)
    (hlive : isTerminal job.state = false) :
    ∃ job', Frame s (s.claim id job abort) ∧ (s.claim id job abort).jobs = s.jobs.set id job' ∧
      Quiet job job' := by
  unfold claim
  generalize hmoved : (if job.result.snapshot.deferred = false ∧ job.state = .queued then
    s.transition id job .preparing else (s, job)) = moved
  have hspec : Frame s moved.1 ∧ moved.1.jobs = s.jobs ∧ Quiet job moved.2 := by
    subst hmoved
    split
    · exact s.transition_spec id hlive.symm
    · exact ⟨⟨rfl, rfl, rfl⟩, rfl, .refl job⟩
  obtain ⟨hf, hj, hq⟩ := hspec
  exact ⟨moved.2.taken abort, ⟨hf.occupied, hf.laneLimits, hf.issued⟩, by simp only [put, hj],
    hq.trans (.taken (hq.terminal.trans hlive))⟩

theorem claim_changes (abort : Option Error)
    (hfind : s.jobs.find id = some job) (hlive : isTerminal job.state = false) :
    Changes s (s.claim id job abort) := by
  obtain ⟨job', hf, hj, hq⟩ := s.claim_spec id abort hlive
  exact .update hf hfind hj fun _ => hq

theorem admit_spec (s : State) (job : Job) : Frame s (s.admit_ job).1 ∧
    (s.admit_ job).1.jobs = s.jobs ∧ Quiet job (s.admit_ job).2 := by
  unfold admit_
  split
  · exact ⟨⟨rfl, rfl, rfl⟩, rfl, .refl job⟩
  · exact ⟨⟨rfl, rfl, rfl⟩, rfl, .of_eq rfl rfl rfl rfl rfl⟩

/-- A worker that got the lanes of a job takes the job. -/
theorem acquire_changes {s₁ : State} {job₁ : Job} (hfind : s.jobs.find id = some job)
    (hlive : isTerminal job.state = false) (h : s.acquire job = some (s₁, job₁)) :
    Changes s ((s₁.admit_ job₁).1.claim id (s₁.admit_ job₁).2 none) := by
  obtain ⟨hf₁, hj₁, hq₁⟩ := s₁.admit_spec job₁
  have hsame : isTerminal job₁.state = false → ∃ job', Frame s₁
      ((s₁.admit_ job₁).1.claim id (s₁.admit_ job₁).2 none) ∧
      ((s₁.admit_ job₁).1.claim id (s₁.admit_ job₁).2 none).jobs = s₁.jobs.set id job' ∧
      Quiet job₁ job' := by
    intro hl
    obtain ⟨job', hf, hj, hq⟩ := (s₁.admit_ job₁).1.claim_spec id none (hq₁.terminal.trans hl)
    exact ⟨job', ⟨hf.occupied.trans hf₁.occupied, hf.laneLimits.trans hf₁.laneLimits,
      hf.issued.trans hf₁.issued⟩, by rw [hj, hj₁], hq₁.trans hq⟩
  unfold acquire at h
  split at h
  · cases h
    obtain ⟨job', hf, hj, hq⟩ := hsame hlive
    exact .update hf hfind hj fun _ => hq
  · rename_i hheld
    split at h
    · rename_i hfree
      cases h
      obtain ⟨job', hf, hj, hq⟩ := hsame hlive
      exact .single fun _ => .acquire hf.laneLimits hf.issued hfind (by simpa using hheld) hfree
        hf.occupied hq hlive hj
    · cases h

theorem scan_changes (now : Nat) (ids : List JobId) (s : State) : Changes s (scan now ids s) := by
  induction ids generalizing s with
  | nil => exact .refl s
  | cons id rest ih =>
    unfold scan
    split
    · exact ih s
    rename_i job hfind
    split
    · exact ih s
    rename_i hgo
    have hlive : isTerminal job.state = false := by
      by_contra hne
      exact hgo (.inl (by simpa using hne))
    split
    · exact claim_changes _ hfind hlive
    simp only
    split
    · exact ih s
    split
    · exact ih s
    split
    · split
      · exact ih s
      · -- The job is paused on the way.
        refine Changes.trans ?_ (ih _)
        have hq : Quiet job { job with resume := job.state } :=
          ⟨rfl, rfl, rfl, fun h => ⟨h.lanes, hlive, h.held, h.busy, h.ended, h.collected⟩⟩
        have hn : isTerminal .paused = isTerminal ({ job with resume := job.state } : Job).state :=
          hlive.symm
        obtain ⟨hf, hj, hq'⟩ := s.transition_spec id hn
        exact .update ⟨hf.occupied, hf.laneLimits, hf.issued⟩ hfind (by simp only [put, hj])
          fun _ => hq.trans hq'
    split
    · exact claim_changes _ hfind hlive
    split
    · exact ih s
    split
    · exact ih s
    split
    · exact ih s
    · rename_i s₁ job₁ hacq
      exact acquire_changes hfind hlive hacq

theorem pick_changes (s : State) (now : Nat) : Changes s (s.pick now) := by
  unfold pick
  split
  · exact .refl s
  · exact scan_changes now _ s

theorem takeReceipt_changes (s : State) (id : JobId) : Changes s (s.takeReceipt id) := by
  unfold takeReceipt
  split
  · exact .refl s
  rename_i job hfind
  split
  · rename_i claim hp
    split
    · exact put_changes hfind fun _ => .claimed hp
    · exact .refl s
  · exact .refl s

theorem saveReceipt_changes (s : State) (id : JobId) (failure : Option Error) :
    Changes s (s.saveReceipt id failure) := by
  unfold saveReceipt
  split
  · exact .refl s
  rename_i job hfind
  split
  · rename_i claim hp
    split
    · split
      · exact .refl s
      · exact put_changes hfind fun _ => .claimed hp
      · exact put_changes hfind fun _ => .of_idle rfl rfl rfl rfl rfl
    · exact .refl s
  · exact .refl s

/-- The verdict on a job, which the steps towards it leave as the lanes know it. -/
theorem judge_quiet (id : JobId) (now : Nat) (step : JobStep) (v : Verdict) :
    Quiet v.1 (judge id now step v).1 := by
  have hfail : ∀ (v : Verdict) e, Quiet v.1 (v.fail e).1 := fun _ _ => .of_eq rfl rfl rfl rfl rfl
  have h1 : ∀ v : Verdict, Quiet v.1 (v.limitDelay step now).1 := fun v => by
    unfold Verdict.limitDelay
    simp only
    split <;> exact .of_eq rfl rfl rfl rfl rfl
  have h2 : ∀ v : Verdict, Quiet v.1 v.cancelLate.1 := fun v => by
    unfold Verdict.cancelLate
    split <;> exact .refl _
  have h3 : ∀ v : Verdict, Quiet v.1 (v.enterCommit now).1 := fun v => by
    unfold Verdict.enterCommit
    split
    · split
      · exact .of_eq rfl rfl rfl rfl rfl
      · split
        · exact hfail v _
        · exact .refl _
    · exact .refl _
  have h4 : ∀ v : Verdict, Quiet v.1 v.noPromptInCommit.1 := fun v => by
    unfold Verdict.noPromptInCommit
    split
    · exact hfail v _
    · exact .refl _
  have h5 : ∀ v : Verdict, Quiet v.1 (v.prompt id step).1 := fun v => by
    unfold Verdict.prompt
    split
    · split
      · exact hfail v _
      · split
        · exact hfail v _
        · exact ⟨rfl, rfl, rfl, fun h => ⟨h.lanes, rfl, h.held, h.busy, h.ended, h.collected⟩⟩
    · exact .refl _
  have h6 : ∀ v : Verdict, Quiet v.1 v.taskTransition.1 := fun v => by
    unfold Verdict.taskTransition
    split
    · exact hfail v _
    · exact .refl _
  have h7 : ∀ v : Verdict, Quiet v.1 v.partialFailure.1 := fun v => by
    unfold Verdict.partialFailure
    split
    · exact hfail v _
    · exact .refl _
  have h8 : ∀ v : Verdict, Quiet v.1 v.nameFailure.1 := fun v => by
    unfold Verdict.nameFailure
    split
    · exact hfail v _
    · exact .refl _
  exact (((((((h1 v).trans (h2 _)).trans (h3 _)).trans (h4 _)).trans (h5 _)).trans (h6 _)).trans
    (h7 _)).trans (h8 _)

theorem resolve_changes {v : Verdict} (hfind : s.jobs.find id = some job)
    (hlive : isTerminal job.state = false) (hq : Quiet job v.1) : Changes s (s.resolve id v) := by
  have hv : isTerminal v.1.state = false := hq.terminal.trans hlive
  unfold resolve
  split
  · rename_i ht
    refine put_changes hfind fun _ => hq.trans ⟨rfl, rfl, rfl, fun h => ?_⟩
    exact ⟨h.lanes, h.resume, h.held, fun _ => hv, (fun _ h => by cases h; exact ht),
      (fun _ _ h => by cases h)⟩
  · rename_i ht
    have ht : isTerminal v.2 = false := by simpa using ht
    generalize hmoved : (if v.2 = .committing ∧ v.1.state ≠ .committing ∧
      v.1.result.snapshot.pauseRequested then s.transition id { v.1 with resume := v.2 } .paused
      else s.transition id v.1 v.2) = moved
    have hspec : Frame s moved.1 ∧ moved.1.jobs = s.jobs ∧ Quiet v.1 moved.2 := by
      subst hmoved
      split
      · have hr : Quiet v.1 { v.1 with resume := v.2 } :=
          ⟨rfl, rfl, rfl, fun h => ⟨h.lanes, ht, h.held, h.busy, h.ended, h.collected⟩⟩
        have hn : isTerminal .paused = isTerminal ({ v.1 with resume := v.2 } : Job).state :=
          hv.symm
        obtain ⟨hf, hj, hq'⟩ := s.transition_spec id hn
        exact ⟨hf, hj, hr.trans hq'⟩
      · exact s.transition_spec id (ht.trans hv.symm)
    obtain ⟨hf, hj, hq'⟩ := hspec
    refine .update ⟨hf.occupied, hf.laneLimits, hf.issued⟩ hfind (by simp only [put, hj]; rfl)
      fun _ => hq.trans (hq'.trans ?_)
    exact .of_idle rfl rfl rfl rfl rfl

theorem openItems_quiet (job : Job) (input : StepInput) : Quiet job (openItems job input).1 := by
  unfold openItems
  split
  · exact .refl job
  split <;> exact .of_eq rfl rfl rfl rfl rfl

theorem settle_changes {claim : Claim}
    (hfind : s.jobs.find id = some job) (hp : job.phase = .claimed claim) (input : StepInput)
    (now : Nat) : Changes s (s.settle id job claim input now) := by
  intro hs
  have hlive : isTerminal job.state = false := (hs _ _ hfind).1.busy (by rw [hp]; simp)
  revert hs
  unfold settle
  generalize hopened : (if claim.abort = none ∧ s.journal then
    ((openItems job input).1, input.checkpoint <|> (openItems job input).2)
    else (job, claim.abort)) = opened
  have hq₁ : Quiet job opened.1 := by
    subst hopened
    split
    · exact openItems_quiet job input
    · exact .refl job
  simp only
  generalize hrec : record opened.1.request.maxItemResults input.fault opened.1.result
    (stepOf opened.2 input) = recorded
  have hq₂ : Quiet opened.1 { opened.1 with result := recorded.1 } := by
    refine .of_eq rfl rfl ?_ rfl rfl
    subst hrec
    exact record_snapshot .state _ _ _ _
  generalize hnote : (if recorded.2.progress.isSome = true then
    ({ opened.1 with result := recorded.1 } : Job).notify
    else { opened.1 with result := recorded.1 }) = job₁
  have hq : Quiet job job₁ := by
    subst hnote
    split
    · exact (hq₁.trans hq₂).trans (.notify _)
    · exact hq₁.trans hq₂
  split
  · split
    · exact put_changes hfind fun _ => hq.trans (.of_idle rfl rfl rfl rfl rfl)
    · exact resolve_changes hfind hlive (hq.trans (judge_quiet id now _ (job₁, .failed)))
  · refine resolve_changes hfind hlive (hq.trans (Quiet.trans ?_ (judge_quiet _ _ _ _)))
    exact .of_eq rfl rfl rfl rfl rfl

theorem advance_changes (s : State) (id : JobId) (input : StepInput) (now : Nat) :
    Changes s (s.advance id input now) := by
  unfold advance
  split
  · exact .refl s
  rename_i job hfind
  split
  · rename_i claim hp
    split
    · exact .refl s
    · exact settle_changes hfind hp input now
  · exact .refl s

theorem collect_changes (s : State) (id : JobId) (effects : Option CompletedEffects)
    (fault : Nat → Option Error) : Changes s (s.collect id effects fault) := by
  unfold collect
  split
  · exact .refl s
  rename_i job hfind
  split
  · rename_i terminal hp
    have hq : ∀ (result : JobResult) cleanup, result.snapshot.state = job.state → JobOk job →
        Quiet job { job with result, phase := .collected terminal cleanup } := by
      intro result cleanup hr hok
      have hterm : isTerminal result.snapshot.state = isTerminal job.state := by rw [hr]
      refine ⟨rfl, rfl, hterm, fun h => ⟨h.lanes, h.resume, fun hh => hterm.trans (h.held hh),
        fun _ => hterm.trans (h.busy (by rw [hp]; simp)), (fun _ h => by cases h),
        (fun _ _ h => ?_)⟩⟩
      cases h
      exact hok.ended _ hp
    split
    · exact put_changes hfind (hq _ _ rfl)
    · exact put_changes hfind (hq _ _ (recordLate_snapshot .state _ _ _))
  · exact .refl s

theorem transition_terminal (s : State) (id : JobId) {next : JobState}
    (hlive : isTerminal job.state = false) (hn : isTerminal next = true) :
    Frame s (s.transition id job next).1 ∧ (s.transition id job next).1.jobs = s.jobs ∧
      (s.transition id job next).2.request = job.request ∧
      (s.transition id job next).2.lanesHeld = job.lanesHeld ∧
      (s.transition id job next).2.resume = job.resume ∧
      (s.transition id job next).2.state = next := by
  unfold transition
  rw [if_neg (fun h => by rw [h, hn] at hlive; cases hlive)]
  exact ⟨⟨rfl, rfl, rfl⟩, rfl, rfl, rfl, rfl, rfl⟩

theorem finish_change (hs : JobsOk s) (id : JobId) (input : EndInput) :
    s.finish id input = s ∨ Change s (s.finish id input) true := by
  unfold finish
  split
  · exact .inl rfl
  rename_i job hfind
  split
  swap
  · exact .inl rfl
  rename_i terminal cleanup hp
  right
  obtain ⟨hok, -⟩ := hs _ _ hfind
  have hlive : isTerminal job.state = false := hok.busy (by rw [hp]; simp)
  simp only
  generalize hclean : cleanup ++ input.finalized ++
    (if job.result.outcomes.isSome then input.flushed.toList else []) ++
    (if s.journal then input.saved.toList else []) = all
  have hn : isTerminal (if all = [] then terminal else .failed) = true := by
    split
    · exact hok.collected _ _ hp
    · rfl
  have hend : ∀ (s₁ : State) (job₁ : Job), job₁.request = job.request → job₁.lanesHeld = false →
      job₁.resume = job.resume → job₁.state = job.state → s₁.jobs = s.jobs →
      ∃ job', (s₁.close id job₁ (if all = [] then terminal else .failed)).jobs =
          s.jobs.set id job' ∧
        Frame s₁ (s₁.close id job₁ (if all = [] then terminal else .failed)) ∧
        job'.request = job.request ∧ job'.lanesHeld = false ∧ isTerminal job'.state = true ∧
        JobOk job' := by
    intro s₁ job₁ hr hl hres hst hjobs
    obtain ⟨hf, hj, h1, h2, h3, h4⟩ := s₁.transition_terminal id (hst ▸ hlive) hn
    refine ⟨(s₁.transition id job₁ _).2.promise, by simp only [close, put, hj, hjobs],
      ⟨hf.occupied, hf.laneLimits, hf.issued⟩, h1.trans hr, h2.trans hl,
      (congrArg isTerminal h4).trans hn, ?_⟩
    refine ⟨?_, ?_, fun hh => ?_, fun h => absurd rfl h, (fun _ h => by cases h),
      (fun _ _ h => by cases h)⟩
    · exact (congrArg (fun r => r.resourceLanes.Nodup) (h1.trans hr)).mpr hok.lanes
    · exact (congrArg isTerminal (h3.trans hres)).trans hok.resume
    · have hh : (s₁.transition id job₁ _).2.lanesHeld = true := hh
      rw [h2.trans hl] at hh; cases hh
  unfold release
  by_cases hheld : job.lanesHeld = true
  · rw [if_pos (show (job.cleaned all).lanesHeld = true from hheld)]
    obtain ⟨job', hj, hf, h1, h2, h3, h4⟩ := hend
      { s with occupied := (job.cleaned all).request.resourceLanes.foldl vacate s.occupied }
      { job.cleaned all with lanesHeld := false } rfl rfl rfl rfl rfl
    exact .release hf.laneLimits hf.issued hfind hheld hf.occupied (by rw [h1]) h2 h3 h4 hj
  · have hheld : job.lanesHeld = false := by simpa using hheld
    rw [if_neg (by simp [Job.cleaned, hheld])]
    obtain ⟨job', hj, hf, h1, h2, h3, h4⟩ := hend s (job.cleaned all) rfl hheld rfl rfl rfl
    exact .close hf hfind hheld hlive (by rw [h1]) h2 h3 h4 hj

end State

/-! ## Runs -/

/-- `SetLaneLimit` leaves the lanes of paths to one job each, and no lane with more jobs than its
limit. -/
def Mild (s : State) : Action → Prop
  | .setLaneLimit lane n =>
    (isPathLane lane = true → n = 1) ∧ (s.occupied.find lane).getD 0 ≤ n
  | _ => True

/-- An action that neither forgets nor finishes a job ends none. -/
theorem act_going (fold : Str → Option Str) (s : State) (a : Action) (hmild : Mild s a)
    (hforget : ∀ id, a ≠ .forget id) (hfinish : ∀ id input, a ≠ .finish id input) :
    Changes s (s.act fold a) := by
  have hcall : ∀ r : Except Error State, (∀ s', r = .ok s' → Changes s s') →
      Changes s (s.orSame r) := by
    intro r hr
    cases r with
    | error e => exact .refl s
    | ok s' => exact hr s' rfl
  cases a with
  | submit id hasTask stopped request =>
    rw [State.act]
    split
    · exact .refl s
    · rename_i hnew
      exact hcall _ fun s' h => State.submit_changes hnew h
  | control ids control => exact hcall _ fun s' h => State.control_changes h
  | reply id answer now => exact hcall _ fun s' h => State.reply_changes h
  | forget id => exact absurd rfl (hforget id)
  | setForeground id foreground => exact hcall _ fun s' h => State.setForeground_changes h
  | setConcurrencyLimit limit =>
    refine hcall _ fun s' h => ?_
    simp only [State.setConcurrencyLimit, bind_eq_ok, failIf_eq_ok, pure_eq_ok] at h
    obtain ⟨-, -, rfl⟩ := h
    exact .of_frame ⟨rfl, rfl, rfl⟩ rfl
  | setLaneLimit lane n =>
    refine hcall _ fun s' h => ?_
    simp only [State.setLaneLimit, bind_eq_ok, failIf_eq_ok, pure_eq_ok] at h
    obtain ⟨-, hno, rfl⟩ := h
    exact .single fun _ => .limit rfl rfl (by omega) hmild.1 hmild.2 rfl rfl
  | reorderQueued ids =>
    refine hcall _ fun s' h => ?_
    simp only [State.reorderQueued, bind_eq_ok, failIf_eq_ok, pure_eq_ok] at h
    obtain ⟨-, -, -, -, rfl⟩ := h
    exact .foldl State.reorderJob_changes ids s
  | shutdown =>
    refine Changes.trans ?_ (.foldl State.shutdownJob_changes _ _)
    exact .of_frame ⟨rfl, rfl, rfl⟩ rfl
  | requestStop id =>
    rw [State.act]
    split
    · refine Changes.trans (b := { s with stops := s.stops.erase id })
        (.of_frame ⟨rfl, rfl, rfl⟩ rfl) ?_
      exact State.requestStop_changes _ id
    · exact .refl s
  | cancelReply id =>
    rw [State.act]
    split
    · refine Changes.trans (b := { s with cancels := s.cancels.erase id })
        (.of_frame ⟨rfl, rfl, rfl⟩ rfl) ?_
      simp only
      cases h : State.control { s with cancels := s.cancels.erase id } [id] .cancel with
      | error e => exact .of_frame ⟨rfl, rfl, rfl⟩ rfl
      | ok s' => exact State.control_changes h
    · exact .refl s
  | externalStop id => exact State.requestStop_changes s id
  | pick now => exact State.pick_changes s now
  | takeReceipt id => exact State.takeReceipt_changes s id
  | saveReceipt id failure => exact State.saveReceipt_changes s id failure
  | advance id input now => exact State.advance_changes s id input now
  | collect id effects fault => exact State.collect_changes s id effects fault
  | finish id input => exact absurd rfl (hfinish id input)

/-- An action ends no job, or it is the change that ends one. -/
theorem act_changes (fold : Str → Option Str) {s : State} (hs : JobsOk s) (a : Action)
    (hmild : Mild s a) :
    Relation.ReflTransGen Going s (s.act fold a) ∨ Change s (s.act fold a) true := by
  by_cases hforget : ∃ id, a = .forget id
  · obtain ⟨id, rfl⟩ := hforget
    rw [State.act]
    cases h : s.forget id with
    | error e => exact .inl .refl
    | ok s' => exact .inr (State.forget_change h)
  by_cases hfinish : ∃ id input, a = .finish id input
  · obtain ⟨id, input, rfl⟩ := hfinish
    rw [State.act]
    rcases State.finish_change hs id input with h | h
    · exact .inl (by rw [h])
    · exact .inr h
  · exact .inl (act_going fold s a hmild (fun id h => hforget ⟨id, h⟩)
      (fun id input h => hfinish ⟨id, input, h⟩) hs)

/-- The states in the runs of a new scheduler, by actions that all satisfy `P`. -/
inductive Reaches (fold : Str → Option Str) (P : State → Action → Prop) : State → Prop
  | start (workerCount maxRetainedJobs : Nat) (journal : Bool) :
    Reaches fold P (.new workerCount maxRetainedJobs journal)
  | act {s a} (h : Reaches fold P s) (hp : P s a) : Reaches fold P (s.act fold a)

/-- A run of actions that satisfy `P` anywhere. -/
theorem Reaches.run {fold : Str → Option Str} {P : State → Action → Prop} {s : State}
    (h : Reaches fold P s) {actions : List Action} (hp : ∀ a ∈ actions, ∀ s, P s a) :
    Reaches fold P (actions.foldl (State.act fold) s) := by
  induction actions generalizing s with
  | nil => exact h
  | cons a rest ih =>
    exact ih (.act h (hp a List.mem_cons_self s)) fun b hb => hp b (List.mem_cons_of_mem a hb)

theorem Reaches.jobsOk {fold : Str → Option Str} {s : State} (h : Reaches fold Mild s) :
    JobsOk s := by
  induction h with
  | start => exact fun id job hjob => by cases hjob
  | act h hp ih =>
    rcases act_changes fold ih _ hp with hc | hc
    · exact ih.changes hc
    · exact ih.change hc

end Hc.Operations
