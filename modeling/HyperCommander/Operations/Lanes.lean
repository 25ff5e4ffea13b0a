import HyperCommander.Operations.SchedulerLemmas

/-!
# Lane exclusion

* `Lanes`: the occupancy of every lane is the number of its holders, within the limit, and no two
  jobs hold paths one of which is the other or above it.
* `Lanes.change`: every change of the scheduler keeps this.
* `lane_exclusion`: it holds in every state of every run, and a job gives its lanes back at the
  one moment at which it becomes terminal.
-/

namespace Hc.Operations

open List Storage

/-- The job holds the lane. -/
def Job.holds (job : Job) (lane : Lane) : Bool :=
  job.lanesHeld && job.request.resourceLanes.contains lane

namespace State

/-- The occupancy of a lane. -/
def occupancy (s : State) (lane : Lane) : Nat := (s.occupied.find lane).getD 0

/-- The number of jobs that hold a lane. -/
def holders (s : State) (lane : Lane) : Nat := s.jobs.entries.countP fun e => e.2.holds lane

def laneLimit (s : State) (lane : Lane) : Nat := (s.laneLimits.find lane).getD 1

end State

/-! ## Occupying and vacating -/

theorem find_foldl_occupy {lanes : List Lane} (hnd : lanes.Nodup) (occupied : OrdMap Lane Nat)
    (lane : Lane) : (lanes.foldl State.occupy occupied).find lane =
      if lane ∈ lanes then some ((occupied.find lane).getD 0 + 1) else occupied.find lane := by
  induction lanes generalizing occupied with
  | nil => simp
  | cons a rest ih =>
    obtain ⟨ha, hnd⟩ := nodup_cons.mp hnd
    rw [foldl_cons, ih hnd, State.occupy]
    by_cases h : lane = a
    · subst h
      simp [ha]
    · simp [OrdMap.find_set_of_ne h, h]

theorem find_vacate (occupied : OrdMap Lane Nat) (a lane : Lane) :
    (State.vacate occupied a).find lane = if lane = a then
      (if decrement ((occupied.find a).getD 0) = 0 then none
        else some (decrement ((occupied.find a).getD 0)))
      else occupied.find lane := by
  by_cases h : decrement ((occupied.find a).getD 0) = 0
  · rw [State.vacate, if_pos h, if_pos h, OrdMap.find_erase]
    congr
  · rw [State.vacate, if_neg h, if_neg h, OrdMap.find_set]
    congr

theorem find_foldl_vacate {lanes : List Lane} (hnd : lanes.Nodup) (occupied : OrdMap Lane Nat)
    (lane : Lane) : (lanes.foldl State.vacate occupied).find lane = if lane ∈ lanes then
      (if decrement ((occupied.find lane).getD 0) = 0 then none
        else some (decrement ((occupied.find lane).getD 0)))
      else occupied.find lane := by
  induction lanes generalizing occupied with
  | nil => simp
  | cons a rest ih =>
    obtain ⟨ha, hnd⟩ := nodup_cons.mp hnd
    rw [foldl_cons, ih hnd]
    by_cases h : lane = a
    · subst h
      rw [if_neg ha, find_vacate, if_pos rfl, if_pos mem_cons_self]
    · rw [find_vacate, if_neg h]
      simp [h]

/-! ## The invariant -/

/-- The occupancy of the lanes is what the jobs hold. -/
structure Lanes (s : State) : Prop where
  count : ∀ lane, s.occupancy lane = s.holders lane
  positive : ∀ lane, s.occupied.find lane ≠ some 0
  limit : ∀ lane, s.occupancy lane ≤ s.laneLimit lane
  limited : ∀ lane, 0 < s.laneLimit lane
  path : ∀ lane, isPathLane lane = true → s.laneLimit lane = 1
  apart : ∀ i j a b, i ≠ j → s.jobs.find i = some a → s.jobs.find j = some b →
    ∀ lane lane', a.holds lane = true → b.holds lane' = true → isPathLane lane = true →
      isPathLane lane' = true → ¬ Overlap lane lane'

theorem Overlap.symm {a b : Lane} (h : Overlap a b) : Overlap b a := by
  rcases h with rfl | h | h
  · exact .inl rfl
  · exact .inr (.inr h)
  · exact .inr (.inl h)

section

variable {s s' : State} {id : JobId} {job job' : Job} {lane : Lane}

theorem State.holders_of_find (h : s.jobs.find id = some job) (lane : Lane) :
    s.holders lane = (s.jobs.erase id).entries.countP (fun e => e.2.holds lane) +
      if job.holds lane then 1 else 0 :=
  OrdMap.countP_of_find _ h

theorem State.holders_set (h : s'.jobs = s.jobs.set id job') (lane : Lane) :
    s'.holders lane = (s.jobs.erase id).entries.countP (fun e => e.2.holds lane) +
      if job'.holds lane then 1 else 0 := by
  rw [State.holders, h]
  exact OrdMap.countP_set _

theorem State.holders_pos (h : s.jobs.find id = some job) (hh : job.holds lane = true) :
    1 ≤ s.holders lane := by
  rw [State.holders_of_find h, if_pos hh]
  omega

/-- A job that holds what it held. -/
theorem Lanes.of_same (h : Lanes s) (hocc : s'.occupied = s.occupied)
    (hlim : s'.laneLimits = s.laneLimits)
    (hheld : ∀ lane, s'.holders lane = s.holders lane)
    (hsub : ∀ i a, s'.jobs.find i = some a → (∃ lane, a.holds lane = true) →
      ∃ b, s.jobs.find i = some b ∧ ∀ lane, a.holds lane = true → b.holds lane = true) :
    Lanes s' where
  count lane := by rw [hheld, ← h.count, State.occupancy, State.occupancy, hocc]
  positive := by rw [hocc]; exact h.positive
  limit lane := by
    have := h.limit lane
    rwa [State.occupancy, State.laneLimit, hocc, hlim]
  limited := by
    unfold State.laneLimit
    rw [hlim]
    exact h.limited
  path := by
    unfold State.laneLimit
    rw [hlim]
    exact h.path
  apart i j a b hne ha hb lane lane' hl hl' := by
    obtain ⟨c, hc, hsc⟩ := hsub i a ha ⟨lane, hl⟩
    obtain ⟨d, hd, hsd⟩ := hsub j b hb ⟨lane', hl'⟩
    exact h.apart i j c d hne hc hd lane lane' (hsc _ hl) (hsd _ hl')

theorem holds_of_same (h1 : job'.request.resourceLanes = job.request.resourceLanes)
    (h2 : job'.lanesHeld = job.lanesHeld) (lane : Lane) : job'.holds lane = job.holds lane := by
  rw [Job.holds, Job.holds, h1, h2]

theorem holds_of_not_held (h : job.lanesHeld = false) (lane : Lane) : job.holds lane = false := by
  rw [Job.holds, h, Bool.false_and]

/-- One job holds what it held. -/
theorem Lanes.of_set (h : Lanes s) (hocc : s'.occupied = s.occupied)
    (hlim : s'.laneLimits = s.laneLimits) (hfind : s.jobs.find id = some job)
    (hj : s'.jobs = s.jobs.set id job') (hsame : ∀ lane, job'.holds lane = job.holds lane) :
    Lanes s' := by
  refine h.of_same hocc hlim (fun lane => ?_) fun i a ha _ => ?_
  · rw [State.holders_set hj, State.holders_of_find hfind, hsame]
  · rw [hj, OrdMap.find_set] at ha
    split at ha
    · cases ha
      subst i
      exact ⟨job, hfind, fun lane hl => by rwa [← hsame]⟩
    · exact ⟨a, ha, fun _ hl => hl⟩

/-- A lane that is held is occupied. -/
theorem Lanes.occupied (h : Lanes s) (hfind : s.jobs.find id = some job)
    (hh : job.holds lane = true) : ∃ n, s.occupied.find lane = some n ∧ n ≠ 0 := by
  have hpos := State.holders_pos hfind hh
  rw [← h.count, State.occupancy] at hpos
  cases hf : s.occupied.find lane with
  | none => rw [hf] at hpos; exact absurd hpos (by simp)
  | some n => exact ⟨n, rfl, fun h0 => h.positive lane (by rw [hf, h0])⟩

/-- A lane that is free is apart from everything that is held. -/
theorem Lanes.free (h : Lanes s) (hfree : s.laneFree lane = true) :
    s.occupancy lane < s.laneLimit lane ∧ (isPathLane lane = true → ∀ i a lane',
      s.jobs.find i = some a → a.holds lane' = true → isPathLane lane' = true →
        ¬ Overlap lane lane') := by
  simp only [State.laneFree, Bool.and_eq_true, Bool.or_eq_true, Bool.not_eq_true'] at hfree
  obtain ⟨hexact, hpath⟩ := hfree
  have hlt : s.occupancy lane < s.laneLimit lane := by
    rw [State.occupancy]
    cases hf : s.occupied.find lane with
    | none => exact h.limited lane
    | some n =>
      rw [hf] at hexact
      simpa [State.laneLimit] using hexact
  refine ⟨hlt, fun hp i a lane' hi hh hp' hover => ?_⟩
  obtain ⟨hchild, hparent⟩ := hpath.resolve_left (by simp [hp])
  obtain ⟨n, hn, hn0⟩ := h.occupied hi hh
  rcases hover with rfl | hpre | hpre
  · have := h.path _ hp
    rw [State.occupancy, hn] at hlt
    simp only [Option.getD_some] at hlt
    omega
  · obtain ⟨e, he, hpe⟩ := OrdMap.lowerBound_prefix.mpr ⟨lane', n, hn, hpre⟩
    rw [he] at hchild
    have : (lane ++ [backslash]).isPrefixOf e.1 = true := isPrefixOf_iff_prefix.mpr hpe
    simp [this] at hchild
  · have hmem := (mem_parents hp').mpr hpre
    have := all_eq_true.mp hparent _ hmem
    rw [hn] at this
    simp [hn0] at this

theorem Lanes.acquire (h : Lanes s) (hlim : s'.laneLimits = s.laneLimits)
    (hfind : s.jobs.find id = some job) (hnd : job.request.resourceLanes.Nodup)
    (hheld : job.lanesHeld = false) (hfree : job.request.resourceLanes.all s.laneFree = true)
    (hocc : s'.occupied = job.request.resourceLanes.foldl State.occupy s.occupied)
    (hlanes : job'.request.resourceLanes = job.request.resourceLanes)
    (hheld' : job'.lanesHeld = true) (hj : s'.jobs = s.jobs.set id job') : Lanes s' := by
  have hholds : ∀ lane, job'.holds lane = job.request.resourceLanes.contains lane := fun lane => by
    rw [Job.holds, hheld', hlanes, Bool.true_and]
  have hfree' : ∀ lane ∈ job.request.resourceLanes, s.laneFree lane = true :=
    all_eq_true.mp hfree
  have hoccupancy : ∀ lane, s'.occupancy lane =
      if lane ∈ job.request.resourceLanes then s.occupancy lane + 1 else s.occupancy lane := by
    intro lane
    rw [State.occupancy, hocc, find_foldl_occupy hnd]
    split <;> rfl
  have hlimit : ∀ lane, s'.laneLimit lane = s.laneLimit lane := fun lane => by
    rw [State.laneLimit, State.laneLimit, hlim]
  refine ⟨fun lane => ?_, fun lane => ?_, fun lane => ?_, fun lane => ?_, fun lane hp => ?_,
    fun i j a b hne ha hb lane lane' hl hl' hp hp' => ?_⟩
  · have hs := h.count lane
    rw [State.holders_of_find hfind, holds_of_not_held hheld, if_neg (by simp)] at hs
    rw [State.holders_set hj, hholds, hoccupancy, hs]
    by_cases hm : lane ∈ job.request.resourceLanes <;> simp [hm]
  · rw [hocc, find_foldl_occupy hnd]
    split
    · simp
    · exact h.positive lane
  · rw [hoccupancy, hlimit]
    split
    · rename_i hm
      exact (h.free (hfree' lane hm)).1
    · exact h.limit lane
  · rw [hlimit]
    exact h.limited lane
  · rw [hlimit]
    exact h.path lane hp
  · rw [hj, OrdMap.find_set] at ha hb
    -- At most one of the two is the job that took its lanes.
    have hself : ∀ lane, job'.holds lane = true → lane ∈ job.request.resourceLanes :=
      fun lane hl => by
      simpa [hholds] using hl
    by_cases hi : i = id
    · rw [if_pos hi] at ha
      rw [if_neg (fun hjd => hne (hi.trans hjd.symm))] at hb
      cases ha
      exact (h.free (hfree' lane (hself lane hl))).2 hp j b lane' hb hl' hp'
    · rw [if_neg hi] at ha
      by_cases hjd : j = id
      · rw [if_pos hjd] at hb
        cases hb
        exact fun hover => (h.free (hfree' lane' (hself lane' hl'))).2 hp' i a lane ha
          hl hp hover.symm
      · rw [if_neg hjd] at hb
        exact h.apart i j a b hne ha hb lane lane' hl hl' hp hp'

/-- A lane that is given back was occupied. -/
theorem Lanes.vacated (h : Lanes s) (hfind : s.jobs.find id = some job)
    (hheld : job.lanesHeld = true) (hm : lane ∈ job.request.resourceLanes) :
    decrement ((s.occupied.find lane).getD 0) + 1 = s.occupancy lane := by
  have hh : job.holds lane = true := by rw [Job.holds, hheld, Bool.true_and]; simpa using hm
  have hpos := State.holders_pos hfind hh
  rw [← h.count] at hpos
  rw [← State.occupancy, decrement, if_neg (by omega)]
  omega

theorem Lanes.release (h : Lanes s) (hlim : s'.laneLimits = s.laneLimits)
    (hfind : s.jobs.find id = some job) (hnd : job.request.resourceLanes.Nodup)
    (hheld : job.lanesHeld = true)
    (hocc : s'.occupied = job.request.resourceLanes.foldl State.vacate s.occupied)
    (hfree : job'.lanesHeld = false) (hj : s'.jobs = s.jobs.set id job') : Lanes s' := by
  have hlimit : ∀ lane, s'.laneLimit lane = s.laneLimit lane := fun lane => by
    rw [State.laneLimit, State.laneLimit, hlim]
  have hoccupancy : ∀ lane, s'.occupancy lane +
      (if lane ∈ job.request.resourceLanes then 1 else 0) = s.occupancy lane := by
    intro lane
    rw [State.occupancy, hocc, find_foldl_vacate hnd]
    by_cases hm : lane ∈ job.request.resourceLanes
    · have := h.vacated hfind hheld hm
      rw [if_pos hm, if_pos hm]
      split
      · simp only [Option.getD_none]; omega
      · simpa using this
    · rw [if_neg hm, if_neg hm]; rfl
  refine ⟨fun lane => ?_, fun lane => ?_, fun lane => ?_, fun lane => ?_, fun lane hp => ?_,
    fun i j a b hne ha hb => ?_⟩
  · have hs := h.count lane
    have ho := hoccupancy lane
    rw [State.holders_of_find hfind, Job.holds, hheld, Bool.true_and] at hs
    rw [State.holders_set hj, holds_of_not_held hfree, if_neg (by simp)]
    by_cases hm : lane ∈ job.request.resourceLanes <;> simp [hm] at hs ho <;> omega
  · rw [hocc, find_foldl_vacate hnd]
    split
    · split
      · simp
      · rename_i hne
        simpa using hne
    · exact h.positive lane
  · have := h.limit lane
    have := hoccupancy lane
    rw [hlimit]
    omega
  · rw [hlimit]
    exact h.limited lane
  · rw [hlimit]
    exact h.path lane hp
  · intro lane lane' hl hl' hp hp'
    have hother : ∀ {i : JobId} {a : Job} {lane : Lane}, s'.jobs.find i = some a →
        a.holds lane = true → s.jobs.find i = some a := by
      intro i a lane ha hl
      rw [hj, OrdMap.find_set] at ha
      split at ha
      · cases ha
        rw [holds_of_not_held hfree] at hl
        cases hl
      · exact ha
    exact h.apart i j a b hne (hother ha hl) (hother hb hl') lane lane' hl hl' hp hp'

/-- Every change of the scheduler keeps the lanes in order. -/
theorem Lanes.change {ends : Bool} (h : Lanes s) (hok : JobsOk s) (hc : Change s s' ends) :
    Lanes s' := by
  cases hc with
  | none hf hj =>
    refine h.of_same hf.occupied hf.laneLimits (fun lane => by rw [State.holders, hj]; rfl) ?_
    intro i a ha _
    rw [hj] at ha
    exact ⟨a, ha, fun _ hl => hl⟩
  | update hf hfind hq hj =>
    exact h.of_set hf.occupied hf.laneLimits hfind hj (holds_of_same hq.lanes hq.held)
  | @add id job hocc hlim hiss hnew hok' hfree hj =>
    have hfind : s.jobs.find id = none := by
      cases hf : s.jobs.find id with
      | none => rfl
      | some a => exact absurd (hok id a hf).2 hnew
    refine h.of_same hocc hlim (fun lane => ?_) fun i a ha hl => ?_
    · rw [State.holders_set hj, holds_of_not_held hfree, OrdMap.erase_of_find_eq_none hfind]
      simp [State.holders]
    · rw [hj, OrdMap.find_set] at ha
      split at ha
      · cases ha
        obtain ⟨lane, hl⟩ := hl
        rw [holds_of_not_held hfree] at hl
        cases hl
      · exact ⟨a, ha, fun _ hl => hl⟩
  | @drop id job hf hfind ht hj =>
    have hfree : job.lanesHeld = false := by
      by_contra hne
      have := (hok _ _ hfind).1.held (by simpa using hne)
      rw [ht] at this; cases this
    refine h.of_same hf.occupied hf.laneLimits (fun lane => ?_) fun i a ha _ => ?_
    · rw [State.holders_of_find hfind, holds_of_not_held hfree, State.holders, hj]
      simp
    · rw [hj, OrdMap.find_erase] at ha
      split at ha
      · cases ha
      · exact ⟨a, ha, fun _ hl => hl⟩
  | acquire hlim hiss hfind hheld hfree hocc hq hlive hj =>
    exact h.acquire hlim hfind (hok _ _ hfind).1.lanes hheld hfree hocc hq.lanes hq.held hj
  | release hlim hiss hfind hheld hocc hlanes hfree hend hok' hj =>
    exact h.release hlim hfind (hok _ _ hfind).1.lanes hheld hocc hfree hj
  | close hf hfind hheld hlive hlanes hfree hend hok' hj =>
    exact h.of_set hf.occupied hf.laneLimits hfind hj fun lane => by
      rw [holds_of_not_held hheld, holds_of_not_held hfree]
  | @limit lane n hocc hiss hpos hpath hfit hj hlim =>
    have hlimit : ∀ l, s'.laneLimit l = if l = lane then n else s.laneLimit l := fun l => by
      rw [State.laneLimit, hlim, OrdMap.find_set]
      split <;> rfl
    have hoccupancy : ∀ l, s'.occupancy l = s.occupancy l := fun l => by
      rw [State.occupancy, State.occupancy, hocc]
    refine ⟨fun l => ?_, by rw [hocc]; exact h.positive, fun l => ?_, fun l => ?_,
      fun l hp => ?_, ?_⟩
    · rw [hoccupancy, h.count, State.holders, State.holders, hj]
    · rw [hoccupancy, hlimit]
      split
      · rename_i heq
        rw [heq]
        exact hfit
      · exact h.limit l
    · rw [hlimit]
      split
      · exact hpos
      · exact h.limited l
    · rw [hlimit]
      split
      · rename_i heq
        exact hpath (heq ▸ hp)
      · exact h.path l hp
    · rw [hj]
      exact h.apart

end

/-! ## Runs -/

/-- Jobs that were there go on, and keep their lanes. -/
def Keeps (s s' : State) : Prop :=
  ∀ id job, s.jobs.find id = some job → ∃ job', s'.jobs.find id = some job' ∧
    job'.request.resourceLanes = job.request.resourceLanes ∧
    isTerminal job'.state = isTerminal job.state ∧
    (job.lanesHeld = true → job'.lanesHeld = true)

theorem Keeps.refl (s : State) : Keeps s s := fun _ job h => ⟨job, h, rfl, rfl, id⟩

theorem Keeps.trans {a b c : State} (h : Keeps a b) (h' : Keeps b c) : Keeps a c := by
  intro id job hfind
  obtain ⟨job₁, hfind₁, hl₁, ht₁, hh₁⟩ := h id job hfind
  obtain ⟨job₂, hfind₂, hl₂, ht₂, hh₂⟩ := h' id job₁ hfind₁
  exact ⟨job₂, hfind₂, hl₂.trans hl₁, ht₂.trans ht₁, hh₂ ∘ hh₁⟩

/-- One job is replaced by one that goes on for it. -/
theorem Keeps.of_set {s s' : State} {id : JobId} {job job' : Job}
    (hfind : s.jobs.find id = some job) (hj : s'.jobs = s.jobs.set id job')
    (hl : job'.request.resourceLanes = job.request.resourceLanes)
    (ht : isTerminal job'.state = isTerminal job.state)
    (hh : job.lanesHeld = true → job'.lanesHeld = true) : Keeps s s' := by
  intro i a ha
  rw [hj, OrdMap.find_set]
  by_cases hi : i = id
  · subst hi
    rw [hfind] at ha
    cases ha
    exact ⟨job', if_pos rfl, hl, ht, hh⟩
  · exact ⟨a, (if_neg hi).trans ha, rfl, rfl, fun h => h⟩

theorem Keeps.change {s s' : State} (hok : JobsOk s) (hc : Change s s' false) : Keeps s s' := by
  cases hc with
  | none hf hj => exact fun _ a ha => ⟨a, hj ▸ ha, rfl, rfl, fun h => h⟩
  | update hf hfind hq hj => exact .of_set hfind hj hq.lanes hq.terminal fun h => hq.held.trans h
  | @add id job hocc hlim hiss hnew hok' hfree hj =>
    intro i a ha
    refine ⟨a, ?_, rfl, rfl, fun h => h⟩
    rw [hj, OrdMap.find_set_of_ne]
    · exact ha
    · rintro rfl
      exact hnew (hok _ _ ha).2
  | acquire hlim hiss hfind hheld hfree hocc hq hlive hj =>
    exact .of_set hfind hj hq.lanes hq.terminal fun _ => hq.held
  | limit hocc hiss hpos hpath hfit hj hlim =>
    exact fun _ a ha => ⟨a, hj ▸ ha, rfl, rfl, fun h => h⟩

theorem Keeps.going {s s' : State} (hok : JobsOk s) (hc : Relation.ReflTransGen Going s s') :
    Keeps s s' := by
  induction hc with
  | refl => exact .refl s
  | tail hpre hc ih => exact ih.trans (.change (hok.changes hpre) hc)

theorem Lanes.going {s s' : State} (h : Lanes s) (hok : JobsOk s)
    (hc : Relation.ReflTransGen Going s s') : Lanes s' := by
  induction hc with
  | refl => exact h
  | tail hpre hc ih => exact ih.change (hok.changes hpre) hc

theorem Lanes.new (workerCount maxRetainedJobs : Nat) (journal : Bool) :
    Lanes (.new workerCount maxRetainedJobs journal) where
  count _ := rfl
  positive _ := by simp [State.new, OrdMap.find, OrdMap.empty]
  limit _ := Nat.zero_le _
  limited _ := by simp [State.laneLimit, State.new, OrdMap.find, OrdMap.empty]
  path _ _ := rfl
  apart _ _ _ _ _ ha := by cases ha

theorem Reaches.lanes {fold : Str → Option Str} {s : State} (h : Reaches fold Mild s) :
    Lanes s := by
  induction h with
  | start => exact .new _ _ _
  | act h hp ih =>
    rcases act_changes fold h.jobsOk _ hp with hc | hc
    · exact ih.going h.jobsOk hc
    · exact ih.change h.jobsOk hc

/-- A job that holds its lanes still does so after an action, or it has just become terminal and
each of its lanes has one holder less. -/
def LanesKept (s s' : State) (id : JobId) (job : Job) : Prop :=
  ∃ job', s'.jobs.find id = some job' ∧
    job'.request.resourceLanes = job.request.resourceLanes ∧
    if isTerminal job'.state then
      job'.lanesHeld = false ∧
      ∀ lane ∈ job.request.resourceLanes, s'.occupancy lane + 1 = s.occupancy lane
    else job'.lanesHeld = true

theorem LanesKept.of_keeps {s s' : State} (hok : JobsOk s) {id : JobId} {job : Job}
    (hfind : s.jobs.find id = some job) (hheld : job.lanesHeld = true) (h : Keeps s s') :
    LanesKept s s' id job := by
  obtain ⟨job', hfind', hl, ht, hh⟩ := h id job hfind
  refine ⟨job', hfind', hl, ?_⟩
  rw [ht, (hok _ _ hfind).1.held hheld]
  exact hh hheld

/-- The one change that takes lanes from a job is the end of that job. -/
theorem Lanes.ends {s s' : State} (h : Lanes s) (hok : JobsOk s) (hc : Change s s' true)
    {id : JobId} {job : Job} (hfind : s.jobs.find id = some job) (hheld : job.lanesHeld = true) :
    LanesKept s s' id job := by
  have hlive := (hok _ _ hfind).1.held hheld
  -- The jobs that a change is not about stay as they are.
  have hother : s'.jobs.find id = some job → LanesKept s s' id job := fun hf =>
    ⟨job, hf, rfl, by rw [hlive]; exact hheld⟩
  cases hc with
  | @drop i a hf hfa ht hj =>
    refine hother ?_
    rw [hj, OrdMap.find_erase, if_neg]
    · exact hfind
    · rintro rfl
      rw [hfind] at hfa
      cases hfa
      rw [hlive] at ht
      cases ht
  | @release i a a' hlim hiss hfa ha hocc hlanes hfree hend hok' hj =>
    by_cases hi : id = i
    · subst hi
      rw [hfind] at hfa
      cases hfa
      refine ⟨a', by rw [hj, OrdMap.find_set, if_pos rfl], hlanes, ?_⟩
      rw [if_pos hend]
      refine ⟨hfree, fun lane hm => ?_⟩
      have hv := h.vacated hfind hheld hm
      rw [State.occupancy, hocc, find_foldl_vacate (hok _ _ hfind).1.lanes, if_pos hm]
      split
      · simp only [Option.getD_none]; omega
      · simpa using hv
    · refine hother ?_
      rw [hj, OrdMap.find_set_of_ne hi]
      exact hfind
  | @close i a a' hf hfa ha hlive' hlanes hfree hend hok' hj =>
    refine hother ?_
    rw [hj, OrdMap.find_set_of_ne]
    · exact hfind
    · rintro rfl
      rw [hfind] at hfa
      cases hfa
      rw [hheld] at ha
      cases ha

/-- A terminal job stays so, and stays without lanes. -/
theorem JobsOk.stays_terminal {s s' : State} (hok : JobsOk s)
    (hc : Relation.ReflTransGen Going s s' ∨ Change s s' true) {id : JobId} {job job' : Job}
    (hfind : s.jobs.find id = some job) (ht : isTerminal job.state = true)
    (hfind' : s'.jobs.find id = some job') : isTerminal job'.state = true := by
  rcases hc with hc | hc
  · obtain ⟨a, ha, -, hta, -⟩ := Keeps.going hok hc id job hfind
    rw [hfind'] at ha
    cases ha
    exact hta.trans ht
  · cases hc with
    | @drop i a hf hfa hta hj =>
      rw [hj, OrdMap.find_erase] at hfind'
      split at hfind'
      · cases hfind'
      · rw [hfind] at hfind'
        cases hfind'
        exact ht
    | @release i a a' hlim hiss hfa ha hocc hlanes hfree hend hok' hj =>
      rw [hj, OrdMap.find_set] at hfind'
      split at hfind'
      · cases hfind'
        exact hend
      · rw [hfind] at hfind'
        cases hfind'
        exact ht
    | @close i a a' hf hfa ha hlive' hlanes hfree hend hok' hj =>
      rw [hj, OrdMap.find_set] at hfind'
      split at hfind'
      · cases hfind'
        exact hend
      · rw [hfind] at hfind'
        cases hfind'
        exact ht

/-- In every state of every run, the occupancy of a lane is the number of jobs that hold it, within
its limit, and no two jobs hold paths of which one is the other or above it. A job that holds its
lanes keeps them in every step, save the one that ends it and gives each of them back; a job that
has ended holds none, then and later. -/
theorem lane_exclusion (fold : Str → Option Str) {s : State} (h : Reaches fold Mild s) :
    (∀ lane, s.occupancy lane = s.holders lane ∧ s.occupancy lane ≤ s.laneLimit lane) ∧
    (∀ i j a b, i ≠ j → s.jobs.find i = some a → s.jobs.find j = some b →
      ∀ lane lane', a.holds lane = true → b.holds lane' = true → isPathLane lane = true →
        isPathLane lane' = true → ¬ Overlap lane lane') ∧
    ∀ action, Mild s action → ∀ id job, s.jobs.find id = some job →
      (job.lanesHeld = true → LanesKept s (s.act fold action) id job) ∧
      (isTerminal job.state = true → job.lanesHeld = false ∧
        ∀ job', (s.act fold action).jobs.find id = some job' →
          isTerminal job'.state = true ∧ job'.lanesHeld = false) := by
  have hok := h.jobsOk
  have hidle : ∀ {s : State} (_ : JobsOk s) {id job}, s.jobs.find id = some job →
      isTerminal job.state = true → job.lanesHeld = false := by
    intro s hok id job hfind ht
    by_contra hne
    have := (hok _ _ hfind).1.held (by simpa using hne)
    rw [ht] at this
    cases this
  refine ⟨fun lane => ⟨h.lanes.count lane, h.lanes.limit lane⟩, h.lanes.apart,
    fun action hmild id job hfind => ?_⟩
  have hc := act_changes fold hok action hmild
  refine ⟨fun hheld => ?_, fun ht => ⟨hidle hok hfind ht, fun job' hfind' => ?_⟩⟩
  · rcases hc with hc | hc
    · exact .of_keeps hok hfind hheld (.going hok hc)
    · exact h.lanes.ends hok hc hfind hheld
  · have ht' := hok.stays_terminal hc hfind ht hfind'
    exact ⟨ht', hidle (Reaches.jobsOk (.act h hmild)) hfind' ht'⟩

/-- `c:\\a`, as a lane. -/
def outerLane : Lane := pathPrefix ++ [99, colon, backslash, 97]

/-- `c:\\a\\b`, as a lane. -/
def innerLane : Lane := outerLane ++ [backslash, 98]

/-- Two jobs on paths of which one is above the other, and both workers. -/
def nestedRun : State :=
  [Action.submit [1] true false { resourceLanes := [outerLane] },
    .submit [2] true false { resourceLanes := [innerLane] }, .pick 0, .pick 0].foldl
    (State.act some) (.new 2 16 false)

theorem nestedRun_reaches : Reaches some Mild nestedRun :=
  .run (.start 2 16 false) (by simp [Mild])

/-- The outer job is run, the inner one waits for it. -/
theorem lane_exclusion_nested :
    nestedRun.holders outerLane = 1 ∧ nestedRun.holders innerLane = 0 ∧
      nestedRun.occupancy outerLane = nestedRun.holders outerLane :=
  ⟨by decide +kernel, by decide +kernel, ((lane_exclusion some nestedRun_reaches).1 outerLane).1⟩

end Hc.Operations
