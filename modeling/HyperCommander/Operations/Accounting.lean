import HyperCommander.Operations.Lifecycle

/-!
# What a job has on record

The outcomes of a job are the rows of its store if it has one, else those in memory; the counters
and the rows that are shown follow them.

* `Accounted`: the counters are the histogram of the rows, and of the outcomes that could not be
  written.
* `record_accounted`, `recordLate_accounted`: recording keeps this.
-/

namespace Hc.Operations

open List Storage Outcome Relation

/-! ## Rows and counters -/

/-- The counter of a status. -/
def JobSnapshot.counter (s : JobSnapshot) : ItemStatus → Nat
  | .completed => s.completedItems
  | .skipped => s.skippedItems
  | .failed => s.failedItems

/-- The rows on record. -/
def JobResult.ledger (result : JobResult) : List ItemOutcome := result.outcomes.getD result.items

/-- How many rows have a status. -/
def tally (rows : List ItemOutcome) (status : ItemStatus) : Nat := rows.countP (·.status = status)

/-- The counters and what is shown follow the rows on record; `lost` could not be written. -/
structure Accounted (result : JobResult) (lost : List ItemOutcome) : Prop where
  counts : ∀ status, result.snapshot.counter status = tally (result.ledger ++ lost) status
  shown : ∀ rows, result.outcomes = some rows → lost = [] → result.items = rows.take previewLimit

/-- Rows are added at the end, and replaced by rows of the same item with every mark that they
had. -/
def Grows (rows rows' : List ItemOutcome) : Prop :=
  ∀ (i : Nat) old, rows[i]? = some old → ∃ new, rows'[i]? = some new ∧ Updates old new

theorem JobSnapshot.counter_count (f : Nat → Nat) (s : JobSnapshot) (status st : ItemStatus) :
    (s.count f status).counter st = if st = status then f (s.counter st) else s.counter st := by
  cases status <;> cases st <;> rfl

theorem tally_append (rows rows' : List ItemOutcome) (status : ItemStatus) :
    tally (rows ++ rows') status = tally rows status + tally rows' status :=
  countP_append

theorem tally_singleton (item : ItemOutcome) (status : ItemStatus) :
    tally [item] status = if item.status = status then 1 else 0 := by
  unfold tally
  rw [countP_singleton]
  simp only [decide_eq_true_eq]

theorem tally_set {rows : List ItemOutcome} {row : Nat} {old : ItemOutcome} (new : ItemOutcome)
    (h : rows[row]? = some old) (status : ItemStatus) :
    tally (rows.set row new) status + (if old.status = status then 1 else 0) =
      tally rows status + (if new.status = status then 1 else 0) := by
  obtain ⟨hlt, rfl⟩ := List.getElem?_eq_some_iff.mp h
  have hpos : (if rows[row].status = status then 1 else 0) ≤ tally rows status := by
    split
    · rename_i hs
      exact countP_pos_iff.mpr ⟨_, getElem_mem hlt, by simpa using hs⟩
    · exact Nat.zero_le _
  unfold tally at *
  rw [countP_set hlt]
  simp only [decide_eq_true_eq]
  omega

theorem Updates.refl (item : ItemOutcome) : Updates item item := ⟨rfl, fun h => h, fun h => h⟩

theorem Updates.trans {a b c : ItemOutcome} (h : Updates a b) (h' : Updates b c) : Updates a c :=
  ⟨h.1.trans h'.1, fun h1 => h'.2.1 (h.2.1 h1), fun h1 => h'.2.2 (h.2.2 h1)⟩

namespace Grows

variable {rows rows' rows'' : List ItemOutcome}

theorem refl (rows : List ItemOutcome) : Grows rows rows := fun _ old h => ⟨old, h, .refl old⟩

theorem trans (h : Grows rows rows') (h' : Grows rows' rows'') : Grows rows rows'' := by
  intro i old hold
  obtain ⟨mid, hmid, hu⟩ := h i old hold
  obtain ⟨new, hnew, hu'⟩ := h' i mid hmid
  exact ⟨new, hnew, hu.trans hu'⟩

theorem append (rows added : List ItemOutcome) : Grows rows (rows ++ added) := by
  intro i old h
  refine ⟨old, ?_, .refl old⟩
  rw [List.getElem?_append_left (List.getElem?_eq_some_iff.mp h).1]
  exact h

theorem set {row : Nat} {old new : ItemOutcome} (h : rows[row]? = some old) (hu : Updates old new) :
    Grows rows (rows.set row new) := by
  intro i other hi
  by_cases hrow : row = i
  · subst hrow
    obtain rfl := Option.some.inj (h.symm.trans hi)
    exact ⟨new, List.getElem?_set_self (List.getElem?_eq_some_iff.mp h).1, hu⟩
  · exact ⟨other, by rw [getElem?_set_ne hrow]; exact hi, .refl other⟩

end Grows

/-! ## Outcomes that are added -/

/-- Outcomes are counted and shown one by one. -/
def addAll (result : JobResult) (items : List ItemOutcome) : JobResult :=
  items.foldl (fun result item =>
    showItem { result with snapshot := result.snapshot.count (· + 1) item.status } item) result

theorem showItem_outcomes (result : JobResult) (item : ItemOutcome) :
    (showItem result item).outcomes = result.outcomes := by
  unfold showItem
  split <;> rfl

theorem addAll_outcomes (result : JobResult) (items : List ItemOutcome) :
    (addAll result items).outcomes = result.outcomes := by
  induction items generalizing result with
  | nil => rfl
  | cons item rest ih => exact (ih _).trans (showItem_outcomes _ _)

theorem addAll_counter (result : JobResult) (items : List ItemOutcome) (status : ItemStatus) :
    (addAll result items).snapshot.counter status =
      result.snapshot.counter status + tally items status := by
  induction items generalizing result with
  | nil => rfl
  | cons item rest ih =>
    refine (ih _).trans ?_
    rw [showItem_snapshot, JobSnapshot.counter_count, ← singleton_append, tally_append,
      tally_singleton]
    by_cases h : status = item.status
    · rw [if_pos h, if_pos h.symm, Nat.add_assoc]
    · rw [if_neg h, if_neg (Ne.symm h), Nat.zero_add]

theorem addAll_items_of_none {result : JobResult} (ho : result.outcomes = none)
    (items : List ItemOutcome) : (addAll result items).items = result.items ++ items := by
  induction items generalizing result with
  | nil => exact (append_nil _).symm
  | cons item rest ih =>
    have ih := @ih (showItem { result with
      snapshot := result.snapshot.count (· + 1) item.status } item)
      ((showItem_outcomes _ _).trans ho)
    refine ih.trans ?_
    unfold showItem
    rw [if_pos (.inl (by rw [ho]; rfl)), append_assoc, singleton_append]

theorem addAll_items_of_some {result : JobResult} {rows : List ItemOutcome}
    (ho : result.outcomes = some rows) (items : List ItemOutcome) : (addAll result items).items =
      result.items ++ items.take (previewLimit - result.items.length) := by
  induction items generalizing result with
  | nil => simp [addAll]
  | cons item rest ih =>
    have ih := @ih (showItem { result with
      snapshot := result.snapshot.count (· + 1) item.status } item)
      ((showItem_outcomes _ _).trans ho)
    refine ih.trans ?_
    unfold showItem
    by_cases hlt : result.items.length < previewLimit
    · rw [if_pos (.inr hlt)]
      obtain ⟨n, hn⟩ : ∃ n, previewLimit - result.items.length = n + 1 :=
        ⟨previewLimit - result.items.length - 1, by omega⟩
      rw [hn, take_succ_cons, append_assoc, singleton_append]
      rw [length_append, length_singleton,
        show previewLimit - (result.items.length + 1) = n by omega]
    · rw [if_neg (by rw [ho, not_or]; exact ⟨by simp, hlt⟩)]
      rw [show previewLimit - result.items.length = 0 by omega, take_zero, take_zero]

namespace Accounted

variable {result : JobResult} {lost : List ItemOutcome}

/-- Outcomes in memory. -/
theorem add_of_none (h : Accounted result lost) (ho : result.outcomes = none)
    (items : List ItemOutcome) : Accounted (addAll result items) lost ∧
      Grows result.ledger (addAll result items).ledger := by
  have hl : (addAll result items).ledger = result.ledger ++ items := by
    unfold JobResult.ledger
    rw [addAll_outcomes, ho, addAll_items_of_none ho]
    rfl
  refine ⟨⟨fun status => ?_, fun rows hrows => ?_⟩, by rw [hl]; exact .append _ _⟩
  · rw [addAll_counter, h.counts, hl]
    simp only [tally_append]
    omega
  · rw [addAll_outcomes, ho] at hrows
    cases hrows

/-- Outcomes in a store, as far as they can be written. -/
theorem add_of_some (h : Accounted result lost) {rows : List ItemOutcome}
    (ho : result.outcomes = some rows) (stored gone : List ItemOutcome) :
    Accounted (addAll { result with outcomes := some (rows ++ stored) } (stored ++ gone))
        (lost ++ gone) ∧
      Grows result.ledger
        (addAll { result with outcomes := some (rows ++ stored) } (stored ++ gone)).ledger := by
  have hbefore : result.ledger = rows := by rw [JobResult.ledger, ho]; rfl
  have hl : (addAll { result with outcomes := some (rows ++ stored) } (stored ++ gone)).ledger =
      rows ++ stored := by
    unfold JobResult.ledger
    rw [addAll_outcomes]
    rfl
  refine ⟨⟨fun status => ?_, fun rows' hrows' hnone => ?_⟩, ?_⟩
  · rw [addAll_counter, hl]
    have hcount := h.counts status
    rw [hbefore] at hcount
    simp only [tally_append] at hcount ⊢
    omega
  · obtain ⟨rfl, rfl⟩ := append_eq_nil_iff.mp hnone
    rw [addAll_outcomes] at hrows'
    obtain rfl := Option.some.inj hrows'
    have hitems := h.shown rows ho rfl
    rw [addAll_items_of_some rfl, append_nil, hitems, take_append, length_take]
    congr 2
    omega
  · rw [hl, hbefore]
    exact .append _ _

/-- An outcome takes the place of an earlier one of its item. -/
theorem replace (h : Accounted result []) {row : Nat} {old new : ItemOutcome}
    (hold : result.ledger[row]? = some old) (hu : Updates old new) {result' : JobResult}
    (hs : result'.snapshot = (result.snapshot.count decrement old.status).count (· + 1) new.status)
    (hi : result'.items = result.items.set row new)
    (ho : result'.outcomes = result.outcomes.map (·.set row new)) :
    Accounted result' [] ∧ Grows result.ledger result'.ledger := by
  have hl : result'.ledger = result.ledger.set row new := by
    unfold JobResult.ledger
    rw [ho, hi]
    cases result.outcomes <;> rfl
  refine ⟨⟨fun status => ?_, fun rows hrows _ => ?_⟩, by rw [hl]; exact .set hold hu⟩
  · have hcount := h.counts status
    have hset := tally_set new hold status
    have hpos : old.status = status → tally result.ledger status ≠ 0 := fun hs => by
      obtain ⟨hlt, rfl⟩ := List.getElem?_eq_some_iff.mp hold
      exact Nat.pos_iff_ne_zero.mp (countP_pos_iff.mpr ⟨_, getElem_mem hlt, by simpa using hs⟩)
    rw [append_nil] at hcount ⊢
    rw [hs, hl, JobSnapshot.counter_count, JobSnapshot.counter_count]
    by_cases h1 : status = old.status
    · rw [if_pos h1.symm] at hset
      have hpos := hpos h1.symm
      have hdec : decrement (tally result.ledger status) = tally result.ledger status - 1 :=
        if_neg hpos
      rw [if_pos h1, hcount, hdec]
      by_cases h2 : status = new.status
      · rw [if_pos h2.symm] at hset
        rw [if_pos h2]
        omega
      · rw [if_neg (Ne.symm h2)] at hset
        rw [if_neg h2]
        omega
    · rw [if_neg (Ne.symm h1)] at hset
      rw [if_neg h1, hcount]
      by_cases h2 : status = new.status
      · rw [if_pos h2.symm] at hset
        rw [if_pos h2]
        omega
      · rw [if_neg (Ne.symm h2)] at hset
        rw [if_neg h2]
        omega
  · rw [ho] at hrows
    obtain ⟨before, hbefore, rfl⟩ := Option.map_eq_some_iff.mp hrows
    rw [hi, h.shown before hbefore rfl, take_set]

/-- Nothing that is on record changes. -/
theorem congr (h : Accounted result lost) {result' : JobResult}
    (hs : result'.snapshot.counter = result.snapshot.counter) (hi : result'.items = result.items)
    (ho : result'.outcomes = result.outcomes) : Accounted result' lost where
  counts status := by
    rw [hs, h.counts, JobResult.ledger, JobResult.ledger, ho, hi]
  shown rows hrows hl := by
    rw [ho] at hrows
    rw [hi]
    exact h.shown rows hrows hl

end Accounted

/-! ## Recording a step -/

/-- The loop over a batch writes the outcomes up to the first that it cannot write. -/
theorem appendItems_split (limit : Nat) (fault : Nat → Option Error)
    (rows items : List ItemOutcome) :
    ∃ stored gone, items = stored ++ gone ∧
      (appendItems limit fault rows items).1 = rows ++ stored ∧
      ((appendItems limit fault rows items).2 = none ↔ gone = []) := by
  induction items generalizing rows with
  | nil => exact ⟨[], [], rfl, (append_nil _).symm, ⟨fun _ => rfl, fun _ => rfl⟩⟩
  | cons item rest ih =>
    have hstop : ∀ e, ∃ stored gone, item :: rest = stored ++ gone ∧ rows = rows ++ stored ∧
        ((some e : Option Error) = none ↔ gone = []) := fun e =>
      ⟨[], item :: rest, rfl, (append_nil _).symm, nofun, nofun⟩
    unfold appendItems
    split
    · exact hstop _
    split
    · exact hstop _
    · obtain ⟨stored, gone, rfl, h1, h2⟩ := ih (rows ++ [item])
      exact ⟨item :: stored, gone, rfl, by rw [h1, append_assoc]; rfl, h2⟩

theorem appendLate_split (fault : Nat → Option Error) (rows items : List ItemOutcome) :
    ∃ stored gone, items = stored ++ gone ∧ (appendLate fault rows items).1 = rows ++ stored ∧
      ((appendLate fault rows items).2 = none ↔ gone = []) := by
  induction items generalizing rows with
  | nil => exact ⟨[], [], rfl, (append_nil _).symm, ⟨fun _ => rfl, fun _ => rfl⟩⟩
  | cons item rest ih =>
    unfold appendLate
    split
    · exact ⟨[], item :: rest, rfl, (append_nil _).symm, nofun,
        nofun⟩
    · obtain ⟨stored, gone, rfl, h1, h2⟩ := ih (rows ++ [item])
      exact ⟨item :: stored, gone, rfl, by rw [h1, append_assoc]; rfl, h2⟩

/-- The result with the progress that came with it. -/
def JobResult.noted (result : JobResult) : Option JobProgress → JobResult
  | none => result
  | some progress => { result with snapshot.progress := progress }

theorem JobResult.noted_books (result : JobResult) (progress : Option JobProgress) :
    (result.noted progress).snapshot.counter = result.snapshot.counter ∧
      (result.noted progress).items = result.items ∧
      (result.noted progress).outcomes = result.outcomes := by
  cases progress with
  | none => exact ⟨rfl, rfl, rfl⟩
  | some progress => exact ⟨funext fun status => by cases status <;> rfl, rfl, rfl⟩

/-- The store of the job does not take a batch whole. -/
def Unwritten (limit : Nat) (fault : Nat → Option Error) (result : JobResult)
    (items : List ItemOutcome) : Prop :=
  ∃ rows, result.outcomes = some rows ∧ (appendItems limit fault rows items).2 ≠ none

theorem recordLate_of_none {result : JobResult} (ho : result.outcomes = none)
    (fault : Nat → Option Error) (effects : CompletedEffects) : recordLate fault result effects =
      (addAll (result.noted effects.progress) effects.items, []) := by
  obtain ⟨snapshot, items, cleanup, outcomes⟩ := result
  cases ho
  unfold recordLate
  cases effects.progress <;> rfl

theorem recordLate_of_some {result : JobResult} {rows : List ItemOutcome}
    (ho : result.outcomes = some rows) (fault : Nat → Option Error) (effects : CompletedEffects) :
    recordLate fault result effects =
      (addAll { result.noted effects.progress with
        outcomes := some (appendLate fault rows effects.items).1 } effects.items,
        (appendLate fault rows effects.items).2.toList) := by
  unfold recordLate
  rw [ho]
  cases effects.progress <;> rfl

/-- The store of the job does not take the late effects whole. -/
def UnwrittenLate (fault : Nat → Option Error) (result : JobResult) (items : List ItemOutcome) :
    Prop :=
  ∃ rows, result.outcomes = some rows ∧ (appendLate fault rows items).2 ≠ none

/-- The late effects are recorded: those that were not written make the cleanup fail. -/
theorem recordLate_accounted {result : JobResult} {lost : List ItemOutcome}
    (h : Accounted result lost) (fault : Nat → Option Error) (effects : CompletedEffects) :
    ∃ gone, gone <:+ effects.items ∧
      Accounted (recordLate fault result effects).1 (lost ++ gone) ∧
      Grows result.ledger (recordLate fault result effects).1.ledger ∧
      (gone ≠ [] → (recordLate fault result effects).2 ≠ [] ∧
        UnwrittenLate fault result effects.items) := by
  obtain ⟨h1, h2, h3⟩ := result.noted_books effects.progress
  have hbase := h.congr h1 h2 h3
  have hl : result.ledger = (result.noted effects.progress).ledger := by
    rw [JobResult.ledger, JobResult.ledger, h2, h3]
  cases ho : result.outcomes with
  | none =>
    rw [recordLate_of_none ho, hl]
    obtain ⟨hacc, hgrows⟩ := hbase.add_of_none (h3.trans ho) effects.items
    exact ⟨[], nil_suffix, by rw [append_nil]; exact hacc, hgrows, fun h => absurd rfl h⟩
  | some rows =>
    rw [recordLate_of_some ho, hl]
    obtain ⟨stored, gone, hitems, hrows, hnone⟩ := appendLate_split fault rows effects.items
    obtain ⟨hacc, hgrows⟩ := hbase.add_of_some (h3.trans ho) stored gone
    rw [← hitems] at hacc hgrows
    rw [hrows]
    refine ⟨gone, ⟨stored, hitems.symm⟩, hacc, hgrows, fun hgone => ?_⟩
    cases he : (appendLate fault rows effects.items).2 with
    | none => exact absurd (hnone.mp he) hgone
    | some e => exact ⟨cons_ne_nil _ _, rows, ho, by rw [he]; exact nofun⟩

theorem recordLate_counter (fault : Nat → Option Error) (result : JobResult)
    (effects : CompletedEffects) (status : ItemStatus) :
    (recordLate fault result effects).1.snapshot.counter status =
      result.snapshot.counter status + tally effects.items status := by
  obtain ⟨h1, -, -⟩ := result.noted_books effects.progress
  cases ho : result.outcomes with
  | none =>
    rw [recordLate_of_none ho, addAll_counter, h1]
  | some rows =>
    rw [recordLate_of_some ho, addAll_counter]
    rw [h1]

/-! ## One step -/

/-- What becomes of the last part of `record`, which counts what the step reports. -/
def account (limit : Nat) (previous : Option ItemOutcome) (result : JobResult) (step : JobStep) :
    JobResult × JobStep :=
  let result := result.noted step.progress
  let step := admitReplacement result step
  accountAll limit previous result step (step.item.toList ++ step.items)

theorem record_eq (limit : Nat) (fault : Nat → Option Error) (result : JobResult) (step : JobStep) :
    record limit fault result step =
      let batch := storeBatch limit fault result (admitBatch step)
      let single := storeItem limit fault batch.1 batch.2
      account limit single.2.2 single.1 (admitRetry single.2.1) := by
  cases (admitRetry (storeItem limit fault (storeBatch limit fault result (admitBatch step)).1
    (storeBatch limit fault result (admitBatch step)).2).2.1).progress <;> rfl

theorem JobResult.noted_ledger (result : JobResult) (progress : Option JobProgress) :
    (result.noted progress).ledger = result.ledger := by
  obtain ⟨-, h2, h3⟩ := result.noted_books progress
  rw [JobResult.ledger, JobResult.ledger, h2, h3]

theorem Accounted.noted {result : JobResult} {lost : List ItemOutcome} (h : Accounted result lost)
    (progress : Option JobProgress) : Accounted (result.noted progress) lost := by
  obtain ⟨h1, h2, h3⟩ := result.noted_books progress
  exact h.congr h1 h2 h3

/-- What a step leaves on record. -/
structure Booked (result result' : JobResult) (lost : List ItemOutcome) : Prop where
  accounted : Accounted result' lost
  grows : Grows result.ledger result'.ledger

section

variable {limit : Nat} {previous : Option ItemOutcome} {result : JobResult} {step : JobStep}

/-- A step that reports nothing. -/
theorem account_nothing (h : Accounted result []) (hitem : step.item = none)
    (hitems : step.items = []) : Booked result (account limit previous result step).1 [] := by
  have hreplace : (admitReplacement (result.noted step.progress) step).item = none ∧
      (admitReplacement (result.noted step.progress) step).items = [] := by
    unfold admitReplacement
    split
    · rw [hitem]
      exact ⟨rfl, rfl⟩
    · exact ⟨hitem, hitems⟩
  unfold account
  dsimp only
  rw [hreplace.1, hreplace.2]
  exact ⟨h.noted _, by rw [← result.noted_ledger step.progress]; exact .refl _⟩

theorem accountAll_single (item : ItemOutcome) : accountAll limit previous result step [item] =
    accountItem limit previous result step item := rfl

theorem accountAll_of_none (ho : result.outcomes = none) (hr : step.replaceItem = none)
    (items : List ItemOutcome) :
    ∃ taken, (accountAll limit previous result step items).1 = addAll result taken := by
  induction items generalizing result step with
  | nil => exact ⟨[], rfl⟩
  | cons item rest ih =>
    unfold accountAll accountItem
    split
    · exact ih ho hr
    · rw [hr]
      obtain ⟨taken, ht⟩ := @ih (showItem { result with
        snapshot := result.snapshot.count (· + 1) item.status } item) step
        ((showItem_outcomes _ _).trans ho) hr
      exact ⟨item :: taken, ht⟩

theorem accountAll_of_some {rows : List ItemOutcome} (ho : result.outcomes = some rows)
    (hr : step.replaceItem = none) (items : List ItemOutcome) :
    accountAll limit previous result step items = (addAll result items, step) := by
  induction items generalizing result with
  | nil => rfl
  | cons item rest ih =>
    unfold accountAll accountItem
    rw [if_neg (by rw [ho]; exact fun h => by cases h.1), hr]
    exact @ih (showItem { result with
      snapshot := result.snapshot.count (· + 1) item.status } item)
      ((showItem_outcomes _ _).trans ho)

/-- A replacement that was admitted, and stored if the job has a store. -/
theorem account_replacement {before : JobResult} (h : Accounted before [])
    (hs : result.snapshot = before.snapshot) (hi : result.items = before.items) {row : Nat}
    {old new : ItemOutcome} (ho : result.outcomes = before.outcomes.map (·.set row new))
    (hitem : step.item = some new) (hitems : step.items = []) (hr : step.replaceItem = some row)
    (hstays : admitReplacement (result.noted step.progress) step = step)
    (hp : (previous <|> result.items[row]?) = some old) (hold : before.ledger[row]? = some old)
    (hu : Updates old new) : Booked before (account limit previous result step).1 [] := by
  obtain ⟨-, h2, h3⟩ := result.noted_books step.progress
  obtain ⟨-, g2, g3⟩ := before.noted_books step.progress
  have hsnap : (result.noted step.progress).snapshot = (before.noted step.progress).snapshot := by
    cases step.progress with
    | none => exact hs
    | some progress =>
      show { result.snapshot with progress := progress } =
        { before.snapshot with progress := progress }
      rw [hs]
  rw [← before.noted_ledger step.progress] at hold
  unfold account
  dsimp only
  rw [hstays, hitem, hitems, show (some new).toList ++ [] = [new] from rfl, accountAll_single]
  unfold accountItem
  rw [if_neg (by rw [hr]; exact fun h => by cases h.2.1), hr, h2]
  dsimp only
  rw [hp]
  obtain ⟨hacc, hgrows⟩ := @Accounted.replace (before.noted step.progress)
    (h.noted step.progress) row old new hold hu { result.noted step.progress with
      snapshot := ((result.noted step.progress).snapshot.count decrement old.status).count (· + 1)
        new.status
      items := result.items.set row new }
    (by rw [hsnap]) (by rw [g2, hi]) (by rw [g3]; exact h3.trans ho)
  rw [before.noted_ledger] at hgrows
  exact ⟨hacc, hgrows⟩

end

/-- The store was asked for one outcome or for a replacement. -/
theorem storeItem_account {limit : Nat} {fault : Nat → Option Error} {result : JobResult}
    {step : JobStep} (h : Accounted result []) (hitems : step.items = []) :
    Booked result (account limit (storeItem limit fault result step).2.2
      (storeItem limit fault result step).1
      (admitRetry (storeItem limit fault result step).2.1)).1 [] := by
  have hfail : ∀ e, Booked result (account limit none result (admitRetry (.failed e))).1 [] :=
    fun e => account_nothing h rfl rfl
  have hnothing : step.item = none →
      Booked result (account limit none result (admitRetry step)).1 [] := by
    intro hnone
    unfold admitRetry
    split
    · exact account_nothing h rfl rfl
    · exact account_nothing h hnone hitems
  unfold storeItem
  cases ho : result.outcomes with
  | none =>
    dsimp only
    unfold admitRetry
    split
    · exact account_nothing h rfl rfl
    -- Without a store the rows in memory decide.
    cases hitem : step.item with
    | none => exact account_nothing h hitem hitems
    | some new =>
      obtain ⟨h1, h2, h3⟩ := result.noted_books step.progress
      cases hr : step.replaceItem with
      | none =>
        obtain ⟨taken, ht⟩ := @accountAll_of_none limit none (result.noted step.progress) step
          (h3.trans ho) hr (step.item.toList ++ step.items)
        obtain ⟨hacc, hgrows⟩ := (h.noted step.progress).add_of_none (h3.trans ho) taken
        rw [result.noted_ledger] at hgrows
        unfold account admitReplacement
        dsimp only
        rw [h3, ho, hr]
        rw [ht]
        exact ⟨hacc, hgrows⟩
      | some row =>
        have hl : result.ledger = result.items := by rw [JobResult.ledger, ho]; rfl
        have hrefuse : admitReplacement (result.noted step.progress) step = .failed invalidUpdate →
            Booked result (account limit none result step).1 [] := fun hr => by
          unfold account
          dsimp only
          rw [hr]
          exact ⟨h.noted _, by rw [← result.noted_ledger step.progress]; exact .refl _⟩
        cases hold : result.items[row]? with
        | none =>
          refine hrefuse ?_
          unfold admitReplacement
          rw [h3, ho, hr, hitem, h2]
          dsimp only
          rw [hold]
        | some old =>
          have hstays : admitReplacement (result.noted step.progress) step =
              if Updates old new then step else .failed invalidUpdate := by
            unfold admitReplacement
            rw [h3, ho, hr, hitem, h2]
            dsimp only
            rw [hold]
          by_cases hu : Updates old new
          · rw [if_pos hu] at hstays
            exact account_replacement h rfl rfl (by rw [ho]; rfl) hitem hitems hr hstays hold
              (by rw [hl]; exact hold) hu
          · rw [if_neg hu] at hstays
            exact hrefuse hstays
  | some rows =>
    dsimp only
    split
    · rename_i hnone
      exact hnothing (by simpa using hnone.1)
    split
    · exact hfail _
    rename_i hretry
    have hstays : admitRetry step = step := if_neg fun h => hretry h.1
    have hkeep : ∀ {result' : JobResult}, result'.outcomes.isSome = true →
        admitReplacement (result'.noted step.progress) step = step := by
      intro result' hsome
      obtain ⟨rows', ho'⟩ := Option.isSome_iff_exists.mp hsome
      unfold admitReplacement
      rw [(result'.noted_books step.progress).2.2, ho']
    have hl : result.ledger = rows := by rw [JobResult.ledger, ho]; rfl
    cases hr : step.replaceItem with
    | some row =>
      dsimp only
      cases fault row with
      | some e => exact hfail e
      | none =>
        cases hitem : step.item with
        | none => exact hfail _
        | some new =>
          cases hold : rows[row]? with
          | none => exact hfail _
          | some old =>
            dsimp only
            by_cases hu : Updates old new
            · rw [if_pos hu]
              rw [hstays]
              exact account_replacement h rfl rfl (by rw [ho]; rfl) hitem hitems hr (hkeep rfl) rfl
                (by rw [hl]; exact hold) hu
            · rw [if_neg hu]
              exact hfail _
    | none =>
      cases hitem : step.item with
      | none => exact hnothing hitem
      | some new =>
        dsimp only
        split
        · exact hfail _
        cases fault rows.length with
        | some e => exact hfail e
        | none =>
          rw [hstays]
          obtain ⟨-, -, h3⟩ := result.noted_books step.progress
          obtain ⟨hacc, hgrows⟩ := (h.noted step.progress).add_of_some (h3.trans ho) [new] []
          rw [result.noted_ledger] at hgrows
          unfold account
          dsimp only
          rw [hkeep rfl, hitem, hitems, accountAll_of_some
            ((JobResult.noted_books _ _).2.2 : _ = some (rows ++ [new])) hr]
          have hmove : JobResult.noted { result with outcomes := some (rows ++ [new]) }
            step.progress =
              { result.noted step.progress with outcomes := some (rows ++ [new]) } := by
            cases step.progress <;> rfl
          rw [hmove]
          exact ⟨hacc, hgrows⟩

/-- What a job is told by one step is on record; a batch that is not written whole fails the
step. -/
theorem record_accounted {limit : Nat} {fault : Nat → Option Error} {result : JobResult}
    {step : JobStep} (h : Accounted result []) : ∃ lost,
      Booked result (record limit fault result step).1 lost ∧
      (lost ≠ [] → lost <:+ step.items ∧ Unwritten limit fault result step.items ∧
        (record limit fault result step).2.next = .failed ∧
        (record limit fault result step).2.retry = false) := by
  rw [record_eq]
  dsimp only
  by_cases hitems : (admitBatch step).items = []
  · have hbatch : storeBatch limit fault result (admitBatch step) = (result, admitBatch step) := by
      unfold storeBatch
      rw [hitems]
      cases ho : result.outcomes with
      | none => rfl
      | some rows =>
        dsimp only [appendItems]
        rw [← ho]
    rw [hbatch]
    exact ⟨[], storeItem_account h hitems, fun hne => absurd rfl hne⟩
  -- A batch comes alone.
  have hbatch : admitBatch step = step ∧ step.item = none ∧ step.replaceItem = none ∧
      step.retry = false := by
    unfold admitBatch at hitems ⊢
    split at hitems
    · exact absurd rfl hitems
    · rename_i hok
      have hok : ¬ (step.item.isSome = true ∨ step.replaceItem.isSome = true ∨ step.retry = true ∨
          step.items.length > batchLimit) := fun hor => hok ⟨hitems, hor⟩
      simp only [not_or, Bool.not_eq_true, Option.isSome_eq_false_iff, Option.isNone_iff_eq_none]
        at hok
      exact ⟨if_neg fun h => by simp [hok] at h, hok.1, hok.2.1, hok.2.2.1⟩
  obtain ⟨hstays, hitem, hr, hretry⟩ := hbatch
  rw [hstays]
  have hstore : ∀ (result' : JobResult) (step' : JobStep), step'.item = none →
      step'.replaceItem = none → storeItem limit fault result' step' = (result', step', none) := by
    intro result' step' h1 h2
    unfold storeItem
    rw [h1, h2]
    cases result'.outcomes <;> rfl
  have hagain : ∀ step' : JobStep, step'.retry = false → admitRetry step' = step' :=
    fun step' h1 => if_neg fun h2 => by rw [h1] at h2; cases h2.1
  have hreplace : ∀ (result' : JobResult) (step' : JobStep), step'.replaceItem = none →
      admitReplacement result' step' = step' := by
    intro result' step' h1
    unfold admitReplacement
    rw [h1]
    cases result'.outcomes <;> rfl
  cases ho : result.outcomes with
  | none =>
    have hb : storeBatch limit fault result step = (result, step) := by
      unfold storeBatch
      rw [ho]
    rw [hb, hstore result step hitem hr]
    rw [hagain step hretry, account]
    rw [hreplace _ step hr]
    obtain ⟨-, -, h3⟩ := result.noted_books step.progress
    obtain ⟨taken, ht⟩ := @accountAll_of_none limit none (result.noted step.progress) step
      (h3.trans ho) hr (step.item.toList ++ step.items)
    obtain ⟨hacc, hgrows⟩ := (h.noted step.progress).add_of_none (h3.trans ho) taken
    rw [result.noted_ledger] at hgrows
    rw [ht]
    exact ⟨[], ⟨hacc, hgrows⟩, fun hne => absurd rfl hne⟩
  | some rows =>
    obtain ⟨stored, gone, hsplit, hrows, hnone⟩ := appendItems_split limit fault rows step.items
    obtain ⟨step', hb, hp, h1, h2, h3, h4, hfail⟩ : ∃ step', storeBatch limit fault result step =
        ({ result with outcomes := some (rows ++ stored) }, step') ∧
        step'.progress = step.progress ∧
        step'.item = none ∧ step'.replaceItem = none ∧ step'.retry = false ∧
        step'.items = step.items ∧ (gone ≠ [] → step'.next = .failed) := by
      unfold storeBatch
      rw [ho]
      dsimp only
      rw [hrows]
      cases he : (appendItems limit fault rows step.items).2 with
      | none => exact ⟨step, rfl, rfl, hitem, hr, hretry, rfl, fun hne => absurd (hnone.mp he) hne⟩
      | some e => exact ⟨_, rfl, rfl, hitem, hr, hretry, rfl, fun _ => rfl⟩
    rw [hb]
    rw [hstore _ step' h1 h2]
    rw [hagain step' h3, account]
    rw [hreplace _ step' h2, h1, h4, hp, accountAll_of_some
      ((JobResult.noted_books _ _).2.2 : _ = some (rows ++ stored)) h2]
    obtain ⟨-, -, h5⟩ := result.noted_books step.progress
    obtain ⟨hacc, hgrows⟩ := (h.noted step.progress).add_of_some (h5.trans ho) stored gone
    have hmove : JobResult.noted { result with outcomes := some (rows ++ stored) } step.progress =
        { result.noted step.progress with outcomes := some (rows ++ stored) } := by
      cases step.progress <;> rfl
    rw [result.noted_ledger, ← hsplit] at hgrows
    rw [← hsplit] at hacc
    rw [hmove]
    refine ⟨gone, ⟨hacc, hgrows⟩, fun hne => ⟨⟨stored, hsplit.symm⟩, ⟨rows, ho, fun he => ?_⟩,
      hfail hne, h3⟩⟩
    exact hne (hnone.mp he)

end Hc.Operations
