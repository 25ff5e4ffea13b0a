import HyperCommander.Document.Epub.EditModel

/-!
# The history of the edit model

- **Records**: a record keeps the state and cuts the changes that were undone; trimming only takes
  changes from the front (`record_spec`, `linked_record`).
- **Chain**: every operation keeps the history chained to the state (`Linked.perform`), except that
  `RestoreStructuralBytes` puts another edition in place without going through the history.
- **Main result**: `history_of_careful`, over every run of operations.
-/

namespace Hc.Document.Epub

open Storage

namespace EditModel

variable {m : EditModel} {κ : Type} {t : Toolkit κ}

@[simp] theorem state_withHistory (h : Timeline State) : (m.withHistory h).state = m.state := rfl

@[simp] theorem history_withHistory (h : Timeline State) : (m.withHistory h).history = h := rfl

@[simp] theorem state_restore (s : State) : (m.restore s).state = s := rfl

@[simp] theorem history_restore (s : State) : (m.restore s).history = m.history := rfl

@[simp] theorem state_resumed (p : Timeline State × State) : (m.resumed p).state = p.2 := rfl

@[simp] theorem history_resumed (p : Timeline State × State) : (m.resumed p).history = p.1 := rfl

@[simp] theorem resumed_resumed (p q : Timeline State × State) :
    (m.resumed p).resumed q = m.resumed q := rfl

theorem resumed_self : m.resumed (m.history, m.state) = m := rfl

/-! ## Records -/

/-- What trimming leaves of a history: its last changes, the position moved with them. -/
theorem trim_spec (fuel : Nat) (hp : m.history.position = m.history.changes.length) :
    (trim fuel m).state = m.state ∧
    ∃ dropped, m.history.changes = dropped ++ (trim fuel m).history.changes ∧
      m.history.position = dropped.length + (trim fuel m).history.position ∧
      (m.history.changes ≠ [] → (trim fuel m).history.changes ≠ []) := by
  induction fuel generalizing m with
  | zero => exact ⟨rfl, [], rfl, by simp [trim], id⟩
  | succ fuel ih =>
    unfold trim
    split
    · rename_i hb
      have hlen : 1 < m.history.changes.length := by
        simp only [overBudget, Bool.and_eq_true, decide_eq_true_eq] at hb
        exact hb.1
      obtain ⟨c, rest, hc⟩ : ∃ c rest, m.history.changes = c :: rest :=
        List.exists_cons_of_length_pos (by omega)
      rw [hc] at hlen hp
      have hpos : m.history.dropFirst.position = m.history.dropFirst.changes.length := by
        simp [Timeline.dropFirst, hc, hp]
      obtain ⟨hs, dropped, hd, hq, hne⟩ := ih (m := m.withHistory m.history.dropFirst) hpos
      have hpred : (m.withHistory m.history.dropFirst).history.position = m.history.position - 1 :=
        rfl
      refine ⟨hs, c :: dropped, ?_, ?_, fun _ => hne ?_⟩
      · rw [List.cons_append, ← hd]
        simp [Timeline.dropFirst, hc]
      · simp only [List.length_cons] at hp ⊢
        omega
      · simp only [history_withHistory, Timeline.dropFirst, hc, List.tail_cons]
        rintro rfl
        simp at hlen
    · exact ⟨rfl, [], rfl, by simp, id⟩

theorem trim_chained (fuel : Nat) (hp : m.history.position = m.history.changes.length)
    (h : m.history.Chained m.state) : (trim fuel m).history.Chained m.state := by
  induction fuel generalizing m with
  | zero => exact h
  | succ fuel ih =>
    unfold trim
    split
    · rename_i hb
      have hlen : 1 < m.history.changes.length := by
        simp only [overBudget, Bool.and_eq_true, decide_eq_true_eq] at hb
        exact hb.1
      refine ih (m := m.withHistory m.history.dropFirst) ?_ (h.dropFirst (by omega))
      simp [Timeline.dropFirst, hp]
    · exact h

theorem position_pushed (h : m.history.position ≤ m.history.changes.length) (before : State) :
    (m.pushed before).history.position = (m.pushed before).history.changes.length :=
  (Timeline.length_push h _).symm

/-- What a record does to a history: the changes that were undone go, the new one comes, and some of
the oldest are forgotten. -/
theorem record_spec (h : m.history.position ≤ m.history.changes.length) (before : State) :
    (m.record before).state = m.state ∧
    ∃ dropped, m.history.changes.take m.history.position ++ [(before, m.state)] =
        dropped ++ (m.record before).history.changes ∧
      m.history.position + 1 = dropped.length + (m.record before).history.position ∧
      (m.record before).history.changes ≠ [] := by
  obtain ⟨hs, dropped, hd, hq, hne⟩ :=
    trim_spec (m.pushed before).history.changes.length (position_pushed h before)
  exact ⟨hs, dropped, hd, hq, hne (by simp [pushed, Timeline.push])⟩

@[simp] theorem record_state (before : State) (h : m.history.position ≤ m.history.changes.length) :
    (m.record before).state = m.state := (record_spec h before).1

/-- The history leads to the current state. -/
def Linked (m : EditModel) : Prop := m.history.Chained m.state

/-- A record of the state that the history led to. -/
theorem linked_record {before : State} (h : m.history.Chained before) :
    (m.record before).Linked := by
  unfold Linked
  rw [record_state before h.position_le]
  exact trim_chained _ (position_pushed h.position_le before) (h.push m.state)

/-! ## Operations -/

theorem linked_of_eq {m' : EditModel} (h : m.Linked) (hs : m'.state = m.state)
    (hh : m'.history = m.history) : m'.Linked := by
  unfold Linked
  rw [hs, hh]
  exact h

@[simp] theorem state_cached (path : QString) (bytes : Bytes) :
    (m.cached t path bytes).state = m.state := rfl

@[simp] theorem history_cached (path : QString) (bytes : Bytes) :
    (m.cached t path bytes).history = m.history := rfl

@[simp] theorem state_read (path : QString) : (m.read t path).1.state = m.state := by
  unfold read
  split
  · rfl
  split
  · rfl
  split <;> rfl

@[simp] theorem history_read (path : QString) : (m.read t path).1.history = m.history := by
  unfold read
  split
  · rfl
  split
  · rfl
  split <;> rfl

@[simp] theorem state_fingerprintOf (draft : QMap Bytes) :
    (m.fingerprintOf t draft).1.state = m.state := by
  unfold fingerprintOf
  split <;> rfl

@[simp] theorem history_fingerprintOf (draft : QMap Bytes) :
    (m.fingerprintOf t draft).1.history = m.history := by
  unfold fingerprintOf
  split <;> rfl

/-- The end of an operation: it changed nothing that counts, or it was recorded. -/
inductive Ends (m : EditModel) : EditModel × Outcome → Prop
  | same {m' : EditModel} {o : Outcome} (hs : m'.state = m.state) (hh : m'.history = m.history) :
      Ends m (m', o)
  | recorded {m' : EditModel} (hh : m'.history = m.history) : Ends m (m'.record m.state, .done)

theorem Ends.linked {r : EditModel × Outcome} (h : m.Ends r) (hm : m.Linked) : r.1.Linked := by
  cases h with
  | same hs hh => exact linked_of_eq hm hs hh
  | recorded hh => exact linked_record (hh ▸ hm)

theorem Ends.failed {r : EditModel × Outcome} (h : m.Ends r) (hr : r.2 ≠ .done) :
    r.1.state = m.state ∧ r.1.history = m.history := by
  cases h with
  | same hs hh => exact ⟨hs, hh⟩
  | recorded hh => exact absurd rfl hr

theorem ends_replace (path : QString) (bytes : Bytes) : m.Ends (m.replace t path bytes) := by
  unfold replace
  split
  · exact .same rfl rfl
  split
  · exact .same rfl rfl
  split
  · exact .same rfl rfl
  split
  · exact .same rfl rfl
  split
  · exact .same (state_read path) (history_read path)
  split
  · exact .same (state_read path) (history_read path)
  · rename_i m' ha
    refine .recorded ?_
    unfold assign at ha
    split at ha
    · cases ha
    · obtain rfl := Except.ok.inj ha
      exact history_read path

theorem ends_replaceBatch (changes : QMap Bytes) (expected : Bytes) :
    m.Ends (m.replaceBatch t changes expected) := by
  have hs := state_fingerprintOf (m := m) (t := t) .empty
  have hh := history_fingerprintOf (m := m) (t := t) .empty
  unfold replaceBatch
  simp only
  split
  · exact .same hs hh
  split
  · split
    · exact .same hs hh
    · rw [hs]
      exact .recorded hh
  · exact .same hs hh

theorem ends_modifyProperties (world : κ) (request : Request) :
    m.Ends (m.modifyProperties t world request) := by
  unfold modifyProperties
  simp only
  generalize (if request.operation = "metadata" then _ else _ : QString) = path
  have hs := state_read (m := m) (t := t) path
  have hh := history_read (m := m) (t := t) path
  split
  · exact .same rfl rfl
  split
  · exact .same hs hh
  split
  · exact .same hs hh
  split
  · exact .same hs hh
  split
  · exact .same hs hh
  · exact .same hs hh
  split
  · exact .same hs hh
  · rw [hs]
    exact .recorded hh

theorem ends_structure (world : κ) (request : Request) :
    m.Ends (m.structure_ t world request) := by
  unfold structure_
  split
  · exact ends_modifyProperties world request
  split
  · exact .same rfl rfl
  split
  · exact .same rfl rfl
  split
  · split
    · exact .same rfl rfl
    · exact .recorded rfl
  · exact .same rfl rfl

/-- The operation does not put another edition in place behind the back of a history. -/
def Careful (t : Toolkit κ) (m : EditModel) : Edit κ → Prop
  | .restoreStructuralBytes world bytes =>
    bytes ≠ [] → (∃ publication, t.index world bytes = .ok publication) → m.history.changes = []
  | _ => True

theorem chained_of_no_changes {h : Timeline State} (hp : h.position ≤ h.changes.length)
    (hn : h.changes = []) (s : State) : h.Chained s := by
  refine ⟨hp, ?_, ?_, ?_⟩ <;> simp [hn]

theorem linked_load (world : κ) (bytes : Bytes) (h : m.Linked) :
    (m.load t world bytes).1.Linked := by
  unfold load
  split
  · exact h
  · exact .empty _

theorem failed_load {world : κ} {bytes : Bytes} (h : (m.load t world bytes).2 ≠ .done) :
    (m.load t world bytes).1.state = m.state ∧ (m.load t world bytes).1.history = m.history := by
  unfold load at h ⊢
  split
  · exact ⟨rfl, rfl⟩
  · simp_all

theorem linked_restoreStructuralBytes {world : κ} {bytes : Bytes} (h : m.Linked)
    (hc : Careful t m (.restoreStructuralBytes world bytes)) :
    (m.restoreStructuralBytes t world bytes).1.Linked := by
  unfold restoreStructuralBytes
  split
  · exact h
  · rename_i hb
    split
    · rename_i candidate hl
      refine chained_of_no_changes h.position_le (hc hb ?_) _
      unfold load at hl
      split at hl
      · simp at hl
      · exact ⟨_, ‹_›⟩
    · exact h

theorem failed_restoreStructuralBytes {world : κ} {bytes : Bytes}
    (h : (m.restoreStructuralBytes t world bytes).2 ≠ .done) :
    (m.restoreStructuralBytes t world bytes).1.state = m.state ∧
      (m.restoreStructuralBytes t world bytes).1.history = m.history := by
  unfold restoreStructuralBytes at h ⊢
  split
  · exact ⟨rfl, rfl⟩
  · split
    · simp_all
    · exact ⟨rfl, rfl⟩

/-- Every careful operation keeps the history linked to the state. -/
theorem Linked.perform (h : m.Linked) {e : Edit κ} (hc : Careful t m e) :
    (m.perform t e).1.Linked := by
  cases e with
  | load world bytes => exact linked_load world bytes h
  | read path => exact linked_of_eq h (state_read path) (history_read path)
  | replace path bytes => exact (ends_replace path bytes).linked h
  | replaceBatch changes expected => exact (ends_replaceBatch changes expected).linked h
  | structure_ world request => exact (ends_structure world request).linked h
  | restoreStructuralBytes world bytes => exact linked_restoreStructuralBytes h hc
  | undo => exact Timeline.Chained.back h
  | redo => exact Timeline.Chained.forth h
  | fingerprint draft =>
    exact linked_of_eq h (state_fingerprintOf draft) (history_fingerprintOf draft)

/-- An operation that reports an error leaves the state and the history as they are. -/
theorem failed_perform {e : Edit κ} (h : (m.perform t e).2 ≠ .done) :
    (m.perform t e).1.state = m.state ∧ (m.perform t e).1.history = m.history := by
  cases e with
  | load world bytes => exact failed_load h
  | replace path bytes => exact (ends_replace path bytes).failed h
  | replaceBatch changes expected => exact (ends_replaceBatch changes expected).failed h
  | structure_ world request => exact (ends_structure world request).failed h
  | restoreStructuralBytes world bytes => exact failed_restoreStructuralBytes h
  | _ => exact absurd rfl h

/-! ## Undo and redo -/

theorem iterate_undo (k : Nat) :
    undo^[k] m = m.resumed (Timeline.back^[k] (m.history, m.state)) := by
  induction k with
  | zero => rfl
  | succ k ih =>
    rw [Function.iterate_succ_apply', Function.iterate_succ_apply', ih]
    rfl

theorem iterate_redo (k : Nat) :
    redo^[k] m = m.resumed (Timeline.forth^[k] (m.history, m.state)) := by
  induction k with
  | zero => rfl
  | succ k ih =>
    rw [Function.iterate_succ_apply', Function.iterate_succ_apply', ih]
    rfl

theorem redo_undo (h : m.Linked) {k : Nat} (hk : k ≤ m.history.position) :
    redo^[k] (undo^[k] m) = m := by
  rw [iterate_undo, iterate_redo, resumed_resumed, history_resumed, state_resumed,
    Timeline.iterate_forth_back h hk, resumed_self]

theorem undo_redo (h : m.Linked) {k : Nat}
    (hk : m.history.position + k ≤ m.history.changes.length) :
    undo^[k] (redo^[k] m) = m := by
  rw [iterate_redo, iterate_undo, resumed_resumed, history_resumed, state_resumed,
    Timeline.iterate_back_forth h hk, resumed_self]

end EditModel

/-- The history is what undo and redo need, and what is promised of it. -/
structure HistorySound {κ : Type} (t : Toolkit κ) (m : EditModel) : Prop where
  /-- The state lies between the changes before and after the position. -/
  chained : m.history.Chained m.state
  redo_undo : ∀ k ≤ m.history.position, EditModel.redo^[k] (EditModel.undo^[k] m) = m
  undo_redo : ∀ k, m.history.position + k ≤ m.history.changes.length →
    EditModel.undo^[k] (EditModel.redo^[k] m) = m
  /-- A record keeps the state. It takes away the changes that were undone, and of what is then in
  the history only the oldest changes, never the one that it adds. -/
  recorded : ∀ before, (m.record before).state = m.state ∧
    ∃ dropped, m.history.changes.take m.history.position ++ [(before, m.state)] =
        dropped ++ (m.record before).history.changes ∧
      m.history.position + 1 = dropped.length + (m.record before).history.position ∧
      (m.record before).history.changes ≠ []
  failed : ∀ e : Edit κ, (m.perform t e).2 ≠ .done →
    (m.perform t e).1.state = m.state ∧ (m.perform t e).1.history = m.history

/-- Every operation of the run is careful. -/
def CarefulRun {κ : Type} (t : Toolkit κ) : EditModel → List (Edit κ) → Prop
  | _, [] => True
  | m, e :: edits => EditModel.Careful t m e ∧ CarefulRun t (m.perform t e).1 edits

namespace EditModel

variable {m : EditModel} {κ : Type} {t : Toolkit κ}

theorem Linked.run (h : m.Linked) {edits : List (Edit κ)} (hc : CarefulRun t m edits) :
    (m.run t edits).Linked := by
  induction edits generalizing m with
  | nil => exact h
  | cons e edits ih => exact ih (h.perform hc.1) hc.2

theorem Linked.sound (h : m.Linked) : HistorySound t m where
  chained := h
  redo_undo _ hk := EditModel.redo_undo h hk
  undo_redo _ hk := EditModel.undo_redo h hk
  recorded := record_spec h.position_le
  failed _ := failed_perform

/-- In every run that restores structural bytes only while there is no history, undo and redo are
exact inverses, a record only forgets the oldest changes, and errors change nothing. -/
theorem history_of_careful (t : Toolkit κ) (edits : List (Edit κ)) (h : CarefulRun t {} edits) :
    HistorySound t (EditModel.run t {} edits) :=
  (Linked.run (m := {}) (Timeline.Chained.empty _) h).sound

/-- A toolkit for books of one style sheet `a`, which the book's bytes begin with. -/
def sheetToolkit : Toolkit Unit where
  sha256 := id
  read edition path := if path = [97] then .ok (edition.take 1)
    else .error ⟨"missing-resource", path⟩
  index _ bytes := .ok { sourceSha256 := toHex bytes, resources := [⟨[97], "text/css", none⟩] }
  imageValid _ _ := true
  exported _ s := .ok s.edition
  package _ _ bytes := .ok bytes
  properties _ _ _ bytes := .ok bytes

/-- Two edits, and one of them undone. -/
theorem history_of_careful_undo :
    HistorySound sheetToolkit (EditModel.run sheetToolkit {}
      [.load () [1], .restoreStructuralBytes () [3], .replace [97] [2],
        .replace [97] [4], .undo]) :=
  history_of_careful sheetToolkit _ ⟨trivial, fun _ _ => rfl, trivial, trivial, trivial, trivial⟩

/-- An edit, and then another edition: the edit that undo takes back does not lead to it. -/
theorem history_restored :
    ¬ HistorySound sheetToolkit (EditModel.run sheetToolkit {}
      [.load () [1], .replace [97] [2], .restoreStructuralBytes () [3]]) := by
  intro h
  have hc : (EditModel.run sheetToolkit {} [.load () [1], .replace [97] [2],
      .restoreStructuralBytes () [3]]).history.changes.map (·.2.edition) = [[1]] := by
    decide +kernel
  obtain ⟨a, ha, he⟩ := List.map_eq_singleton_iff.1 hc
  have hp := h.chained.past 0 a (by decide +kernel) (by rw [ha]; rfl)
  rw [hp] at he
  exact absurd he (by decide +kernel)

end EditModel

end Hc.Document.Epub
