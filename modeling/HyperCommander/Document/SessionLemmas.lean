import HyperCommander.Document.Session

/-!
# What the calls of a session do

- **Tickets**: `Call.delivers` is the ticket that a call ends, acknowledges or cancels; a session
  `awaits` the tickets that it has not seen the end of.
- **Refusals**: a call that delivers a ticket which is not awaited fails and changes nothing
  (`refused_of_not_awaits`).
- **Effects**: `Effect s c s' r` lists what a call can do to a session; `effect_call` says that it
  is complete. Every invariant of sessions is one case analysis over it.
-/

namespace Hc.Document

open Storage Outcome

@[simp] theorem canAdvance_iff {n : Nat} : canAdvance n = true ↔ n < 2 ^ 64 - 1 := by
  simp [canAdvance]

theorem increment_of_canAdvance {n : Nat} (h : canAdvance n) : increment n = n + 1 := by
  rw [canAdvance_iff] at h
  exact Nat.mod_eq_of_lt (by omega)

theorem of_none {α : Type} {P : α → Prop} : ∀ a, none = some a → P a :=
  fun _ h => absurd h (by simp)

theorem of_false {P : Prop} (h : false = true) : P := absurd h Bool.false_ne_true

/-- What a session gives out, and the owner brings back. -/
inductive Ticket
  | opening (generation : Nat)
  | operation (ticket : OperationTicket)
  | save (ticket : SaveTicket)
deriving DecidableEq, Repr

/-- The ticket that a call brings back. -/
def Call.delivers : Call → Option Ticket
  | .completeOpen generation _ => some (.opening generation)
  | .completeSave ticket _ => some (.save ticket)
  | .cancelSave ticket => some (.save ticket)
  | .cancelOperation ticket => some (.operation ticket)
  | .completeCancellation ticket => some (.operation ticket)
  | .completeLoad ticket _ => some (.operation ticket)
  | .completeRestore ticket _ _ _ _ => some (.operation ticket)
  | .completeExport ticket _ => some (.operation ticket)
  | .completePrint ticket _ => some (.operation ticket)
  | .completeCheckpoint ticket _ => some (.operation ticket)
  | _ => none

/-- The call brings back a load. -/
def Call.loads : Call → Bool
  | .completeLoad _ _ => true
  | .completeRestore _ _ _ _ _ => true
  | _ => false

/-- The call begins another life of the session. -/
def Call.supersedes : Call → Bool
  | .beginOpen _ => true
  | .beginLoad _ => true
  | .close _ => true
  | _ => false

/-- The ticket that an answer gives out. -/
def Reply.issues : Reply → Option Ticket
  | .opening generation => some (.opening generation)
  | .operation ticket => some (.operation ticket)
  | .save ticket => some (.save ticket)
  | _ => none

/-- The answer says that the call failed. -/
def Reply.isFailure : Reply → Bool
  | .refused => true
  | .failed _ => true
  | _ => false

namespace Session

/-- The session has not seen the end of the ticket. -/
def awaits (s : Session) : Ticket → Prop
  | .opening generation =>
    s.contentMode = .inlineBytes ∧ generation = s.generation ∧ s.lifecycle = .opening
  | .operation ticket => s.matches_ ticket ticket.operation
  | .save ticket =>
    ∃ saving, s.saving = some saving ∧ s.lifecycle ≠ .closed ∧ ticket.documentId = s.id ∧
      ticket.generation = s.generation ∧ ticket.token = saving.token

variable {s : Session}

variable {ticket : OperationTicket} {operation : Operation}

theorem matches_iff :
    s.matches_ ticket operation = true ↔
      s.contentMode = .externalModel ∧ (∃ p, s.pending = some p ∧ p.ticket = ticket) ∧
        ticket.operation = operation ∧ ticket.documentId = s.id ∧
          ticket.generation = s.generation ∧ s.lifecycle ≠ .closed := by
  unfold matches_
  cases s.pending <;> simp [and_assoc]

theorem matches_self (h : s.matches_ ticket operation) : s.matches_ ticket ticket.operation := by
  obtain ⟨hc, hp, -, h⟩ := matches_iff.1 h
  exact matches_iff.2 ⟨hc, hp, rfl, h⟩

/-- A ticket that is not awaited is refused, and nothing changes. -/
theorem refused_of_not_awaits {c : Call} {t : Ticket} (hc : c.delivers = some t)
    (h : ¬ s.awaits t) : (s.call c).1 = s ∧ (s.call c).2.isFailure := by
  have hm : ∀ {ticket : OperationTicket} {operation : Operation}, t = .operation ticket →
      s.matches_ ticket operation = false := by
    rintro ticket operation rfl
    exact Bool.eq_false_iff.2 fun hm => h (matches_self hm)
  cases c <;> simp only [Call.delivers, Option.some.injEq, reduceCtorEq] at hc
  case completeOpen generation result =>
    simp only [call, completeOpen, awaits, answered] at h ⊢
    split
    · exact ⟨rfl, rfl⟩
    · rw [if_pos (by grind)]
      exact ⟨rfl, rfl⟩
  case completeSave ticket result =>
    rcases hs : s.saving with _ | saving
    · simp [call, completeSave, hs, answered, Reply.isFailure]
    · have hd : s.lifecycle = .closed ∨ ticket.documentId ≠ s.id ∨
          ticket.generation ≠ s.generation ∨ ticket.token ≠ saving.token := by
        simp only [awaits, hs, Option.some.injEq] at h
        grind
      simp [call, completeSave, hs, if_pos hd, answered, Reply.isFailure]
  case cancelSave ticket =>
    rcases hs : s.saving with _ | saving
    · simp [call, cancelSave, hs, answered, Reply.isFailure]
    · simp only [awaits, hs, Option.some.injEq] at h
      simp only [call, cancelSave, hs]
      rw [if_pos (by grind)]
      exact ⟨rfl, rfl⟩
  case completeExport ticket result =>
    simp only [call, completeExport, hm hc.symm, gave]
    split <;> exact ⟨rfl, rfl⟩
  case completeCheckpoint ticket result =>
    simp only [call, completeCheckpoint, hm hc.symm, gave]
    split <;> exact ⟨rfl, rfl⟩
  all_goals
    simp [call, cancelOperation, completeCancellation, completeLoad, completeRestore,
      completePrint, hm hc.symm, answered, Reply.isFailure]

theorem not_closed_of_matches (h : s.matches_ ticket operation) : s.lifecycle ≠ .closed :=
  (matches_iff.1 h).2.2.2.2.2

/-! ## A committed save -/

section Committed

variable {t : SaveTicket} {result : DocumentSaveResult}

@[simp] theorem committed_eqs :
    (s.committed t result).lifecycle = s.lifecycle ∧
      (s.committed t result).generation = s.generation ∧
      (s.committed t result).contentMode = s.contentMode ∧
      (s.committed t result).revision = s.revision ∧
      (s.committed t result).savedRevision = t.revision ∧
      (s.committed t result).cancelRequested = false ∧
      (s.committed t result).pending = s.pending ∧
      (s.committed t result).nextOperation = s.nextOperation ∧
      (s.committed t result).saving = none ∧ (s.committed t result).nextSave = s.nextSave := by
  unfold committed
  rcases s.contentMode <;> exact ⟨rfl, rfl, rfl, rfl, rfl, rfl, rfl, rfl, rfl, rfl⟩

end Committed

/-! ## Effects -/

/-- What a call can do: the session after it, and its answer. -/
inductive Effect (s : Session) : Call → Session → Reply → Prop
  | idle {c : Call} {r : Reply} (hi : r.issues = none)
      (hd : c = .cancel ∨ r.isFailure) : Effect s c s r
  | edited {command : String} {text : Str} (hc : s.contentMode = .inlineBytes)
      (hr : s.lifecycle = .ready) (hm : command = "document.setText")
      (ht : s.refuses text = false) :
      Effect s (.execute command text) (s.edited text) .done
  | reopened {discard : Bool} (hc : s.contentMode = .inlineBytes) (hl : s.lifecycle ≠ .closed)
      (hs : s.saving = none) (hd : s.dirty → discard) :
      Effect s (.beginOpen discard) s.reopened (.opening s.reopened.generation)
  | unopened {result : Except Error OpenedDocument} {e : Error}
      (hc : s.contentMode = .inlineBytes) (hl : s.lifecycle = .opening)
      (hf : ∀ d, result = .ok d → s.refuses d.text) :
      Effect s (.completeOpen s.generation result) (s.failedWith e) .done
  | opened {document : OpenedDocument} (hc : s.contentMode = .inlineBytes)
      (hl : s.lifecycle = .opening) :
      Effect s (.completeOpen s.generation (.ok document)) (s.opened document) .done
  | saveStarted {c : Call} {request : SaveRequest} {revision : Nat} {text : Str}
      (hc : s.contentMode = .inlineBytes) (hr : s.lifecycle = .ready) (hb : s.isBusy = false)
      (hv : revision ≤ s.revision)
      (hd : c = .save request ∨ c = .saveSnapshot request revision text)
      (hm : s.maySave request) :
      Effect s c (s.saveStarted (s.saveTicket request revision text))
        (.save (s.saveTicket request revision text))
  | committed {ticket saving : SaveTicket} {result : DocumentSaveResult}
      (hs : s.saving = some saving) (ht : ticket.token = saving.token) (hr : result.committed) :
      Effect s (.completeSave ticket result) (s.committed saving result) .done
  | uncommitted {ticket saving : SaveTicket} {result : DocumentSaveResult}
      (hs : s.saving = some saving) (hr : result.committed = false) :
      Effect s (.completeSave ticket result) (s.uncommitted result) .done
  | cancelling {c : Call} (hb : s.isBusy ∨ s.contentMode = .inlineBytes ∧ s.lifecycle = .opening)
      (hc : c = .cancel ∨ (∃ t, c = .cancelOperation t) ∨ ∃ t, c = .cancelSave t) :
      Effect s c s.cancelling .done
  | shut {disposition : CloseDisposition} (hb : s.isBusy = false) :
      Effect s (.close disposition) s.shut .done
  | withSource {binding : SourceAuthorityBinding} {source : SourceIdentity} :
      Effect s (.bindSourceAuthority binding) (s.withSource source) .done
  | withFlags {c : Call} {undo redo binary unlimitedBytes : Bool} (hc : c.delivers = none)
      (hd : c.supersedes = false) :
      Effect s c (s.withFlags undo redo binary unlimitedBytes) .done
  | loading {discard : Bool} (hc : s.contentMode = .externalModel) (hb : s.isBusy = false)
      (hl : s.lifecycle ≠ .closed) (hg : canAdvance s.generation)
      (ho : canAdvance s.nextOperation) :
      Effect s (.beginLoad discard) s.loading.1 (.operation s.loading.2)
  | cancelled {c : Call} {r : Reply} {ticket : OperationTicket}
      (hc : c.delivers = some (.operation ticket)) (hm : s.matches_ ticket ticket.operation)
      (hk : c.loads → ticket.operation = .loading) (hr : r.issues = none) :
      Effect s c (s.cancelled ticket.operation) r
  | unloaded {c : Call} {ticket : OperationTicket} {e : Error} (hm : s.matches_ ticket .loading)
      (hc : c.delivers = some (.operation ticket)) :
      Effect s c (s.finishOperation.failedWith e) .done
  | loaded {ticket : OperationTicket} {result : LoadedExternalModel}
      (hm : s.matches_ ticket .loading) :
      Effect s (.completeLoad ticket (.ok result)) (s.loaded result) .done
  | restored {ticket : OperationTicket} {result : LoadedExternalModel}
      {recovery : RecoverySnapshot} {bundleSha256 format : Str} (hm : s.matches_ ticket .loading)
      (hc : s.incompatible ticket result recovery bundleSha256 format = false) :
      Effect s (.completeRestore ticket result recovery bundleSha256 format)
        (s.restored result recovery) .done
  | changed {id : DocumentId} {generation : Nat} {model : ExternalModelRevision}
      {undo redo : Bool} (hc : s.contentMode = .externalModel) (hr : s.lifecycle = .ready)
      (hv : canAdvance s.revision) :
      Effect s (.applyModelChange id generation model undo redo) (s.changed model undo redo) .done
  | exporting {request : SaveRequest} (hc : s.contentMode = .externalModel)
      (hr : s.lifecycle = .ready) (hb : s.isBusy = false) (ho : canAdvance s.nextOperation)
      (hn : canAdvance s.nextSave) :
      Effect s (.beginExport request)
        ((s.started s.generation .exporting s.model).1.exporting request)
        (.operation (s.started s.generation .exporting s.model).2)
  | started {c : Call} {operation : Operation} (hc : s.contentMode = .externalModel)
      (hr : s.lifecycle = .ready) (hb : s.isBusy = false) (ho : canAdvance s.nextOperation)
      (hd : c = .beginPrint ∨ c = .beginCheckpoint) (hn : operation ≠ .exporting) :
      Effect s c (s.started s.generation operation s.model).1
        (.operation (s.started s.generation operation s.model).2)
  | unexported {ticket : OperationTicket} {result : Except Error ExternalModelPayload} {e : Error}
      (hm : s.matches_ ticket .exporting) :
      Effect s (.completeExport ticket result) (s.unexported e) (.failed e)
  | exportSaved {ticket : OperationTicket} {pending : PendingOperation}
      {payload : ExternalModelPayload} (hm : s.matches_ ticket .exporting)
      (hp : s.pending = some pending) :
      Effect s (.completeExport ticket (.ok payload))
        (s.exportSaved pending ticket.generation payload).1
        (.save (s.exportSaved pending ticket.generation payload).2)
  | unfinished {c : Call} {r : Reply} {ticket : OperationTicket} {e : Error}
      (hc : c.delivers = some (.operation ticket)) (hm : s.matches_ ticket ticket.operation)
      (hk : c.loads = false) (hr : r.issues = none) : Effect s c (s.unfinished e) r
  | finished {c : Call} {r : Reply} {ticket : OperationTicket}
      (hc : c.delivers = some (.operation ticket)) (hm : s.matches_ ticket ticket.operation)
      (hk : c.loads = false) (hr : r.issues = none) : Effect s c s.finishOperation r

/-- What a call does is one of the effects. -/
abbrev HasEffect (s : Session) (c : Call) : Prop := Effect s c (s.call c).1 (s.call c).2

variable {s : Session}

variable {c : Call} {ticket : OperationTicket}

/-- A call in `Except`: it fails, or its effect is an effect. -/
theorem effect_orSame {α : Type} {reply : α → Reply} {x : Except Error (Session × α)}
    (h : ∀ s' a, x = .ok (s', a) → Effect s c s' (reply a)) :
    Effect s c (s.orSame reply x).1 (s.orSame reply x).2 := by
  rcases hx : x with e | ⟨s', a⟩
  · exact .idle rfl (.inr rfl)
  · exact h s' a hx

theorem effect_orDone {x : Except Error Session} (h : ∀ s', x = .ok s' → Effect s c s' .done) :
    Effect s c (s.orSame (fun _ => .done) (x.map (·, ()))).1
      (s.orSame (fun _ => .done) (x.map (·, ()))).2 := by
  refine effect_orSame fun s' _ hx => h s' ?_
  cases x <;> simp_all [Except.map]

/-- The call brings back a ticket that is not awaited. -/
theorem effect_refused {t : Ticket} (hc : c.delivers = some t) (h : ¬ s.awaits t) :
    s.HasEffect c := by
  obtain ⟨hs, hf⟩ := refused_of_not_awaits hc h
  rw [HasEffect, hs]
  refine .idle ?_ (.inr hf)
  cases hr : (s.call c).2 <;> simp_all [Reply.issues, Reply.isFailure]

theorem maySave_ready {request : SaveRequest} (h : s.maySave request) :
    s.lifecycle = .ready ∧ s.isBusy = false := by
  unfold maySave capabilities at h
  grind

theorem effect_saveSnapshot {request : SaveRequest} {revision : Nat} {text : Str}
    (hc : c = .save request ∨ c = .saveSnapshot request revision text) (s' : Session)
    (ticket : SaveTicket) (h : s.saveSnapshot request revision text = .ok (s', ticket)) :
    Effect s c s' (.save ticket) := by
  unfold saveSnapshot at h
  simp only [bind_eq_ok, failIf_eq_ok, pure_eq_ok, Prod.mk.injEq] at h
  obtain ⟨-, hi, -, hv, -, hm, rfl, rfl⟩ := h
  obtain ⟨hr, hb⟩ := maySave_ready (by simpa using hm)
  exact .saveStarted (by simpa using hi) hr hb (by omega) hc (by simpa using hm)

theorem effect_beginModelOperation {operation : Operation} {x : Session × OperationTicket}
    (h : s.beginModelOperation operation = .ok x) :
    s.contentMode = .externalModel ∧ s.lifecycle = .ready ∧ s.isBusy = false ∧
      canAdvance s.nextOperation ∧ x = s.started s.generation operation s.model := by
  unfold beginModelOperation at h
  simp only [bind_eq_ok, failIf_eq_ok, pure_eq_ok] at h
  obtain ⟨-, hg, -, ho, rfl⟩ := h
  simp only [not_or, not_not, Bool.not_eq_true] at hg
  exact ⟨hg.1, hg.2.1, hg.2.2, by simpa using ho, rfl⟩

theorem cancel_of_busy (h : s.isBusy) : s.cancel = s.cancelling := by
  unfold cancel
  split
  · rfl
  · rw [if_pos]
    unfold capabilities
    rcases hc : s.contentMode <;> simp [h]

theorem cancelSave_cases (ticket : SaveTicket) :
    s.cancelSave ticket = (s, false) ∨
      s.isBusy ∧ s.cancelSave ticket = (s.cancelling, true) := by
  rcases hs : s.saving with _ | saving
  · exact .inl (by simp [cancelSave, hs])
  · have hb : s.isBusy := by simp [isBusy, hs]
    simp only [cancelSave, hs, cancel_of_busy hb]
    split
    · exact .inl rfl
    · exact .inr ⟨hb, rfl⟩

theorem idle_of_not_busy (h : s.isBusy = false) : s.saving = none ∧ s.pending = none := by
  simpa [Session.isBusy] using h

theorem isBusy_of_matches {operation : Operation} (h : s.matches_ ticket operation) : s.isBusy := by
  obtain ⟨-, ⟨p, hp, -⟩, -⟩ := matches_iff.1 h
  simp [isBusy, hp]

/-- An awaited operation that was asked to be cancelled is cancelled. -/
theorem completeCancellation_eq (hm : s.matches_ ticket ticket.operation) (hc : s.cancelRequested) :
    s.completeCancellation ticket = (s.cancelled ticket.operation, true) := by
  simp [completeCancellation, hm, hc]

theorem effect_cancelled {operation : Operation} {r : Reply} (hm : s.matches_ ticket operation)
    (hc : s.cancelRequested) (hd : c.delivers = some (.operation ticket))
    (hk : c.loads → operation = .loading) (hr : r.issues = none) :
    Effect s c (s.completeCancellation ticket).1 r := by
  rw [completeCancellation_eq (matches_self hm) hc]
  exact .cancelled hd (matches_self hm) (fun h => (matches_iff.1 hm).2.2.1.trans (hk h)) hr

theorem effect_completeOpen {generation : Nat} {result : Except Error OpenedDocument} :
    s.HasEffect (.completeOpen generation result) := by
  by_cases h : s.awaits (.opening generation)
  case neg => exact effect_refused rfl h
  obtain ⟨hc, rfl, hl⟩ := h
  have hg : ¬ (s.generation ≠ s.generation ∨ s.lifecycle ≠ .opening) := by simp [hl]
  simp only [HasEffect, call, completeOpen, if_neg (not_not.2 hc), if_neg hg, answered]
  rcases result with e | document
  · exact .unopened hc hl (by simp)
  · by_cases hr : s.refuses document.text
    · simp only [hr, if_true]
      exact .unopened hc hl (by simpa using hr)
    · simp only [hr]
      exact .opened hc hl

theorem effect_completeSave {ticket : SaveTicket} {result : DocumentSaveResult} :
    s.HasEffect (.completeSave ticket result) := by
  by_cases h : s.awaits (.save ticket)
  case neg => exact effect_refused rfl h
  obtain ⟨saving, hs, hl, hd, hg, ht⟩ := h
  have hn : ¬ (s.lifecycle = .closed ∨ ticket.documentId ≠ s.id ∨
      ticket.generation ≠ s.generation ∨ ticket.token ≠ saving.token) := by simp [*]
  simp only [HasEffect, call, completeSave, hs, if_neg hn, answered]
  rcases hr : result.committed
  · exact .uncommitted hs hr
  · exact .committed hs ht hr

theorem effect_completeLoad {result : Except Error LoadedExternalModel} :
    s.HasEffect (.completeLoad ticket result) := by
  by_cases h : s.matches_ ticket .loading = false ∨ s.lifecycle ≠ .opening
  · simp only [HasEffect, call, completeLoad, if_pos h, answered]
    exact .idle rfl (.inr rfl)
  have hm : s.matches_ ticket .loading := by simpa using (not_or.1 h).1
  simp only [HasEffect, call, completeLoad, if_neg h, answered]
  by_cases hc : s.cancelRequested
  · rw [if_pos hc]
    exact effect_cancelled hm hc rfl (fun _ => rfl) rfl
  · simp only [hc]
    rcases result with e | result
    · exact .unloaded hm rfl
    · by_cases hv : validModel result.model
      · simp only [hv, if_true]
        exact .loaded hm
      · simp only [hv]
        exact .unloaded hm rfl

theorem effect_completeRestore {result : LoadedExternalModel}
    {recovery : RecoverySnapshot} {bundleSha256 format : Str} :
    s.HasEffect (.completeRestore ticket result recovery bundleSha256 format) := by
  by_cases h : s.matches_ ticket .loading = false ∨ s.lifecycle ≠ .opening
  · simp only [HasEffect, call, completeRestore, if_pos h, answered]
    exact .idle rfl (.inr rfl)
  have hm : s.matches_ ticket .loading := by simpa using (not_or.1 h).1
  simp only [HasEffect, call, completeRestore, if_neg h, answered]
  by_cases hc : s.cancelRequested
  · rw [if_pos hc]
    exact effect_cancelled hm hc rfl (fun _ => rfl) rfl
  · simp only [hc]
    rcases hi : s.incompatible ticket result recovery bundleSha256 format
    · exact .restored hm hi
    · -- the refusal is a failed load
      simp only [completeLoad, if_neg h, hc]
      exact .unloaded hm rfl

theorem effect_completePrint {result : Except Error Unit} :
    s.HasEffect (.completePrint ticket result) := by
  rcases hm : s.matches_ ticket .printing
  · simp only [HasEffect, call, completePrint, hm, if_true, answered]
    exact .idle rfl (.inr rfl)
  simp only [HasEffect, call, completePrint, hm, answered]
  by_cases hc : s.cancelRequested
  · rw [if_pos hc]
    exact effect_cancelled hm hc rfl (by simp [Call.loads]) rfl
  · simp only [hc]
    rcases result with e | u
    · exact .unfinished rfl (matches_self hm) rfl rfl
    · exact .finished rfl (matches_self hm) rfl rfl

theorem effect_completeExport {result : Except Error ExternalModelPayload} :
    s.HasEffect (.completeExport ticket result) := by
  rcases hp : s.pending with _ | pending
  · simp only [HasEffect, call, completeExport, hp, gave]
    exact .idle rfl (.inr rfl)
  rcases hm : s.matches_ ticket .exporting
  · simp only [HasEffect, call, completeExport, hp, hm, if_true, gave]
    exact .idle rfl (.inr rfl)
  simp only [HasEffect, call, completeExport, hp, hm, gave]
  by_cases hc : s.cancelRequested
  · rw [if_neg (by simp), if_pos hc]
    exact effect_cancelled hm hc rfl (by simp [Call.loads]) rfl
  · simp only [hc]
    rcases he : s.exported pending result with e | payload
    · exact .unexported hm
    · obtain rfl : result = .ok payload := by
        unfold exported at he
        grind
      exact .exportSaved hm hp

theorem effect_completeCheckpoint {result : Except Error ExternalModelPayload} :
    s.HasEffect (.completeCheckpoint ticket result) := by
  rcases hp : s.pending with _ | pending
  · simp only [HasEffect, call, completeCheckpoint, hp, gave]
    exact .idle rfl (.inr rfl)
  rcases hm : s.matches_ ticket .checkpointing
  · simp only [HasEffect, call, completeCheckpoint, hp, hm, if_true, gave]
    exact .idle rfl (.inr rfl)
  simp only [HasEffect, call, completeCheckpoint, hp, hm, gave]
  by_cases hc : s.cancelRequested
  · rw [if_neg (by simp), if_pos hc]
    exact effect_cancelled hm hc rfl (by simp [Call.loads]) rfl
  · simp only [hc]
    rcases result with e | payload
    · exact .unfinished rfl (matches_self hm) rfl rfl
    · by_cases hb : badPayload pending payload
      · simp only [hb, if_true]
        exact .unfinished rfl (matches_self hm) rfl rfl
      · simp only [hb]
        exact .finished rfl (matches_self hm) rfl rfl

/-- Every call has one of the effects. -/
theorem effect_call (c : Call) : Effect s c (s.call c).1 (s.call c).2 := by
  cases c with
  | execute command text =>
    refine effect_orDone fun s' h => ?_
    unfold execute at h
    simp only [bind_eq_ok, failIf_eq_ok, pure_eq_ok] at h
    obtain ⟨-, hi, -, hm, -, hr, -, ht, rfl⟩ := h
    have hc : s.contentMode = .inlineBytes := by simpa using hi
    have hl : s.lifecycle = .ready := by simpa [capabilities, hc] using hr
    exact .edited hc hl (by simpa using hm) (by simpa using ht)
  | beginOpen discard =>
    refine effect_orSame fun s' generation h => ?_
    unfold beginOpen at h
    simp only [bind_eq_ok, failIf_eq_ok, pure_eq_ok, Prod.mk.injEq] at h
    obtain ⟨-, hi, -, hl, -, hd, rfl, rfl⟩ := h
    exact .reopened (by simpa using hi) (fun hc => hl (.inl hc)) (by simpa using (not_or.1 hl).2)
      (by simpa using hd)
  | completeOpen generation result => exact effect_completeOpen
  | save request => exact effect_orSame (effect_saveSnapshot (.inl rfl))
  | saveSnapshot request revision text =>
    exact effect_orSame (effect_saveSnapshot (.inr rfl))
  | completeSave ticket result => exact effect_completeSave
  | cancel =>
    simp only [call, cancel]
    split
    · exact .cancelling (.inl (by simp_all [isBusy])) (.inl rfl)
    split
    · rename_i hc
      refine .cancelling ?_ (.inl rfl)
      unfold capabilities at hc
      rcases hm : s.contentMode <;> simp_all
    · exact .idle rfl (.inl rfl)
  | cancelOperation ticket =>
    simp only [call, cancelOperation, answered]
    split
    · rename_i hm
      rw [cancel_of_busy (isBusy_of_matches hm)]
      exact .cancelling (.inl (isBusy_of_matches hm)) (.inr (.inl ⟨_, rfl⟩))
    · exact .idle rfl (.inr rfl)
  | cancelSave ticket =>
    rcases cancelSave_cases (s := s) ticket with h | ⟨hb, h⟩
    · simp only [call, h, answered]
      exact .idle rfl (.inr rfl)
    · simp only [call, h, answered]
      exact .cancelling (.inl hb) (.inr (.inr ⟨_, rfl⟩))
  | completeCancellation ticket =>
    by_cases hm : s.matches_ ticket ticket.operation
    case neg => exact effect_refused (t := .operation ticket) rfl hm
    by_cases hc : s.cancelRequested
    · simp only [call, completeCancellation_eq hm hc, answered]
      exact .cancelled rfl hm (by simp [Call.loads]) rfl
    · simp only [call, completeCancellation, hc, answered]
      exact .idle rfl (.inr rfl)
  | close disposition =>
    refine effect_orDone fun s' h => ?_
    unfold close at h
    simp only [bind_eq_ok, failIf_eq_ok, pure_eq_ok] at h
    obtain ⟨-, hb, -, -, rfl⟩ := h
    exact .shut (by simpa using hb)
  | bindSourceAuthority binding =>
    refine effect_orDone fun s' h => ?_
    unfold bindSourceAuthority at h
    simp only [bind_eq_ok, failIf_eq_ok, pure_eq_ok] at h
    obtain ⟨-, -, -, -, -, -, -, -, rfl⟩ := h
    exact .withSource
  | beginLoad discard =>
    refine effect_orSame fun s' ticket h => ?_
    unfold beginLoad at h
    simp only [bind_eq_ok, failIf_eq_ok, pure_eq_ok] at h
    obtain ⟨-, hi, -, -, -, hv, h⟩ := h
    obtain ⟨rfl, rfl⟩ : s.loading.1 = s' ∧ s.loading.2 = ticket := by simp [h]
    simp only [not_or, not_not, Bool.not_eq_true, Bool.not_eq_false] at hi hv
    exact .loading hi.1 hi.2.1 hi.2.2 hv.1 hv.2.2
  | completeLoad ticket result => exact effect_completeLoad
  | completeRestore ticket result recovery bundleSha256 format => exact effect_completeRestore
  | applyModelChange id generation model undo redo =>
    simp only [call, applyModelChange, answered]
    split
    · exact .idle rfl (.inr rfl)
    · rename_i hg
      simp only [not_or, not_not, Bool.not_eq_false] at hg
      exact .changed hg.2.2.1 hg.2.2.2.1 hg.2.2.2.2.2.2.2.2
  | beginExport request =>
    refine effect_orSame fun s' ticket h => ?_
    unfold beginExport at h
    simp only [bind_eq_ok, failIf_eq_ok, pure_eq_ok, Prod.mk.injEq] at h
    obtain ⟨-, -, -, hn, x, hx, rfl, rfl⟩ := h
    obtain ⟨hc, hr, hb, ho, rfl⟩ := effect_beginModelOperation hx
    exact .exporting hc hr hb ho (by simpa using hn)
  | completeExport ticket result => exact effect_completeExport
  | beginPrint =>
    refine effect_orSame fun s' ticket h => ?_
    unfold beginPrint at h
    simp only [bind_eq_ok, failIf_eq_ok] at h
    obtain ⟨-, -, h⟩ := h
    obtain ⟨hc, hr, hb, ho, hx⟩ := effect_beginModelOperation h
    obtain ⟨rfl, rfl⟩ := Prod.mk.inj hx
    exact .started hc hr hb ho (.inl rfl) (by simp)
  | completePrint ticket result => exact effect_completePrint
  | beginCheckpoint =>
    refine effect_orSame fun s' ticket h => ?_
    unfold beginCheckpoint at h
    simp only [bind_eq_ok, failIf_eq_ok] at h
    obtain ⟨-, -, h⟩ := h
    obtain ⟨hc, hr, hb, ho, hx⟩ := effect_beginModelOperation h
    obtain ⟨rfl, rfl⟩ := Prod.mk.inj hx
    exact .started hc hr hb ho (.inr rfl) (by simp)
  | completeCheckpoint ticket result => exact effect_completeCheckpoint
  | setHistoryState undo redo => exact .withFlags rfl rfl
  | setBinaryContent binary => exact .withFlags rfl rfl
  | setUnlimitedBytes enabled => exact .withFlags rfl rfl

end Session

end Hc.Document
