import HyperCommander.Document.Types
import HyperCommander.Lib.Outcome

/-!
# Document sessions (`commonLibs/document/documentSession.cpp`, `documentAsyncSession.cpp`)

A session is a state machine that its owner calls. A call that may fail without a trace is in
`Except`; a completion gives the next state and what it answers. Counters have 64 bits: `++` wraps,
and only the calls for external models look at the end of the range.
-/

namespace Hc.Document

open Storage Outcome

/-- `Invalid`. -/
def invalid (code : String) : Error := ⟨.invalidRequest, code, false⟩

def stale (code : String) : Error := ⟨.staleRevision, code, false⟩

/-- `++` on a `uint64_t`. -/
def increment (n : Nat) : Nat := (n + 1) % 2 ^ 64

/-- `CanAdvance`: a `uint64_t` that is not the largest one. -/
def canAdvance (n : Nat) : Bool := n < 2 ^ 64 - 1

def textByteLimit : Nat := 16 * 1024 * 1024

def documentByteLimit : Nat := 64 * 1024 * 1024

def recoveryEngineSchema : Nat := 1

def isContinuation (c : UInt8) : Bool := c &&& 0xc0 == 0x80

/-- `Value` after the bytes that continue a character. -/
def scalar (first : Nat) (more : List UInt8) : Nat :=
  more.foldl (fun value c => value * 64 + (c &&& 0x3f).toNat) first

/-- `ValidText`: UTF-8 without NUL. -/
def validText : Str → Bool
  | [] => true
  | c :: rest =>
    if c = 0 then false
    else if c < 0x80 then validText rest
    else if 0xc2 ≤ c ∧ c ≤ 0xdf then
      match rest with
      | a :: rest => isContinuation a && validText rest
      | _ => false
    else if 0xe0 ≤ c ∧ c ≤ 0xef then
      match rest with
      | a :: b :: rest =>
        let value := scalar (c &&& 0x0f).toNat [a, b]
        isContinuation a && isContinuation b && 0x800 ≤ value &&
          !(0xd800 ≤ value && value ≤ 0xdfff) && validText rest
      | _ => false
    else if 0xf0 ≤ c ∧ c ≤ 0xf4 then
      match rest with
      | a :: b :: d :: rest =>
        let value := scalar (c &&& 0x07).toNat [a, b, d]
        isContinuation a && isContinuation b && isContinuation d && 0x10000 ≤ value &&
          value ≤ 0x10ffff && validText rest
      | _ => false
    else false

/-- `ValidModel`. -/
def validModel (model : ExternalModelRevision) : Bool :=
  model.epoch != 0 && !model.savepoint.isEmpty && model.savepoint.length ≤ 128 &&
    model.savepoint.all fun c => 0x21 ≤ c && c ≤ 0x7e

/-- `LowerHex`. -/
def lowerHex (value : Str) (size : Nat) : Bool :=
  value.length == size && value.all fun c => (48 ≤ c && c ≤ 57) || (97 ≤ c && c ≤ 102)

/-- Two revisions of a model have the same content. -/
def sameContent (a b : ExternalModelRevision) : Bool :=
  a.epoch == b.epoch && a.savepoint == b.savepoint

/-- `PendingOperation`. -/
structure PendingOperation where
  ticket : OperationTicket
  save : SaveRequest := {}
  source : SourceIdentity
deriving DecidableEq, Repr

/-- `DocumentSession`, its `DocumentSnapshot` included. -/
structure Session where
  id : DocumentId
  source : SourceIdentity := {}
  lifecycle : Lifecycle := .opening
  saveState : SaveState := .idle
  generation : Nat := 1
  revision : Nat := 0
  savedRevision : Nat := 0
  dirty : Bool := false
  cancelRequested : Bool := false
  error : Option Error := none
  cleanupErrors : List Error := []
  contentMode : ContentMode := .inlineBytes
  operation : Operation := .idle
  model : ExternalModelRevision := {}
  savedModel : ExternalModelRevision := {}
  modelPolicy : ExternalModelPolicy := {}
  pending : Option PendingOperation := none
  nextOperation : Nat := 0
  text : Str := []
  savedText : Str := []
  saving : Option SaveTicket := none
  nextSave : Nat := 0
  undo : Bool := false
  redo : Bool := false
  binary : Bool := false
  unlimitedBytes : Bool := false
deriving DecidableEq, Repr

/-- The constructor. -/
def Session.new (id : DocumentId) (source : SourceIdentity) (contentMode : ContentMode)
    (modelPolicy : ExternalModelPolicy) : Session :=
  { id, source, contentMode, modelPolicy }

namespace Session

variable (s : Session)

/-- `IsBusy`. -/
def isBusy : Bool := s.saving.isSome || s.pending.isSome

/-- `Capabilities`. -/
def capabilities : Capabilities :=
  let ready := s.lifecycle == .ready
  let busy := s.isBusy
  match s.contentMode with
  | .externalModel =>
    { view := ready
      edit := ready && s.modelPolicy.edit
      copy := ready
      save := ready && !busy && s.modelPolicy.save && s.source.originalWritable
      saveAs := ready && !busy && s.modelPolicy.saveAs
      undo := ready && s.modelPolicy.edit && s.undo
      redo := ready && s.modelPolicy.edit && s.redo
      cancel := busy
      close := s.lifecycle != .closed && !busy
      print := ready && !busy && s.modelPolicy.print }
  | .inlineBytes =>
    { view := ready
      edit := ready
      copy := ready
      save := ready && !busy && s.source.originalWritable
      saveAs := ready && !busy
      undo := ready && s.undo
      redo := ready && s.redo
      cancel := busy || s.lifecycle == .opening
      close := s.lifecycle != .closed && !busy }

/-- Whether the session may write to where the request asks it to. -/
def maySave (request : SaveRequest) : Bool :=
  !request.destination.isEmpty &&
    match request.disposition with
    | .original => s.capabilities.save
    | .saveAs => s.capabilities.saveAs

/-- The text is too long. -/
def overBudget (text : Str) : Bool :=
  !s.unlimitedBytes && text.length > if s.binary then documentByteLimit else textByteLimit

/-- The session does not take the text. -/
def refuses (text : Str) : Bool := s.overBudget text || (!s.binary && !validText text)

/-! ## Inline bytes -/

/-- The text is replaced. -/
def edited (text : Str) : Session :=
  { s with
    text
    revision := if text ≠ s.text then increment s.revision else s.revision
    dirty := text != s.savedText }

/-- `Execute`. -/
def execute (command : String) (text : Str) : Except Error Session := do
  failIf (s.contentMode ≠ .inlineBytes) (invalid "document-external-model-command")
  failIf (command ≠ "document.setText") (invalid "document-command-unsupported")
  failIf (s.capabilities.edit = false) (invalid "document-edit-unavailable")
  failIf (s.refuses text) (invalid "document-text-budget-or-nul")
  pure (s.edited text)

/-- A new generation is opened. -/
def reopened : Session :=
  { s with
    generation := increment s.generation
    lifecycle := .opening
    cancelRequested := false
    error := none }

/-- `BeginOpen`. -/
def beginOpen (discard : Bool) : Except Error (Session × Nat) := do
  failIf (s.contentMode ≠ .inlineBytes) (invalid "document-external-model-load-required")
  failIf (s.lifecycle = .closed ∨ s.saving.isSome) (invalid "document-open-busy")
  failIf (s.dirty ∧ ¬ discard) (invalid "document-reload-dirty")
  pure (s.reopened, s.reopened.generation)

/-- The document that was opened is the content. -/
def opened (document : OpenedDocument) : Session :=
  let revision := increment s.revision
  { s with
    source := document.source
    text := document.text
    savedText := document.text
    revision
    savedRevision := revision
    dirty := false
    error := none
    cleanupErrors := []
    saveState := .idle
    lifecycle := .ready
    cancelRequested := false
    undo := false
    redo := false }

/-- There is no content to show. -/
def failedWith (e : Error) : Session := { s with lifecycle := .failed, error := some e }

/-- `CompleteOpen`. -/
def completeOpen (generation : Nat) (result : Except Error OpenedDocument) : Session × Bool :=
  if s.contentMode ≠ .inlineBytes then (s, false)
  else if generation ≠ s.generation ∨ s.lifecycle ≠ .opening then (s, false)
  else
    match result with
    | .error e => (s.failedWith e, true)
    | .ok document =>
      if s.refuses document.text then (s.failedWith (invalid "document-text-budget-or-nul"), true)
      else (s.opened document, true)

/-- The next save. -/
def saveTicket (request : SaveRequest) (revision : Nat) (text : Str) : SaveTicket :=
  { documentId := s.id, generation := s.generation, token := increment s.nextSave, revision, text
    destination := request.destination, disposition := request.disposition, source := s.source }

/-- The save runs. -/
def saveStarted (ticket : SaveTicket) : Session :=
  { s with
    nextSave := increment s.nextSave
    saving := some ticket
    saveState := .saving
    cancelRequested := false
    error := none
    cleanupErrors := [] }

/-- `SaveSnapshot`. -/
def saveSnapshot (request : SaveRequest) (revision : Nat) (text : Str) :
    Except Error (Session × SaveTicket) := do
  failIf (s.contentMode ≠ .inlineBytes) (invalid "document-export-required")
  failIf (revision > s.revision ∨ revision < s.savedRevision ∨ s.refuses text)
    (invalid "document-stale-revision")
  failIf (s.maySave request = false) (invalid "document-save-unavailable")
  let ticket := s.saveTicket request revision text
  pure (s.saveStarted ticket, ticket)

/-- `Save`. -/
def save (request : SaveRequest) : Except Error (Session × SaveTicket) :=
  s.saveSnapshot request s.revision s.text

/-- `updateModelDirty`. -/
def updateModelDirty : Session := { s with dirty := !sameContent s.model s.savedModel }

/-- The content of the ticket is what is saved. -/
def committed (ticket : SaveTicket) (result : DocumentSaveResult) : Session :=
  let s := { s with
    savedRevision := ticket.revision
    source := result.source.getD s.source
    saveState := .idle
    error := none
    cleanupErrors := result.cleanupErrors
    saving := none
    cancelRequested := false }
  match s.contentMode with
  | .externalModel => { s with savedModel := ticket.model }.updateModelDirty
  | .inlineBytes => { s with savedText := ticket.text, dirty := s.text != ticket.text }

/-- Nothing was saved. -/
def uncommitted (result : DocumentSaveResult) : Session :=
  let error := result.error.getD ⟨.unavailable, "document-not-committed", false⟩
  { s with
    error := some error
    saveState := if error.category = .staleRevision then .conflict else .failed
    saving := none
    cancelRequested := false }

/-- `CompleteSave`. -/
def completeSave (ticket : SaveTicket) (result : DocumentSaveResult) : Session × Bool :=
  match s.saving with
  | none => (s, false)
  | some saving =>
    if s.lifecycle = .closed ∨ ticket.documentId ≠ s.id ∨ ticket.generation ≠ s.generation ∨
        ticket.token ≠ saving.token then (s, false)
    else if result.committed then (s.committed saving result, true)
    else (s.uncommitted result, true)

/-- Cancellation is asked for. -/
def cancelling : Session := { s with cancelRequested := true }

/-- `Cancel`. -/
def cancel : Session :=
  if s.pending.isSome then s.cancelling
  else if s.capabilities.cancel then s.cancelling
  else s

/-- `finishOperation`. -/
def finishOperation : Session :=
  { s with pending := none, operation := .idle, cancelRequested := false }

/-- The session is over. -/
def shut : Session :=
  { s.finishOperation with
    generation := increment s.generation
    lifecycle := .closed
    source := { s.source with lease := none } }

/-- `Close`. -/
def close (disposition : CloseDisposition) : Except Error Session := do
  failIf (s.isBusy) (invalid "document-close-busy")
  failIf (s.dirty ∧ disposition ≠ .discard) (invalid "document-close-dirty")
  pure s.shut

/-! ## External models -/

def withSource (source : SourceIdentity) : Session := { s with source }

/-- `BindSourceAuthority`. -/
def bindSourceAuthority (binding : SourceAuthorityBinding) : Except Error Session := do
  failIf (s.contentMode ≠ .externalModel ∨ s.lifecycle ≠ .ready ∨ s.isBusy ∨ s.dirty ∨
    s.cancelRequested ∨ s.source.sourceToken ≠ [] ∨ s.source.originalWritable)
    (invalid "document-authority-unavailable")
  failIf (binding.documentId ≠ s.id ∨ binding.generation ≠ s.generation ∨
    binding.revision ≠ s.revision ∨ binding.model ≠ s.model) (stale "document-authority-stale")
  failIf (lowerHex s.source.inputSha256 64 = false ∨ binding.inputSha256 ≠ s.source.inputSha256)
    (stale "document-authority-input-mismatch")
  failIf (lowerHex binding.sourceToken 32 = false ∨ binding.origin.directory ∨
    binding.origin.provider = [] ∨ binding.origin.key = [] ∨
    binding.origin.revision.getD [] = []) (invalid "document-authority-invalid")
  pure (s.withSource { s.source with
    entry := some binding.origin
    sourceToken := binding.sourceToken
    originalWritable := binding.originalWritable })

/-- `matches`. -/
def matches_ (ticket : OperationTicket) (operation : Operation) : Bool :=
  s.contentMode == .externalModel && s.pending.any (·.ticket == ticket) &&
    ticket.operation == operation && ticket.documentId == s.id &&
    ticket.generation == s.generation && s.lifecycle != .closed

/-- `Cancel` of an operation. -/
def cancelOperation (ticket : OperationTicket) : Session × Bool :=
  if s.matches_ ticket ticket.operation then (s.cancel, true) else (s, false)

/-- `Cancel` of a save. -/
def cancelSave (ticket : SaveTicket) : Session × Bool :=
  match s.saving with
  | none => (s, false)
  | some saving =>
    if s.lifecycle = .closed ∨ ticket.documentId ≠ s.id ∨ ticket.generation ≠ s.generation ∨
        ticket.token ≠ saving.token ∨ ticket.revision ≠ saving.revision ∨
        ticket.model ≠ saving.model ∨ ticket.contentMode ≠ saving.contentMode ∨
        ticket.destination ≠ saving.destination ∨ ticket.disposition ≠ saving.disposition ∨
        ticket.source.lease ≠ saving.source.lease then (s, false)
    else (s.cancel, true)

/-- The operation ends as it was asked to. -/
def cancelled (operation : Operation) : Session :=
  { s.finishOperation with
    saveState := .idle
    error := some ⟨.cancelled, "document-operation-cancelled", false⟩
    lifecycle := if operation = .loading then .failed else s.lifecycle }

/-- `CompleteCancellation`. -/
def completeCancellation (ticket : OperationTicket) : Session × Bool :=
  if s.cancelRequested = false ∨ s.matches_ ticket ticket.operation = false then (s, false)
  else (s.cancelled ticket.operation, true)

/-- The session with a ticket for a new operation. -/
def started (generation : Nat) (operation : Operation) (model : ExternalModelRevision) :
    Session × OperationTicket :=
  let ticket : OperationTicket := {
    documentId := s.id, generation, token := increment s.nextOperation, revision := s.revision
    operation, model, lease := s.source.lease }
  ({ s with
    generation
    nextOperation := increment s.nextOperation
    pending := some { ticket, source := s.source }
    operation
    cancelRequested := false
    error := none }, ticket)

/-- A new generation is loaded. -/
def loading : Session × OperationTicket :=
  let started := s.started (increment s.generation) .loading {}
  ({ started.1 with lifecycle := .opening, saveState := .idle }, started.2)

/-- `BeginLoad`. -/
def beginLoad (discard : Bool) : Except Error (Session × OperationTicket) := do
  failIf (s.contentMode ≠ .externalModel ∨ s.isBusy ∨ s.lifecycle = .closed)
    (invalid "document-load-unavailable")
  failIf (s.dirty ∧ ¬ discard) (invalid "document-reload-dirty")
  failIf (canAdvance s.generation = false ∨ canAdvance s.revision = false ∨
    canAdvance s.nextOperation = false) (invalid "document-counter-exhausted")
  pure s.loading

/-- The model that was loaded is the content. -/
def loaded (result : LoadedExternalModel) : Session :=
  let revision := increment s.revision
  { s.finishOperation with
    source := result.source
    model := result.model
    savedModel := result.model
    revision
    savedRevision := revision
    dirty := false
    error := none
    cleanupErrors := []
    lifecycle := .ready
    undo := false
    redo := false
    text := []
    savedText := [] }

/-- `CompleteLoad`. -/
def completeLoad (ticket : OperationTicket) (result : Except Error LoadedExternalModel) :
    Session × Bool :=
  if s.matches_ ticket .loading = false ∨ s.lifecycle ≠ .opening then (s, false)
  else if s.cancelRequested then ((s.completeCancellation ticket).1, true)
  else
    match result with
    | .error e => (s.finishOperation.failedWith e, true)
    | .ok result =>
      if validModel result.model then (s.loaded result, true)
      else (s.finishOperation.failedWith (invalid "document-model-identity"), true)

/-- `hwp`. -/
def hwp : Str := [104, 119, 112]

/-- `hwpx`. -/
def hwpx : Str := [104, 119, 112, 120]

/-- The recovered model does not belong to the session, or not to itself. -/
def incompatible (ticket : OperationTicket) (result : LoadedExternalModel)
    (recovery : RecoverySnapshot) (bundleSha256 format : Str) : Bool :=
  recovery.id != s.id || recovery.contentMode != .externalModel || recovery.generation == 0 ||
    recovery.revision == 0 || recovery.savedRevision > recovery.revision ||
    !validModel recovery.model || !validModel recovery.savedModel ||
    recovery.dirty != !sameContent recovery.model recovery.savedModel ||
    recovery.model.epoch != recovery.savedModel.epoch || !validModel result.model ||
    result.model.savepoint != recovery.model.savepoint || !lowerHex bundleSha256 64 ||
    recovery.bundleSha256 != bundleSha256 || recovery.engineSchema != recoveryEngineSchema ||
    recovery.format != format || (format != hwp && format != hwpx) || recovery.bytes.isEmpty ||
    recovery.bytes.length > documentByteLimit || result.source.originalWritable ||
    !result.source.sourceToken.isEmpty || result.source.lease != ticket.lease ||
    !canAdvance recovery.revision || !canAdvance s.revision

/-- The recovered model is the content; what was saved before is still what is saved. -/
def restored (result : LoadedExternalModel) (recovery : RecoverySnapshot) : Session :=
  { s.finishOperation with
    source := result.source
    model := result.model
    savedModel := { recovery.savedModel with epoch := result.model.epoch, changeSequence := 0 }
    revision := increment (max s.revision recovery.revision)
    savedRevision := recovery.savedRevision
    lifecycle := .ready
    saveState := .idle
    error := none
    cleanupErrors := []
    undo := false
    redo := false
    text := []
    savedText := [] }.updateModelDirty

/-- `CompleteRestore`. -/
def completeRestore (ticket : OperationTicket) (result : LoadedExternalModel)
    (recovery : RecoverySnapshot) (bundleSha256 format : Str) : Session × Bool :=
  if s.matches_ ticket .loading = false ∨ s.lifecycle ≠ .opening then (s, false)
  else if s.cancelRequested then ((s.completeCancellation ticket).1, true)
  else if s.incompatible ticket result recovery bundleSha256 format then
    s.completeLoad ticket (.error (invalid "document-recovery-incompatible"))
  else (s.restored result recovery, true)

/-- The model has a new revision. -/
def changed (model : ExternalModelRevision) (undo redo : Bool) : Session :=
  { s with model, revision := increment s.revision, undo, redo }.updateModelDirty

/-- `ApplyModelChange`. -/
def applyModelChange (id : DocumentId) (generation : Nat) (model : ExternalModelRevision)
    (undo redo : Bool) : Session × Bool :=
  if id ≠ s.id ∨ generation ≠ s.generation ∨ s.contentMode ≠ .externalModel ∨
      s.lifecycle ≠ .ready ∨ s.modelPolicy.edit = false ∨ validModel model = false ∨
      model.epoch ≠ s.model.epoch ∨ model.changeSequence ≤ s.model.changeSequence ∨
      canAdvance s.revision = false then (s, false)
  else (s.changed model undo redo, true)

/-- `beginModelOperation`. -/
def beginModelOperation (operation : Operation) : Except Error (Session × OperationTicket) := do
  failIf (s.contentMode ≠ .externalModel ∨ s.lifecycle ≠ .ready ∨ s.isBusy)
    (invalid "document-operation-unavailable")
  failIf (canAdvance s.nextOperation = false) (invalid "document-counter-exhausted")
  pure (s.started s.generation operation s.model)

/-- The operation that was started exports for the request. -/
def exporting (request : SaveRequest) : Session :=
  { s with
    pending := s.pending.map fun pending => { pending with save := request }
    saveState := .exporting
    cleanupErrors := [] }

/-- `BeginExport`. -/
def beginExport (request : SaveRequest) : Except Error (Session × OperationTicket) := do
  failIf (s.maySave request = false) (invalid "document-save-unavailable")
  failIf (canAdvance s.nextSave = false) (invalid "document-counter-exhausted")
  let started ← s.beginModelOperation .exporting
  pure (started.1.exporting request, started.2)

/-- The operation ends with an error. -/
def unfinished (error : Error) : Session := { s.finishOperation with error := some error }

/-- The payload is of another revision of the model, or too long. -/
def badPayload (pending : PendingOperation) (payload : ExternalModelPayload) : Bool :=
  payload.model != pending.ticket.model || payload.bytes.isEmpty ||
    payload.bytes.length > documentByteLimit

/-- The result of an export as the session takes it. -/
def exported (pending : PendingOperation) :
    Except Error ExternalModelPayload → Except Error ExternalModelPayload
  | .error e => .error e
  | .ok payload =>
    if s.modelPolicy.exportRevision = .strictCurrentRevision ∧
        s.revision ≠ pending.ticket.revision then
      .error (stale "document-export-revision-changed")
    else if badPayload pending payload then .error (invalid "document-export-payload")
    else .ok payload

/-- The session with the save that follows an export. -/
def exportSaved (pending : PendingOperation) (generation : Nat) (payload : ExternalModelPayload) :
    Session × SaveTicket :=
  let ticket : SaveTicket := {
    documentId := s.id, generation, token := increment s.nextSave
    revision := pending.ticket.revision, text := payload.bytes
    destination := pending.save.destination, disposition := pending.save.disposition
    source := pending.source, contentMode := .externalModel, model := pending.ticket.model }
  ({ s.finishOperation with
    nextSave := increment s.nextSave, saving := some ticket, saveState := .saving }, ticket)

/-- The export ends with an error. -/
def unexported (e : Error) : Session :=
  { s.unfinished e with
    saveState := if e.category = .staleRevision then .conflict else .failed }

/-- `CompleteExport`. -/
def completeExport (ticket : OperationTicket) (result : Except Error ExternalModelPayload) :
    Session × Except Error SaveTicket :=
  match s.pending with
  | none => (s, .error (invalid "document-export-stale"))
  | some pending =>
    if s.matches_ ticket .exporting = false then (s, .error (invalid "document-export-stale"))
    else if s.cancelRequested then
      ((s.completeCancellation ticket).1,
        .error ⟨.cancelled, "document-operation-cancelled", false⟩)
    else
      match s.exported pending result with
      | .error e => (s.unexported e, .error e)
      | .ok payload =>
        ((s.exportSaved pending ticket.generation payload).1,
          .ok (s.exportSaved pending ticket.generation payload).2)

/-- `BeginPrint`. -/
def beginPrint : Except Error (Session × OperationTicket) := do
  failIf (s.capabilities.print = false) (invalid "document-print-unavailable")
  s.beginModelOperation .printing

/-- `CompletePrint`. -/
def completePrint (ticket : OperationTicket) (result : Except Error Unit) : Session × Bool :=
  if s.matches_ ticket .printing = false then (s, false)
  else if s.cancelRequested then ((s.completeCancellation ticket).1, true)
  else
    match result with
    | .error e => (s.unfinished e, true)
    | .ok () => (s.finishOperation, true)

/-- `BeginCheckpoint`. -/
def beginCheckpoint : Except Error (Session × OperationTicket) := do
  failIf (s.modelPolicy.checkpoint = false) (invalid "document-checkpoint-unavailable")
  s.beginModelOperation .checkpointing

/-- `CompleteCheckpoint`. -/
def completeCheckpoint (ticket : OperationTicket) (result : Except Error ExternalModelPayload) :
    Session × Except Error DocumentCheckpoint :=
  match s.pending with
  | none => (s, .error (invalid "document-checkpoint-stale"))
  | some pending =>
    if s.matches_ ticket .checkpointing = false then
      (s, .error (invalid "document-checkpoint-stale"))
    else if s.cancelRequested then
      ((s.completeCancellation ticket).1,
        .error ⟨.cancelled, "document-operation-cancelled", false⟩)
    else
      match result with
      | .error e => (s.unfinished e, .error e)
      | .ok payload =>
        if badPayload pending payload then
          (s.unfinished (invalid "document-checkpoint-payload"),
            .error (invalid "document-checkpoint-payload"))
        else
          (s.finishOperation,
            .ok { ticket := pending.ticket, source := pending.source, bytes := payload.bytes })

end Session

/-! ## Calls -/

/-- A call of a session. -/
inductive Call
  | execute (command : String) (text : Str)
  | beginOpen (discard : Bool)
  | completeOpen (generation : Nat) (result : Except Error OpenedDocument)
  | save (request : SaveRequest)
  | saveSnapshot (request : SaveRequest) (revision : Nat) (text : Str)
  | completeSave (ticket : SaveTicket) (result : DocumentSaveResult)
  | cancel
  | cancelOperation (ticket : OperationTicket)
  | cancelSave (ticket : SaveTicket)
  | completeCancellation (ticket : OperationTicket)
  | close (disposition : CloseDisposition)
  | bindSourceAuthority (binding : SourceAuthorityBinding)
  | beginLoad (discard : Bool)
  | completeLoad (ticket : OperationTicket) (result : Except Error LoadedExternalModel)
  | completeRestore (ticket : OperationTicket) (result : LoadedExternalModel)
    (recovery : RecoverySnapshot) (bundleSha256 format : Str)
  | applyModelChange (id : DocumentId) (generation : Nat) (model : ExternalModelRevision)
    (undo redo : Bool)
  | beginExport (request : SaveRequest)
  | completeExport (ticket : OperationTicket) (result : Except Error ExternalModelPayload)
  | beginPrint
  | completePrint (ticket : OperationTicket) (result : Except Error Unit)
  | beginCheckpoint
  | completeCheckpoint (ticket : OperationTicket) (result : Except Error ExternalModelPayload)
  | setHistoryState (undo redo : Bool)
  | setBinaryContent (binary : Bool)
  | setUnlimitedBytes (enabled : Bool)

/-- What a call answers. -/
inductive Reply
  | done
  | refused
  | failed (error : Error)
  | opening (generation : Nat)
  | operation (ticket : OperationTicket)
  | save (ticket : SaveTicket)
  | checkpoint (checkpoint : DocumentCheckpoint)

namespace Session

/-- A call that fails changes nothing. -/
def orSame {α : Type} (s : Session) (reply : α → Reply) :
    Except Error (Session × α) → Session × Reply
  | .ok (s', a) => (s', reply a)
  | .error e => (s, .failed e)

def withFlags (s : Session) (undo redo binary unlimitedBytes : Bool) : Session :=
  { s with undo, redo, binary, unlimitedBytes }

/-- A call that only says whether it did anything. -/
def answered (r : Session × Bool) : Session × Reply := (r.1, if r.2 then .done else .refused)

/-- A completion that gives something or fails, either of which may change the session. -/
def gave {α : Type} (reply : α → Reply) (r : Session × Except Error α) : Session × Reply :=
  (r.1, match r.2 with
    | .ok a => reply a
    | .error e => .failed e)

/-- One call. -/
def call (s : Session) : Call → Session × Reply
  | .execute command text => s.orSame (fun _ => .done) ((s.execute command text).map (·, ()))
  | .beginOpen discard => s.orSame .opening (s.beginOpen discard)
  | .completeOpen generation result => answered (s.completeOpen generation result)
  | .save request => s.orSame .save (s.save request)
  | .saveSnapshot request revision text => s.orSame .save (s.saveSnapshot request revision text)
  | .completeSave ticket result => answered (s.completeSave ticket result)
  | .cancel => (s.cancel, .done)
  | .cancelOperation ticket => answered (s.cancelOperation ticket)
  | .cancelSave ticket => answered (s.cancelSave ticket)
  | .completeCancellation ticket => answered (s.completeCancellation ticket)
  | .close disposition => s.orSame (fun _ => .done) ((s.close disposition).map (·, ()))
  | .bindSourceAuthority binding =>
    s.orSame (fun _ => .done) ((s.bindSourceAuthority binding).map (·, ()))
  | .beginLoad discard => s.orSame .operation (s.beginLoad discard)
  | .completeLoad ticket result => answered (s.completeLoad ticket result)
  | .completeRestore ticket result recovery bundleSha256 format =>
    answered (s.completeRestore ticket result recovery bundleSha256 format)
  | .applyModelChange id generation model undo redo =>
    answered (s.applyModelChange id generation model undo redo)
  | .beginExport request => s.orSame .operation (s.beginExport request)
  | .completeExport ticket result => gave .save (s.completeExport ticket result)
  | .beginPrint => s.orSame .operation s.beginPrint
  | .completePrint ticket result => answered (s.completePrint ticket result)
  | .beginCheckpoint => s.orSame .operation s.beginCheckpoint
  | .completeCheckpoint ticket result => gave .checkpoint (s.completeCheckpoint ticket result)
  | .setHistoryState undo redo => (s.withFlags undo redo s.binary s.unlimitedBytes, .done)
  | .setBinaryContent binary => (s.withFlags s.undo s.redo binary s.unlimitedBytes, .done)
  | .setUnlimitedBytes enabled => (s.withFlags s.undo s.redo s.binary enabled, .done)

/-- The session after one call. -/
def next (s : Session) (c : Call) : Session := (s.call c).1

end Session

end Hc.Document
