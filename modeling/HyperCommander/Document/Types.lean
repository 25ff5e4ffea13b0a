import HyperCommander.Storage.Types

/-!
# Values of document sessions (`commonLibs/document/documentTypes.hpp`)

Times, presentation hints and the bytes behind a lease are left out. A lease is the number of the
object that its pointer points to.
-/

namespace Hc.Document

open Storage

/-- `DocumentId`. -/
abbrev DocumentId := Str

/-- `DocumentLifecycle`. -/
inductive Lifecycle
  | opening
  | ready
  | failed
  | closed
deriving DecidableEq, Repr

/-- `DocumentSaveState`. -/
inductive SaveState
  | idle
  | saving
  | conflict
  | failed
  | exporting
deriving DecidableEq, Repr

/-- `SaveDisposition`. -/
inductive SaveDisposition
  | original
  | saveAs
deriving DecidableEq, Repr

/-- `CloseDisposition`. -/
inductive CloseDisposition
  | keepChanges
  | discard
deriving DecidableEq, Repr

/-- `DocumentContentMode`. -/
inductive ContentMode
  | inlineBytes
  | externalModel
deriving DecidableEq, Repr

/-- `DocumentOperation`. -/
inductive Operation
  | idle
  | loading
  | exporting
  | checkpointing
  | printing
deriving DecidableEq, Repr

/-- `ExternalModelRevision`. -/
structure ExternalModelRevision where
  epoch : Nat := 0
  changeSequence : Nat := 0
  savepoint : Str := []
deriving DecidableEq, Repr

/-- `ExportRevisionPolicy`. -/
inductive ExportRevisionPolicy
  | strictCurrentRevision
  | immutableSnapshot
deriving DecidableEq, Repr

/-- `ExternalModelPolicy`. -/
structure ExternalModelPolicy where
  edit : Bool := false
  save : Bool := false
  saveAs : Bool := false
  checkpoint : Bool := false
  exportRevision : ExportRevisionPolicy := .strictCurrentRevision
  print : Bool := false
deriving DecidableEq, Repr

/-- What sessions look at in an `EntrySnapshot`. -/
structure SourceEntry where
  provider : Str
  key : Str
  revision : Option Str
  directory : Bool
deriving DecidableEq, Repr

/-- `SourceIdentity`. -/
structure SourceIdentity where
  entry : Option SourceEntry := none
  lease : Option Nat := none
  localPath : Str := []
  sourceToken : Str := []
  originalWritable : Bool := false
  inputSha256 : Str := []
deriving DecidableEq, Repr

/-- `DocumentOperationTicket`. -/
structure OperationTicket where
  documentId : DocumentId
  generation : Nat
  token : Nat
  revision : Nat
  operation : Operation
  model : ExternalModelRevision
  lease : Option Nat
deriving DecidableEq, Repr

/-- `SourceAuthorityBinding`. -/
structure SourceAuthorityBinding where
  documentId : DocumentId
  generation : Nat
  revision : Nat
  model : ExternalModelRevision
  inputSha256 : Str
  sourceToken : Str
  origin : SourceEntry
  originalWritable : Bool
deriving DecidableEq, Repr

/-- `DocumentCapabilities`. -/
structure Capabilities where
  view : Bool := false
  edit : Bool := false
  copy : Bool := false
  save : Bool := false
  saveAs : Bool := false
  undo : Bool := false
  redo : Bool := false
  cancel : Bool := false
  close : Bool := false
  print : Bool := false
deriving DecidableEq, Repr

/-- `OpenedDocument`. -/
structure OpenedDocument where
  source : SourceIdentity
  text : Str
deriving DecidableEq, Repr

/-- `SaveRequest`. -/
structure SaveRequest where
  disposition : SaveDisposition := .original
  destination : Str := []
deriving DecidableEq, Repr

/-- `SaveTicket`. -/
structure SaveTicket where
  documentId : DocumentId
  generation : Nat
  token : Nat
  revision : Nat
  text : Str
  destination : Str
  disposition : SaveDisposition
  source : SourceIdentity
  contentMode : ContentMode := .inlineBytes
  model : ExternalModelRevision := {}
deriving DecidableEq, Repr

/-- `LoadedExternalModel`. -/
structure LoadedExternalModel where
  source : SourceIdentity
  model : ExternalModelRevision
deriving DecidableEq, Repr

/-- `ExternalModelPayload`. -/
structure ExternalModelPayload where
  model : ExternalModelRevision
  bytes : Str
deriving DecidableEq, Repr

/-- `DocumentCheckpoint`. -/
structure DocumentCheckpoint where
  ticket : OperationTicket
  source : SourceIdentity
  bytes : Str
deriving DecidableEq, Repr

/-- `DocumentSaveResult`. -/
structure DocumentSaveResult where
  committed : Bool := false
  source : Option SourceIdentity := none
  error : Option Error := none
  cleanupErrors : List Error := []
deriving DecidableEq, Repr

/-- `RecoverySnapshot`, with what `CompleteRestore` reads of its document. -/
structure RecoverySnapshot where
  id : DocumentId
  contentMode : ContentMode
  generation : Nat
  revision : Nat
  savedRevision : Nat
  dirty : Bool
  model : ExternalModelRevision
  savedModel : ExternalModelRevision
  bytes : Str
  bundleSha256 : Str
  format : Str
  engineSchema : Nat
deriving DecidableEq, Repr

end Hc.Document
