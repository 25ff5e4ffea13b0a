import HyperCommander.Document.SessionLemmas

/-!
# The savepoint of a session

- **Book**: what an owner can write down while it calls a session: the saves that it was given,
  and the content that was last loaded or last reported as committed (`Book.note`).
- **Savepoint**: the invariant of a session and its book. Every effect keeps it (`Savepoint.step`)
  but three: an open that fails after it was asked to be cancelled leaves the request behind, and
  two counters of inline sessions can overflow (`Careful`).
- **Main result**: `savepoint_of_careful`, over every run of calls.
-/

namespace Hc.Document

open Storage

/-- The identity of a content. -/
inductive Content
  | text (text : Str)
  | model (epoch : Nat) (savepoint : Str)
deriving DecidableEq, Repr

def ExternalModelRevision.content (model : ExternalModelRevision) : Content :=
  .model model.epoch model.savepoint

def SaveTicket.content (ticket : SaveTicket) : Content :=
  match ticket.contentMode with
  | .inlineBytes => .text ticket.text
  | .externalModel => ticket.model.content

theorem sameContent_iff {a b : ExternalModelRevision} :
    sameContent a b = true ↔ a.content = b.content := by
  simp [sameContent, ExternalModelRevision.content]

namespace Session

variable (s : Session)

/-- What the session shows. -/
def content : Content :=
  match s.contentMode with
  | .inlineBytes => .text s.text
  | .externalModel => s.model.content

/-- What the session takes for saved. -/
def savedContent : Content :=
  match s.contentMode with
  | .inlineBytes => .text s.savedText
  | .externalModel => s.savedModel.content

/-- An open, an operation or a save is in progress. -/
def inProgress : Prop :=
  (s.contentMode = .inlineBytes ∧ s.lifecycle = .opening) ∨ s.pending.isSome ∨ s.saving.isSome

instance : Decidable s.inProgress :=
  inferInstanceAs (Decidable ((_ ∧ _) ∨ _ ∨ _))

end Session

/-- What an owner knows of a session: the saves it was given, the latest first, and the content
that was last loaded or committed. -/
structure Book where
  issued : List SaveTicket := []
  baseline : Content

/-- The content before anything is loaded. -/
def Book.new : ContentMode → Book
  | .inlineBytes => { baseline := .text [] }
  | .externalModel => { baseline := .model 0 [] }

def Reply.isDone : Reply → Bool
  | .done => true
  | _ => false

/-- The content that the owner takes for saved after a call that was answered `done`. -/
def Book.settled (b : Book) (ready : Bool) : Call → Content
  | .completeOpen _ (.ok document) => if ready then .text document.text else b.baseline
  | .completeLoad _ (.ok result) => if ready then result.model.content else b.baseline
  | .completeRestore _ result recovery _ _ =>
    if ready then .model result.model.epoch recovery.savedModel.savepoint else b.baseline
  | .completeSave ticket result =>
    if result.committed then
      match b.issued.find? (·.token == ticket.token) with
      | some issued => issued.content
      | none => b.baseline
    else b.baseline
  | _ => b.baseline

/-- The book after a call. -/
def Book.note (b : Book) (c : Call) (s' : Session) (r : Reply) : Book :=
  { issued := match r with
      | .save ticket => ticket :: b.issued
      | _ => b.issued
    baseline := if r.isDone then b.settled (s'.lifecycle == .ready) c else b.baseline }

/-- A session and its book after some calls. -/
def run (s : Session) (b : Book) : List Call → Session × Book
  | [] => (s, b)
  | c :: calls => run (s.next c) (b.note c (s.next c) (s.call c).2) calls

/-- What is promised of a session and its book. -/
def Sound (s : Session) (b : Book) : Prop :=
  (s.dirty = true ↔ s.content ≠ b.baseline) ∧
  s.savedRevision ≤ s.revision ∧
  ¬ (s.saving.isSome ∧ s.pending.isSome) ∧
  (s.cancelRequested → s.inProgress) ∧
  ∀ ticket ∈ b.issued, ∀ result : DocumentSaveResult, result.committed →
    (s.completeSave ticket result).2 = true →
      (s.completeSave ticket result).1.savedContent = ticket.content ∧
        (s.completeSave ticket result).1.savedRevision = ticket.revision

/-- The call is none of the three that the session does not survive. -/
def Careful (s : Session) : Call → Prop
  | .execute command text =>
    s.contentMode = .inlineBytes → s.lifecycle = .ready → command = "document.setText" →
      s.refuses text = false → text ≠ s.text → canAdvance s.revision
  | .completeOpen generation result =>
    s.contentMode = .inlineBytes → s.lifecycle = .opening → generation = s.generation →
      s.cancelRequested → ∃ document, result = .ok document ∧ s.refuses document.text = false
  | .save request | .saveSnapshot request _ _ =>
    s.contentMode = .inlineBytes → s.maySave request → canAdvance s.nextSave
  | _ => True

/-- Every call of the run is careful. -/
def CarefulRun : Session → List Call → Prop
  | _, [] => True
  | s, c :: calls => Careful s c ∧ CarefulRun (s.next c) calls

/-- The invariant of a session and its book. -/
structure Savepoint (s : Session) (b : Book) : Prop where
  baseline : b.baseline = s.savedContent
  dirty : s.dirty = true ↔ s.content ≠ s.savedContent
  savedRevision : s.savedRevision ≤ s.revision
  cancelRequested : s.cancelRequested → s.inProgress
  inline : s.contentMode = .inlineBytes → s.pending = none
  pendingRevision : ∀ p, s.pending = some p → p.ticket.revision ≤ s.revision
  exporting : ∀ p, s.pending = some p → p.ticket.operation = .exporting →
    s.lifecycle = .ready ∧ canAdvance s.nextSave
  saving : ∀ t, s.saving = some t →
    s.pending = none ∧ s.lifecycle = .ready ∧ t.revision ≤ s.revision ∧
      t.contentMode = s.contentMode ∧ ∃ rest, b.issued = t :: rest
  tokens : ∀ t ∈ b.issued, t.token ≤ s.nextSave
  order : b.issued.Pairwise fun newer older => older.token < newer.token

namespace Savepoint

variable {s : Session} {b : Book}

theorem new (id : DocumentId) (source : SourceIdentity) (mode : ContentMode)
    (policy : ExternalModelPolicy) : Savepoint (.new id source mode policy) (.new mode) := by
  constructor <;> cases mode <;> simp [Session.new, Book.new, Session.savedContent,
    Session.content, ExternalModelRevision.content]

variable {t : SaveTicket} {s' : Session} {c : Call} {ticket : OperationTicket}

/-- A ticket of the book with the token of the running save is the running save. -/
theorem eq_saving (h : Savepoint s b) {saving : SaveTicket} (hs : s.saving = some saving)
    (ht : t ∈ b.issued) (he : t.token = saving.token) : t = saving := by
  obtain ⟨-, -, -, -, rest, hb⟩ := h.saving saving hs
  rw [hb, List.mem_cons] at ht
  rcases ht with rfl | ht
  · rfl
  · have ho := h.order
    rw [hb, List.pairwise_cons] at ho
    have := ho.1 t ht
    omega

theorem committed_savedContent {result : DocumentSaveResult}
    (h : t.contentMode = s.contentMode) : (s.committed t result).savedContent = t.content := by
  unfold Session.committed
  rcases hc : s.contentMode <;>
    simp [Session.savedContent, SaveTicket.content, Session.updateModelDirty, hc, h]

theorem sound (h : Savepoint s b) : Sound s b := by
  refine ⟨h.baseline ▸ h.dirty, h.savedRevision, ?_, h.cancelRequested, ?_⟩
  · rintro ⟨hs, hp⟩
    obtain ⟨t, ht⟩ := Option.isSome_iff_exists.1 hs
    simp [(h.saving t ht).1] at hp
  · intro ticket hm result hr hd
    rcases hs : s.saving with _ | saving
    · simp [Session.completeSave, hs] at hd
    simp only [Session.completeSave, hs, hr, if_true] at hd ⊢
    split at hd
    · cases hd
    · rename_i hg
      have ht : ticket.token = saving.token := by grind
      obtain rfl := h.eq_saving hs hm ht
      rw [if_neg hg]
      exact ⟨committed_savedContent (h.saving ticket hs).2.2.2.1, by simp⟩

/-- Nothing that the savepoint is about changes but the end of an operation. -/
structure Keeps (s s' : Session) : Prop where
  contentMode : s'.contentMode = s.contentMode
  content : s'.content = s.content
  savedContent : s'.savedContent = s.savedContent
  dirty : s'.dirty = s.dirty
  revision : s'.revision = s.revision
  savedRevision : s'.savedRevision = s.savedRevision
  nextSave : s'.nextSave = s.nextSave
  pending : ∀ p, s'.pending = some p → s.pending = some p ∧ s'.lifecycle = s.lifecycle
  saving : ∀ t, s'.saving = some t → s.saving = some t ∧ s'.lifecycle = s.lifecycle

theorem Keeps.pending_none (hk : Keeps s s') (h : s.pending = none) :
    s'.pending = none := by
  rcases hp : s'.pending with _ | p
  · rfl
  · rw [(hk.pending p hp).1] at h
    cases h

theorem keeps (h : Savepoint s b) (hk : Keeps s s')
    (hc : s'.cancelRequested → s'.inProgress) : Savepoint s' b where
  baseline := hk.savedContent ▸ h.baseline
  dirty := by rw [hk.dirty, hk.content, hk.savedContent]; exact h.dirty
  savedRevision := by rw [hk.revision, hk.savedRevision]; exact h.savedRevision
  cancelRequested := hc
  inline hm := hk.pending_none (h.inline (hk.contentMode ▸ hm))
  pendingRevision p hp := by rw [hk.revision]; exact h.pendingRevision p (hk.pending p hp).1
  exporting p hp ho := by
    rw [hk.nextSave, (hk.pending p hp).2]
    exact h.exporting p (hk.pending p hp).1 ho
  saving t ht := by
    obtain ⟨ht, hl⟩ := hk.saving t ht
    obtain ⟨hp, hr, hv, hm, hb⟩ := h.saving t ht
    rw [hk.revision, hk.contentMode, hl]
    exact ⟨hk.pending_none hp, hr, hv, hm, hb⟩
  tokens := by rw [hk.nextSave]; exact h.tokens
  order := h.order

theorem note_eq {r : Reply} (hi : r.issues = none)
    (hd : r.isDone → b.settled (s'.lifecycle == .ready) c = b.baseline) : b.note c s' r = b := by
  unfold Book.note
  cases r <;> simp_all [Reply.issues, Reply.isDone]

theorem settled_of_delivers_none {ready : Bool} (hc : c.delivers = none) :
    b.settled ready c = b.baseline := by
  cases c <;> simp_all [Call.delivers, Book.settled]

theorem settled_of_operation {ready : Bool}
    (hc : c.delivers = some (.operation ticket)) (h : c.loads → ready = false) :
    b.settled ready c = b.baseline := by
  cases c <;> simp_all [Call.delivers, Call.loads, Book.settled]
  case completeLoad result => cases result <;> simp

theorem step_keeps (h : Savepoint s b) {r : Reply}
    (hi : r.issues = none) (hd : r.isDone → b.settled (s'.lifecycle == .ready) c = b.baseline)
    (hk : Keeps s s') (hc : s'.cancelRequested → s'.inProgress) :
    Savepoint s' (b.note c s' r) := by
  rw [note_eq hi hd]
  exact h.keeps hk hc

/-! ## Effects that change the content, the baseline or what runs -/

theorem saving_none (h : Savepoint s b) (hl : s.lifecycle ≠ .ready) : s.saving = none := by
  rcases hs : s.saving with _ | t
  · rfl
  · exact absurd (h.saving t hs).2.1 hl

theorem edited (h : Savepoint s b) {text : Str} (hm : s.contentMode = .inlineBytes)
    (hv : text ≠ s.text → canAdvance s.revision) : Savepoint (s.edited text) b := by
  have hle : s.revision ≤ (s.edited text).revision := by
    simp only [Session.edited]
    split
    · rename_i ht
      rw [increment_of_canAdvance (hv ht)]
      omega
    · exact Nat.le_refl _
  exact {
    baseline := h.baseline
    dirty := by simp [Session.edited, Session.content, Session.savedContent, hm]
    savedRevision := Nat.le_trans h.savedRevision hle
    cancelRequested := h.cancelRequested
    inline := h.inline
    pendingRevision := fun p hp => Nat.le_trans (h.pendingRevision p hp) hle
    exporting := h.exporting
    saving := fun t ht =>
      let ⟨hp, hr, hv, hb⟩ := h.saving t ht
      ⟨hp, hr, Nat.le_trans hv hle, hb⟩
    tokens := h.tokens
    order := h.order }

theorem opened (h : Savepoint s b) {document : OpenedDocument} (hm : s.contentMode = .inlineBytes)
    (hl : s.lifecycle = .opening) :
    Savepoint (s.opened document) { b with baseline := .text document.text } := by
  have hs : s.saving = none := h.saving_none (by simp [hl])
  have hp : s.pending = none := h.inline hm
  exact {
    baseline := by simp [Session.opened, Session.savedContent, hm]
    dirty := by simp [Session.opened, Session.content, Session.savedContent, hm]
    savedRevision := Nat.le_refl _
    cancelRequested := by simp [Session.opened]
    inline := fun _ => hp
    pendingRevision := by simp [Session.opened, hp]
    exporting := by simp [Session.opened, hp]
    saving := by simp [Session.opened, hs]
    tokens := h.tokens
    order := h.order }

/-- A save starts, with the next token. -/
theorem save (h : Savepoint s b) (hk : s'.content = s.content)
    (hsv : s'.savedContent = s.savedContent) (hd : s'.dirty = s.dirty)
    (hrv : s'.revision = s.revision) (hsr : s'.savedRevision = s.savedRevision)
    (hc : s'.cancelRequested = false) (hp : s'.pending = none) (hs : s'.saving = some t)
    (hl : s'.lifecycle = .ready) (hn : canAdvance s.nextSave)
    (hns : s'.nextSave = increment s.nextSave) (ht : t.token = increment s.nextSave)
    (htr : t.revision ≤ s.revision) (hm : t.contentMode = s'.contentMode) :
    Savepoint s' { b with issued := t :: b.issued } := by
  have hnext := increment_of_canAdvance hn
  exact {
    baseline := hsv ▸ h.baseline
    dirty := by rw [hd, hk, hsv]; exact h.dirty
    savedRevision := by rw [hsr, hrv]; exact h.savedRevision
    cancelRequested := by simp [hc]
    inline := fun _ => hp
    pendingRevision := by simp [hp]
    exporting := by simp [hp]
    saving := by
      intro t' ht'
      obtain rfl : t = t' := by simpa [hs] using ht'
      exact ⟨hp, hl, hrv ▸ htr, hm, _, rfl⟩
    tokens := by
      intro t' ht'
      rcases List.mem_cons.1 ht' with rfl | ht'
      · omega
      · have := h.tokens t' ht'
        omega
    order := by
      refine List.pairwise_cons.2 ⟨fun t' ht' => ?_, h.order⟩
      have := h.tokens t' ht'
      omega }

theorem committed (h : Savepoint s b) {result : DocumentSaveResult} (hs : s.saving = some t) :
    Savepoint (s.committed t result) { b with baseline := t.content } := by
  obtain ⟨hp, hl, hv, hm, hb⟩ := h.saving t hs
  exact {
    baseline := (committed_savedContent hm).symm
    dirty := by
      unfold Session.committed
      rcases s.contentMode <;>
        simp [Session.updateModelDirty, Session.content, Session.savedContent, ← sameContent_iff]
    savedRevision := by simpa using hv
    cancelRequested := by simp
    inline := by simp [hp]
    pendingRevision := by simp [hp]
    exporting := by simp [hp]
    saving := by simp
    tokens := by simpa using h.tokens
    order := h.order }

/-- An operation starts. -/
theorem start (h : Savepoint s b) {p : PendingOperation} (hm : s.contentMode = .externalModel)
    (hb : s.isBusy = false) (hcm : s'.contentMode = s.contentMode) (hk : s'.content = s.content)
    (hsv : s'.savedContent = s.savedContent) (hd : s'.dirty = s.dirty)
    (hrv : s'.revision = s.revision) (hsr : s'.savedRevision = s.savedRevision)
    (hc : s'.cancelRequested = false) (hp : s'.pending = some p) (hs : s'.saving = s.saving)
    (hns : s'.nextSave = s.nextSave) (hpr : p.ticket.revision = s.revision)
    (he : p.ticket.operation = .exporting → s'.lifecycle = .ready ∧ canAdvance s.nextSave) :
    Savepoint s' b where
  baseline := hsv ▸ h.baseline
  dirty := by rw [hd, hk, hsv]; exact h.dirty
  savedRevision := by rw [hsr, hrv]; exact h.savedRevision
  cancelRequested := by simp [hc]
  inline hi := by simp [hcm, hm] at hi
  pendingRevision := by simp [hp, hpr, hrv]
  exporting := by simpa [hp, hns] using he
  saving := by simp [hs, (Session.idle_of_not_busy hb).1]
  tokens := by rw [hns]; exact h.tokens
  order := h.order

/-- A model is loaded or restored. -/
theorem load (h : Savepoint s b) (hm : s.contentMode = .externalModel)
    (hcm : s'.contentMode = s.contentMode) (hd : s'.dirty = !sameContent s'.model s'.savedModel)
    (hrv : s'.savedRevision ≤ s'.revision) (hc : s'.cancelRequested = false)
    (hp : s'.pending = none) (hs : s'.saving = none) (hns : s'.nextSave = s.nextSave) :
    Savepoint s' { b with baseline := s'.savedModel.content } where
  baseline := by simp [Session.savedContent, hcm, hm]
  dirty := by
    simp [hd, Session.content, Session.savedContent, hcm, hm, ← sameContent_iff]
  savedRevision := hrv
  cancelRequested := by simp [hc]
  inline _ := hp
  pendingRevision := by simp [hp]
  exporting := by simp [hp]
  saving := by simp [hs]
  tokens := by rw [hns]; exact h.tokens
  order := h.order

theorem changed (h : Savepoint s b) {model : ExternalModelRevision} {undo redo : Bool}
    (hm : s.contentMode = .externalModel) (hv : canAdvance s.revision) :
    Savepoint (s.changed model undo redo) b := by
  have hle : s.revision ≤ (s.changed model undo redo).revision := by
    show s.revision ≤ increment s.revision
    rw [increment_of_canAdvance hv]
    omega
  exact {
    baseline := h.baseline
    dirty := by
      simp [Session.changed, Session.updateModelDirty, Session.content, Session.savedContent, hm,
        ← sameContent_iff]
    savedRevision := Nat.le_trans h.savedRevision hle
    cancelRequested := h.cancelRequested
    inline := h.inline
    pendingRevision := fun p hp => Nat.le_trans (h.pendingRevision p hp) hle
    exporting := h.exporting
    saving := fun t ht =>
      let ⟨hp, hr, hv, hb⟩ := h.saving t ht
      ⟨hp, hr, Nat.le_trans hv hle, hb⟩
    tokens := h.tokens
    order := h.order }

/-- The book after a load that was not refused. -/
theorem note_done :
    b.note c s' .done = { b with baseline := b.settled (s'.lifecycle == .ready) c } := by
  simp [Book.note, Reply.isDone]

theorem external_of_matches {operation : Operation}
    (h : s.matches_ ticket operation) : s.contentMode = .externalModel :=
  (Session.matches_iff.1 h).1

/-- While an operation runs, no save does. -/
theorem saving_none_of_matches (h : Savepoint s b)
    {operation : Operation} (hm : s.matches_ ticket operation) : s.saving = none := by
  obtain ⟨-, ⟨p, hp, -⟩, -⟩ := Session.matches_iff.1 hm
  rcases hs : s.saving with _ | t
  · rfl
  · cases (h.saving t hs).1.symm.trans hp

/-- Every careful effect keeps the savepoint. -/
theorem step (h : Savepoint s b) {c : Call} {s' : Session} {r : Reply}
    (he : s.Effect c s' r) (hc : Careful s c) : Savepoint s' (b.note c s' r) := by
  cases he with
  | idle hi hd =>
    have hk : Keeps s s :=
      ⟨rfl, rfl, rfl, rfl, rfl, rfl, rfl, fun _ h => ⟨h, rfl⟩, fun _ h => ⟨h, rfl⟩⟩
    refine h.step_keeps hi (fun hr => ?_) hk h.cancelRequested
    rcases hd with rfl | hd
    · rfl
    · cases r <;> simp_all [Reply.isDone, Reply.isFailure]
  | edited hm hr hcmd ht => exact h.edited hm fun hne => hc hm hr hcmd ht hne
  | reopened hm hl hs hd =>
    have hk : Keeps s s.reopened := by
      refine ⟨rfl, rfl, rfl, rfl, rfl, rfl, rfl, fun p hp => ?_, fun t ht => ?_⟩
      · cases (h.inline hm).symm.trans hp
      · cases hs.symm.trans ht
    exact h.keeps hk (by simp [Session.reopened])
  | unopened hm hl hf =>
    have hn : s.cancelRequested = false := by
      refine Bool.eq_false_iff.2 fun hr => ?_
      obtain ⟨d, hd, ht⟩ := hc hm hl rfl hr
      simp [hf d hd] at ht
    rename_i result e
    have hk : Keeps s (s.failedWith e) := by
      refine ⟨rfl, rfl, rfl, rfl, rfl, rfl, rfl, fun p hp => ?_, fun t ht => ?_⟩
      · cases (h.inline hm).symm.trans hp
      · cases (h.saving_none (by simp [hl])).symm.trans ht
    refine h.step_keeps rfl (fun _ => ?_) hk (by simp [Session.failedWith, hn])
    cases result <;> simp [Book.settled, Session.failedWith]
  | opened hm hl => exact h.opened hm hl
  | saveStarted hm hr hb hv hd hsv =>
    rename_i request revision text
    have hn : canAdvance s.nextSave := by
      rcases hd with rfl | rfl <;> exact hc hm hsv
    exact h.save (t := s.saveTicket request revision text) rfl rfl rfl rfl rfl rfl
      (h.inline hm) rfl hr hn rfl rfl hv hm.symm
  | committed hs ht hr =>
    rename_i ticket saving result
    have hb : b.settled ((s.committed saving result).lifecycle == .ready)
        (.completeSave ticket result) = saving.content := by
      obtain ⟨-, -, -, -, rest, hb⟩ := h.saving saving hs
      simp [Book.settled, hr, hb, ht]
    rw [note_done, hb]
    exact h.committed hs
  | uncommitted hs hr =>
    rename_i ticket saving result
    have hk : Keeps s (s.uncommitted result) :=
      ⟨rfl, rfl, rfl, rfl, rfl, rfl, rfl, fun _ h => ⟨h, rfl⟩, of_none⟩
    exact h.step_keeps rfl (fun _ => by simp [Book.settled, hr]) hk (by simp [Session.uncommitted])
  | cancelling hb hd =>
    have hk : Keeps s s.cancelling :=
      ⟨rfl, rfl, rfl, rfl, rfl, rfl, rfl, fun _ h => ⟨h, rfl⟩, fun _ h => ⟨h, rfl⟩⟩
    refine h.step_keeps rfl (fun _ => ?_) hk fun _ => ?_
    · rcases hd with rfl | ⟨t, rfl⟩ | ⟨t, rfl⟩ <;> rfl
    · rcases hb with hb | hb
      · rw [Session.isBusy, Bool.or_eq_true] at hb
        exact .inr hb.symm
      · exact .inl hb
  | shut hb =>
    have hk : Keeps s s.shut := by
      refine ⟨rfl, rfl, rfl, rfl, rfl, rfl, rfl, of_none, fun t ht => ?_⟩
      cases (Session.idle_of_not_busy hb).1.symm.trans ht
    exact h.keeps hk (by simp [Session.shut, Session.finishOperation])
  | withSource =>
    exact h.keeps ⟨rfl, rfl, rfl, rfl, rfl, rfl, rfl, fun _ h => ⟨h, rfl⟩, fun _ h => ⟨h, rfl⟩⟩
      h.cancelRequested
  | withFlags hd _ =>
    exact h.step_keeps rfl (fun _ => settled_of_delivers_none hd)
      ⟨rfl, rfl, rfl, rfl, rfl, rfl, rfl, fun _ h => ⟨h, rfl⟩, fun _ h => ⟨h, rfl⟩⟩
      h.cancelRequested
  | loading hm hb hl hg ho =>
    exact h.start hm hb rfl rfl rfl rfl rfl rfl rfl rfl rfl rfl rfl fun h => by cases h
  | cancelled hd hm hk hr =>
    rename_i ticket
    have hs := h.saving_none_of_matches hm
    refine h.step_keeps hr (fun _ => settled_of_operation hd fun hl => ?_)
      ⟨rfl, rfl, rfl, rfl, rfl, rfl, rfl, of_none, fun t ht => ?_⟩ of_false
    · simp [Session.cancelled, hk hl]
    · cases hs.symm.trans ht
  | unloaded hm hd =>
    have hs := h.saving_none_of_matches hm
    refine h.step_keeps rfl (fun _ => settled_of_operation hd fun _ => rfl)
      ⟨rfl, rfl, rfl, rfl, rfl, rfl, rfl, of_none, fun t ht => ?_⟩ of_false
    cases hs.symm.trans ht
  | loaded hm =>
    exact h.load (external_of_matches hm) rfl (by simp [Session.loaded, sameContent])
      (Nat.le_refl _) rfl rfl (h.saving_none_of_matches hm) rfl
  | restored hm hi =>
    rename_i ticket result recovery bundleSha256 format
    have hv : recovery.savedRevision ≤ recovery.revision ∧ canAdvance recovery.revision ∧
        canAdvance s.revision := by
      simp only [Session.incompatible, Bool.or_eq_false_iff, Bool.not_eq_false',
        decide_eq_false_iff_not] at hi
      exact ⟨by omega, hi.1.2, hi.2⟩
    have hle : (s.restored result recovery).savedRevision ≤
        (s.restored result recovery).revision := by
      show recovery.savedRevision ≤ increment (max s.revision recovery.revision)
      have hmax : canAdvance (max s.revision recovery.revision) := by grind
      rw [increment_of_canAdvance hmax]
      omega
    exact h.load (external_of_matches hm) rfl rfl hle rfl rfl (h.saving_none_of_matches hm) rfl
  | changed hm hr hv => exact h.changed hm hv
  | exporting hm hr hb ho hn =>
    exact h.start hm hb rfl rfl rfl rfl rfl rfl rfl rfl rfl rfl rfl fun _ => ⟨hr, hn⟩
  | started hm hr hb ho hd hn => 
    exact h.start hm hb rfl rfl rfl rfl rfl rfl rfl rfl rfl rfl rfl fun he => absurd he hn
  | unexported hm =>
    have hs := h.saving_none_of_matches hm
    refine h.step_keeps rfl (fun h => by cases h)
      ⟨rfl, rfl, rfl, rfl, rfl, rfl, rfl, of_none, fun t ht => ?_⟩ of_false
    cases hs.symm.trans ht
  | exportSaved hm hp =>
    rename_i ticket pending payload
    obtain ⟨hcm, ⟨p, hp', ht⟩, ho, -⟩ := Session.matches_iff.1 hm
    obtain rfl : pending = p := by simpa [hp'] using hp.symm
    obtain ⟨hl, hn⟩ := h.exporting pending hp (by rw [ht, ho])
    exact h.save rfl rfl rfl rfl rfl rfl rfl rfl hl hn rfl rfl (h.pendingRevision pending hp)
      hcm.symm
  | unfinished hd hm hk hr =>
    have hs := h.saving_none_of_matches hm
    refine h.step_keeps hr (fun _ => settled_of_operation hd (by simp [hk]))
      ⟨rfl, rfl, rfl, rfl, rfl, rfl, rfl, of_none, fun t ht => ?_⟩ of_false
    cases hs.symm.trans ht
  | finished hd hm hk hr =>
    have hs := h.saving_none_of_matches hm
    refine h.step_keeps hr (fun _ => settled_of_operation hd (by simp [hk]))
      ⟨rfl, rfl, rfl, rfl, rfl, rfl, rfl, of_none, fun t ht => ?_⟩ of_false
    cases hs.symm.trans ht

theorem next (h : Savepoint s b) (hc : Careful s c) :
    Savepoint (s.next c) (b.note c (s.next c) (s.call c).2) :=
  h.step (Session.effect_call c) hc

/-- Every careful run keeps the savepoint. -/
theorem run (h : Savepoint s b) {calls : List Call} (hc : CarefulRun s calls) :
    Savepoint (run s b calls).1 (run s b calls).2 := by
  induction calls generalizing s b with
  | nil => exact h
  | cons c calls ih => exact ih (h.next hc.1) hc.2

/-- An open that fails after it was asked to be cancelled leaves the request behind. -/
theorem not_sound_of_careless_open (h : Savepoint s b) {generation : Nat}
    {result : Except Error OpenedDocument} (hc : ¬ Careful s (.completeOpen generation result))
    (b' : Book) : ¬ Sound (s.next (.completeOpen generation result)) b' := by
  simp only [Careful, not_forall, not_exists, not_and, Bool.not_eq_false] at hc
  obtain ⟨hm, hl, rfl, hr, hf⟩ := hc
  obtain ⟨e, he⟩ : ∃ e, s.next (.completeOpen s.generation result) = s.failedWith e := by
    have hg : ¬ (s.generation ≠ s.generation ∨ s.lifecycle ≠ .opening) := by simp [hl]
    simp only [Session.next, Session.call, Session.completeOpen, if_neg (not_not.2 hm), if_neg hg,
      Session.answered]
    rcases result with e | document
    · exact ⟨e, rfl⟩
    · simp only [hf document rfl, if_true]
      exact ⟨_, rfl⟩
  rw [he]
  rintro ⟨-, -, -, hp, -⟩
  have hs := h.saving_none (by simp [hl])
  have hn := h.inline hm
  rcases hp hr with ⟨-, hp⟩ | hp | hp
  · cases hp
  · simp [Session.failedWith, hn] at hp
  · simp [Session.failedWith, hs] at hp

end Savepoint

/-- In every run of careful calls, the session is dirty exactly when it shows something else than
what was last loaded or committed, nothing runs beside a save, a request to cancel never outlives
what it was for, and a save that commits saves its own ticket. -/
theorem savepoint_of_careful (id : DocumentId) (source : SourceIdentity) (mode : ContentMode)
    (policy : ExternalModelPolicy) (calls : List Call)
    (h : CarefulRun (.new id source mode policy) calls) :
    Sound (run (.new id source mode policy) (.new mode) calls).1
      (run (.new id source mode policy) (.new mode) calls).2 :=
  ((Savepoint.new id source mode policy).run h).sound

/-- A document is opened and edited, and saved while it is edited again. -/
theorem savepoint_of_careful_save :
    Sound
      (run (.new [] {} .inlineBytes {}) (.new .inlineBytes)
        [.beginOpen false, .completeOpen 2 (.ok ⟨{}, [104]⟩), .execute "document.setText" [105],
          .save ⟨.saveAs, [97]⟩, .cancel, .execute "document.setText" [106]]).1
      (run (.new [] {} .inlineBytes {}) (.new .inlineBytes)
        [.beginOpen false, .completeOpen 2 (.ok ⟨{}, [104]⟩), .execute "document.setText" [105],
          .save ⟨.saveAs, [97]⟩, .cancel, .execute "document.setText" [106]]).2 := by
  refine savepoint_of_careful [] {} .inlineBytes {} _ ⟨trivial, ?_, ?_, ?_, trivial, ?_, trivial⟩
  · intro _ _ _ h
    exact absurd h (by decide)
  · intro _ _ _ _ _
    decide
  · intro _ _
    decide
  · intro _ _ _ _ _
    decide

/-- The session is opened, the open is asked to be cancelled, and fails. -/
theorem savepoint_failed_open :
    ¬ Sound
      (run (.new [] {} .inlineBytes {}) (.new .inlineBytes)
        [.beginOpen false, .cancel, .completeOpen 2 (.error (invalid "io"))]).1
      (run (.new [] {} .inlineBytes {}) (.new .inlineBytes)
        [.beginOpen false, .cancel, .completeOpen 2 (.error (invalid "io"))]).2 := by
  rintro ⟨-, -, -, h, -⟩
  exact absurd (h (by decide)) (by decide)

end Hc.Document
