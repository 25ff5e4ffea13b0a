import HyperCommander.Document.SessionLemmas

/-!
# The tickets of a session

- **Counters**: what an effect can do to the generation, to the operations and to the saves
  (`generation_step`, `operation_step`, `save_step`).
- **Over**: a ticket that was given out and whose operation has ended (`Over`). No later effect
  brings it back as long as the counters of inline sessions do not overflow (`InRange`).
- **Main result**: `tickets_of_inRange`, over every run of calls.
-/

namespace Hc.Document

open Option Storage

/-- The call brings back the result of a ticket, or its acknowledgement. -/
def Call.completes : Call → Option Ticket
  | .cancelOperation _ => none
  | .cancelSave _ => none
  | c => c.delivers

namespace Session

/-- The call was not refused, or it changed something. -/
def Reacts (s : Session) (c : Call) : Prop := (s.call c).2.isFailure = false ∨ s.next c ≠ s

instance (s : Session) (c : Call) : Decidable (s.Reacts c) :=
  inferInstanceAs (Decidable (_ ∨ _))

/-- The call is the end of the ticket. -/
def Ends (s : Session) (c : Call) (t : Ticket) : Prop :=
  (c.completes = some t ∧ s.Reacts c) ∨ (c.supersedes ∧ (s.call c).2.isFailure = false)

/-- The session after some calls. -/
def after (s : Session) (calls : List Call) : Session := calls.foldl next s

end Session

/-- The ticket was given out. -/
def Known (s : Session) : Ticket → Prop
  | .opening generation => generation ≤ s.generation ∨ s.lifecycle = .closed
  | .operation ticket => ticket.token ≤ s.nextOperation
  | .save ticket => ticket.token ≤ s.nextSave

/-- What the ticket stands for does not run. -/
def Over (s : Session) : Ticket → Prop
  | .opening generation => generation ≠ s.generation ∨ s.lifecycle ≠ .opening
  | .operation ticket => ∀ p, s.pending = some p → p.ticket.token ≠ ticket.token
  | .save ticket => ∀ saving, s.saving = some saving → saving.token ≠ ticket.token

/-- The call does not let a counter of an inline session overflow. -/
def InRange (s : Session) : Call → Prop
  | .beginOpen discard =>
    s.contentMode = .inlineBytes → s.lifecycle ≠ .closed → s.saving = none →
      (s.dirty → discard) → canAdvance s.generation
  | .save request | .saveSnapshot request _ _ =>
    s.contentMode = .inlineBytes → s.maySave request → canAdvance s.nextSave
  | _ => True

def InRangeRun : Session → List Call → Prop
  | _, [] => True
  | s, c :: calls => InRange s c ∧ InRangeRun (s.next c) calls

/-- An inline session has no operations, and an export leaves a token for its save. -/
structure Tidy (s : Session) : Prop where
  inline : s.contentMode = .inlineBytes → s.pending = none
  exporting : ∀ p, s.pending = some p → p.ticket.operation = .exporting → canAdvance s.nextSave

variable {s s' : Session} {c : Call} {r : Reply} {t : Ticket}

theorem not_awaits_of_over (h : Over s t) : ¬ s.awaits t := by
  cases t with
  | opening generation =>
    rintro ⟨-, hg, hl⟩
    exact h.elim (· hg) (· hl)
  | operation ticket =>
    intro ha
    obtain ⟨-, ⟨p, hp, rfl⟩, -⟩ := Session.matches_iff.1 ha
    exact h p hp rfl
  | save ticket =>
    rintro ⟨saving, hs, -, -, -, ht⟩
    exact h saving hs ht.symm

/-! ## Counters -/

/-- A session that is closed stays closed. -/
theorem closed_step (he : s.Effect c s' r) (h : s.lifecycle = .closed) :
    s'.lifecycle = .closed := by
  cases he with
  | shut hb => rfl
  | reopened hm hl hs hd => exact absurd h hl
  | unopened hm hl hf => exact nomatch h.symm.trans hl
  | opened hm hl => exact nomatch h.symm.trans hl
  | committed hs ht hr => rw [Session.committed_eqs.1, h]
  | loading hm hb hl hg ho => exact absurd h hl
  | cancelled hd hm hk hr => exact absurd h (Session.not_closed_of_matches hm)
  | unloaded hm hd => exact absurd h (Session.not_closed_of_matches hm)
  | loaded hm => exact absurd h (Session.not_closed_of_matches hm)
  | restored hm hi => exact absurd h (Session.not_closed_of_matches hm)
  | _ => exact h

theorem generation_step (he : s.Effect c s' r) (hc : InRange s c) :
    s'.lifecycle = .closed ∨
    (s'.generation = s.generation ∧ (s'.lifecycle = .opening → s.lifecycle = .opening)) ∨
    s'.generation = s.generation + 1 := by
  cases he with
  | reopened hm hl hs hd => exact .inr (.inr (increment_of_canAdvance (hc hm hl hs hd)))
  | loading hm hb hl hg ho => exact .inr (.inr (increment_of_canAdvance hg))
  | shut hb => exact .inl rfl
  | committed hs ht hr =>
    simp
  | cancelled hd hm hk hr =>
    refine .inr (.inl ⟨rfl, ?_⟩)
    simp only [Session.cancelled]
    split <;> simp
  | _ => exact .inr (.inl ⟨rfl, by first | exact id | exact nofun⟩)

theorem operation_step (he : s.Effect c s' r) :
    (s'.nextOperation = s.nextOperation ∧ ∀ p, s'.pending = some p → s.pending = some p) ∨
    (s'.nextOperation = s.nextOperation + 1 ∧
      ∀ p, s'.pending = some p → p.ticket.token = s'.nextOperation) := by
  cases he with
  | loading hm hb hl hg ho =>
    refine .inr ⟨increment_of_canAdvance ho, ?_⟩
    simp [Session.loading, Session.started]
  | exporting hm hr hb ho hn =>
    refine .inr ⟨increment_of_canAdvance ho, ?_⟩
    simp [Session.exporting, Session.started]
  | started hm hr hb ho hd hn =>
    refine .inr ⟨increment_of_canAdvance ho, ?_⟩
    simp [Session.started]
  | committed hs ht hr =>
    simp
  | _ => exact .inl ⟨rfl, by first | exact fun _ => id | exact of_none⟩

theorem save_step (h : Tidy s) (he : s.Effect c s' r) (hc : InRange s c) :
    (s'.nextSave = s.nextSave ∧ ∀ t, s'.saving = some t → s.saving = some t) ∨
    (s'.nextSave = s.nextSave + 1 ∧ ∀ t, s'.saving = some t → t.token = s'.nextSave) := by
  cases he with
  | saveStarted hm hr hb hv hd hsv =>
    have hn : canAdvance s.nextSave := by
      rcases hd with rfl | rfl <;> exact hc hm hsv
    refine .inr ⟨increment_of_canAdvance hn, ?_⟩
    simp [Session.saveStarted, Session.saveTicket]
  | exportSaved hm hp =>
    obtain ⟨-, ⟨p, hp', rfl⟩, ho, -⟩ := Session.matches_iff.1 hm
    refine .inr ⟨increment_of_canAdvance (h.exporting p hp' ho), ?_⟩
    simp [Session.exportSaved]
  | committed hs ht hr =>
    simp
  | _ => exact .inl ⟨rfl, by first | exact fun _ => id | exact of_none⟩

theorem Tidy.step (h : Tidy s) (he : s.Effect c s' r) : Tidy s' := by
  cases he with
  | saveStarted hm hr hb hv hd hsv =>
    have hp : s.pending = none := by simp_all [Session.isBusy]
    exact ⟨fun _ => hp, by simp [Session.saveStarted, hp]⟩
  | committed hs ht hr => exact ⟨by simpa using h.inline, by simpa using h.exporting⟩
  | loading hm hb hl hg ho => exact ⟨fun hi => absurd (hm.symm.trans hi) (by simp), by
      simp [Session.loading, Session.started]⟩
  | exporting hm hr hb ho hn => exact ⟨fun hi => absurd (hm.symm.trans hi) (by simp), by
      simpa [Session.exporting, Session.started] using hn⟩
  | started hm hr hb ho hd hn => exact ⟨fun hi => absurd (hm.symm.trans hi) (by simp), by
      simp [Session.started, hn]⟩
  | _ => first | exact ⟨h.inline, h.exporting⟩ | exact ⟨fun _ => rfl, of_none⟩

/-! ## Tickets that are known, and over -/

theorem Known.step (hk : Known s t) (h : Tidy s) (he : s.Effect c s' r) (hc : InRange s c) :
    Known s' t := by
  cases t with
  | opening generation =>
    rcases hk with hk | hk
    · rcases generation_step he hc with hl | ⟨hg, -⟩ | hg
      · exact .inr hl
      · exact .inl (hg ▸ hk)
      · exact .inl (by omega)
    · exact .inr (closed_step he hk)
  | operation ticket =>
    simp only [Known] at hk ⊢
    rcases operation_step he with ⟨hn, -⟩ | ⟨hn, -⟩ <;> omega
  | save ticket =>
    simp only [Known] at hk ⊢
    rcases save_step h he hc with ⟨hn, -⟩ | ⟨hn, -⟩ <;> omega

theorem Over.step (ho : Over s t) (hk : Known s t) (h : Tidy s) (he : s.Effect c s' r)
    (hc : InRange s c) : Over s' t := by
  cases t with
  | opening generation =>
    rcases hk with hk | hk
    · rcases generation_step he hc with hl | ⟨hg, hl⟩ | hg
      · exact .inr (by simp [hl])
      · exact ho.imp (hg ▸ ·) (mt hl)
      · exact .inl (by omega)
    · exact .inr (by simp [closed_step he hk])
  | operation ticket =>
    simp only [Known] at hk
    intro p hp
    rcases operation_step he with ⟨-, hs⟩ | ⟨hn, hs⟩
    · exact ho p (hs p hp)
    · have := hs p hp
      omega
  | save ticket =>
    simp only [Known] at hk
    intro saving hp
    rcases save_step h he hc with ⟨-, hs⟩ | ⟨hn, hs⟩
    · exact ho saving (hs saving hp)
    · have := hs saving hp
      omega

/-- A ticket that is given out is known. -/
theorem known_of_issues (he : s.Effect c s' r) (hi : r.issues = some t) : Known s' t := by
  cases he with
  | idle hn hd => cases hn.symm.trans hi
  | reopened hm hl hs hd =>
    obtain rfl := some.inj hi
    exact .inl (Nat.le_refl _)
  | saveStarted hm hr hb hv hd hsv =>
    obtain rfl := some.inj hi
    exact Nat.le_refl _
  | loading hm hb hl hg ho =>
    obtain rfl := some.inj hi
    exact Nat.le_refl _
  | exporting hm hr hb ho hn =>
    obtain rfl := some.inj hi
    exact Nat.le_refl _
  | started hm hr hb ho hd hn =>
    obtain rfl := some.inj hi
    exact Nat.le_refl _
  | exportSaved hm hp =>
    obtain rfl := some.inj hi
    exact Nat.le_refl _
  | cancelled hd hm hk hr => cases hr.symm.trans hi
  | unfinished hd hm hk hr => cases hr.symm.trans hi
  | finished hd hm hk hr => cases hr.symm.trans hi
  | _ => cases hi

theorem delivers_of_completes (h : c.completes = some t) : c.delivers = some t := by
  cases c <;> simp_all [Call.completes]

/-- A completion that has an effect is the end of its ticket. -/
theorem over_of_completes (hc : c.completes = some t) (h : s.Reacts c) : Over (s.next c) t := by
  have hd := delivers_of_completes hc
  have he := Session.effect_call (s := s) c
  unfold Session.Reacts at h
  unfold Session.next at h ⊢
  generalize (s.call c).1 = s' at he h ⊢
  generalize (s.call c).2 = r at he h
  cases he with
  | idle hi hf =>
    rcases hf with rfl | hf
    · cases hd
    · simp [hf] at h
  | cancelling hb hk =>
    rcases hk with rfl | ⟨ticket, rfl⟩ | ⟨ticket, rfl⟩ <;> cases hc
  | unopened hm hl hf =>
    obtain rfl := some.inj hd
    exact .inr (by simp [Session.failedWith])
  | opened hm hl =>
    obtain rfl := some.inj hd
    exact .inr (by simp [Session.opened])
  | saveStarted hm hr hb hv hk hsv => rcases hk with rfl | rfl <;> cases hd
  | committed hs ht hr =>
    obtain rfl := some.inj hd
    simp [Over]
  | uncommitted hs hr =>
    obtain rfl := some.inj hd
    exact of_none
  | withFlags hk _ => cases hk.symm.trans hd
  | started hm hr hb ho hk hn => rcases hk with rfl | rfl <;> cases hd
  | cancelled hk hm hl hr =>
    obtain rfl := some.inj (hk.symm.trans hd)
    exact of_none
  | unloaded hm hk =>
    obtain rfl := some.inj (hk.symm.trans hd)
    exact of_none
  | unfinished hk hm hl hr =>
    obtain rfl := some.inj (hk.symm.trans hd)
    exact of_none
  | finished hk hm hl hr =>
    obtain rfl := some.inj (hk.symm.trans hd)
    exact of_none
  | loaded hm =>
    obtain rfl := some.inj hd
    exact of_none
  | restored hm hi =>
    obtain rfl := some.inj hd
    exact of_none
  | unexported hm =>
    obtain rfl := some.inj hd
    exact of_none
  | exportSaved hm hp =>
    obtain rfl := some.inj hd
    exact of_none
  | _ => cases hd

theorem delivers_of_supersedes (h : c.supersedes) : c.delivers = none := by
  cases c <;> first | rfl | cases h

/-- Another life of the session is the end of every ticket. -/
theorem over_of_supersedes (h : Tidy s) (hk : Known s t) (hs : c.supersedes)
    (hf : (s.call c).2.isFailure = false) (hc : InRange s c) : Over (s.next c) t := by
  have he := Session.effect_call (s := s) c
  unfold Session.next
  generalize (s.call c).1 = s' at he ⊢
  generalize (s.call c).2 = r at he hf
  cases he with
  | idle hi hd =>
    rcases hd with rfl | hd
    · cases hs
    · simp [hd] at hf
  | reopened hm hl hsv hd =>
    cases t with
    | opening generation =>
      have hg : s.reopened.generation = s.generation + 1 :=
        increment_of_canAdvance (hc hm hl hsv hd)
      exact .inl (by have := hk.resolve_right hl; omega)
    | operation ticket =>
      intro p hp
      cases (h.inline hm).symm.trans hp
    | save ticket =>
      intro saving hp
      cases hsv.symm.trans hp
  | loading hm hb hl hg ho =>
    obtain ⟨hsv, hp⟩ := Session.idle_of_not_busy hb
    cases t with
    | opening generation =>
      have hg : s.loading.1.generation = s.generation + 1 := increment_of_canAdvance hg
      exact .inl (by have := hk.resolve_right hl; omega)
    | operation ticket =>
      have hn : increment s.nextOperation = s.nextOperation + 1 := increment_of_canAdvance ho
      simp only [Known] at hk
      simp only [Over, Session.loading, Session.started, some.injEq, forall_eq']
      omega
    | save ticket =>
      intro saving hp
      cases hsv.symm.trans hp
  | shut hb =>
    cases t with
    | opening generation => exact .inr (by simp [Session.shut])
    | operation ticket => exact of_none
    | save ticket =>
      intro saving hp
      cases (Session.idle_of_not_busy hb).1.symm.trans hp
  | saveStarted hm hr hb hv hk hsv => rcases hk with rfl | rfl <;> cases hs
  | cancelling hb hk => rcases hk with rfl | ⟨ticket, rfl⟩ | ⟨ticket, rfl⟩ <;> cases hs
  | withFlags _ hd => simp [hd] at hs
  | started hm hr hb ho hk hn => rcases hk with rfl | rfl <;> cases hs
  | cancelled hd hm hk hr => cases (delivers_of_supersedes hs).symm.trans hd
  | unloaded hm hd => cases (delivers_of_supersedes hs).symm.trans hd
  | unfinished hd hm hk hr => cases (delivers_of_supersedes hs).symm.trans hd
  | finished hd hm hk hr => cases (delivers_of_supersedes hs).symm.trans hd
  | _ => cases hs

/-- After the end of a ticket, it is over. -/
theorem over_of_ends (h : Tidy s) (hk : Known s t) (he : s.Ends c t) (hc : InRange s c) :
    Over (s.next c) t := by
  rcases he with ⟨hd, hr⟩ | ⟨hs, hf⟩
  · exact over_of_completes hd hr
  · exact over_of_supersedes h hk hs hf hc

/-! ## Runs -/

namespace Session

@[simp] theorem after_nil : s.after [] = s := rfl

@[simp] theorem after_cons {calls : List Call} : s.after (c :: calls) = (s.next c).after calls :=
  rfl

theorem after_append {calls rest : List Call} :
    s.after (calls ++ rest) = (s.after calls).after rest := List.foldl_append

end Session

variable {calls : List Call}

theorem inRangeRun_append {rest : List Call} :
    InRangeRun s (calls ++ rest) ↔ InRangeRun s calls ∧ InRangeRun (s.after calls) rest := by
  induction calls generalizing s with
  | nil => simp [InRangeRun]
  | cons c calls ih => simp [InRangeRun, ih, and_assoc]

theorem Tidy.new (id : DocumentId) (source : SourceIdentity) (mode : ContentMode)
    (policy : ExternalModelPolicy) : Tidy (.new id source mode policy) :=
  ⟨fun _ => rfl, of_none⟩

theorem Tidy.after (h : Tidy s) (calls : List Call) : Tidy (s.after calls) := by
  induction calls generalizing s with
  | nil => exact h
  | cons c calls ih => exact ih (h.step (Session.effect_call c))

theorem Known.after (hk : Known s t) (h : Tidy s)
    (hc : InRangeRun s calls) : Known (s.after calls) t := by
  induction calls generalizing s with
  | nil => exact hk
  | cons c calls ih =>
    have he := Session.effect_call (s := s) c
    exact ih (hk.step h he hc.1) (h.step he) hc.2

theorem Over.after (ho : Over s t) (hk : Known s t) (h : Tidy s)
    (hc : InRangeRun s calls) : Over (s.after calls) t := by
  induction calls generalizing s with
  | nil => exact ho
  | cons c calls ih =>
    have he := Session.effect_call (s := s) c
    exact ih (ho.step hk h he hc.1) (hk.step h he hc.1) (h.step he) hc.2

/-- How often a ticket is completed with an effect. -/
def completions (s : Session) (t : Ticket) : List Call → Nat
  | [] => 0
  | c :: calls =>
    (if c.completes = some t ∧ s.Reacts c then 1 else 0) + completions (s.next c) t calls

theorem completions_of_over (ho : Over s t) (hk : Known s t) (h : Tidy s)
    (hc : InRangeRun s calls) : completions s t calls = 0 := by
  induction calls generalizing s with
  | nil => rfl
  | cons c calls ih =>
    have he := Session.effect_call (s := s) c
    have hn : ¬ (c.completes = some t ∧ s.Reacts c) := by
      rintro ⟨hd, hr⟩
      obtain ⟨hs, hf⟩ :=
        Session.refused_of_not_awaits (delivers_of_completes hd) (not_awaits_of_over ho)
      exact hr.elim (by simp [hf]) (· hs)
    simp only [completions, if_neg hn, Nat.zero_add]
    exact ih (ho.step hk h he hc.1) (hk.step h he hc.1) (h.step he) hc.2

theorem completions_le (hk : Known s t) (h : Tidy s)
    (hc : InRangeRun s calls) : completions s t calls ≤ 1 := by
  induction calls generalizing s with
  | nil => exact Nat.zero_le _
  | cons c calls ih =>
    have he := Session.effect_call (s := s) c
    by_cases hd : c.completes = some t ∧ s.Reacts c
    · have ho := over_of_completes hd.1 hd.2
      have h0 := completions_of_over ho (hk.step h he hc.1) (h.step he) hc.2
      simp only [completions, if_pos hd]
      exact h0 ▸ Nat.le_refl _
    · simp only [completions, if_neg hd, Nat.zero_add]
      exact ih (hk.step h he hc.1) (h.step he) hc.2

/-- In a run, every ticket is completed with an effect at most once, and after its end whoever
brings it back is refused and changes nothing. -/
def TicketsSound (s : Session) (calls : List Call) : Prop :=
  ∀ before issue rest t, calls = before ++ issue :: rest →
    ((s.after before).call issue).2.issues = some t →
      completions (s.after (before ++ [issue])) t rest ≤ 1 ∧
      ∀ between ending later, rest = between ++ ending :: later →
        (s.after (before ++ issue :: between)).Ends ending t →
          ∀ delivery : Call, delivery.delivers = some t →
            ((s.after calls).call delivery).2.isFailure ∧
              (s.after calls).next delivery = s.after calls

theorem TicketsSound.of_inRange (h : Tidy s) (hc : InRangeRun s calls) :
    TicketsSound s calls := by
  rintro before issue rest t rfl hi
  obtain ⟨-, hissue, hrest⟩ := inRangeRun_append.1 hc
  have htidy : Tidy (s.after (before ++ [issue])) := h.after _
  have hk : Known (s.after (before ++ [issue])) t := by
    rw [Session.after_append]
    exact known_of_issues (Session.effect_call issue) hi
  have hrun : InRangeRun (s.after (before ++ [issue])) rest := by
    rw [Session.after_append]
    exact hrest
  refine ⟨completions_le hk htidy hrun, ?_⟩
  rintro between ending later rfl hend delivery hd
  have hcut : before ++ issue :: between = (before ++ [issue]) ++ between := by simp
  rw [hcut, Session.after_append] at hend
  obtain ⟨hbetween, hending, hlater⟩ := inRangeRun_append.1 hrun
  have hk' := hk.after htidy hbetween
  have htidy' := htidy.after between
  have he := Session.effect_call (s := (s.after (before ++ [issue])).after between) ending
  -- from its end on the ticket is over
  have ho := over_of_ends htidy' hk' hend hending
  have ho := ho.after (hk'.step htidy' he hending) (htidy'.step he) hlater
  have hall : before ++ issue :: (between ++ ending :: later) =
      (before ++ [issue]) ++ (between ++ ending :: later) := by simp
  have hs : s.after (before ++ issue :: (between ++ ending :: later)) =
      (((s.after (before ++ [issue])).after between).next ending).after later := by
    rw [hall, Session.after_append, @Session.after_append _ between]
    rfl
  rw [hs]
  exact (Session.refused_of_not_awaits hd (not_awaits_of_over ho)).symm

/-- In every run whose counters do not overflow, every ticket is completed with an effect at most
once, and after its end whoever brings it back is refused and changes nothing. -/
theorem tickets_of_inRange (id : DocumentId) (source : SourceIdentity) (mode : ContentMode)
    (policy : ExternalModelPolicy) (calls : List Call)
    (h : InRangeRun (.new id source mode policy) calls) :
    TicketsSound (.new id source mode policy) calls :=
  .of_inRange (.new id source mode policy) h

/-- A document is opened twice, and the first open comes back late. -/
theorem tickets_of_inRange_late :
    TicketsSound (.new [] {} .inlineBytes {})
      [.beginOpen false, .beginOpen false, .completeOpen 2 (.ok ⟨{}, []⟩),
        .completeOpen 3 (.ok ⟨{}, []⟩), .save ⟨.saveAs, [97]⟩] := by
  refine tickets_of_inRange [] {} .inlineBytes {} _ ⟨?_, ?_, trivial, trivial, ?_, trivial⟩
  · intro _ _ _ _
    decide
  · intro _ _ _ _
    decide
  · intro _ _
    decide

/-! ## The generation of an inline session overflows -/

/-- The session is opening `generation`. -/
def openingAt (generation : Nat) : Session :=
  { id := [], lifecycle := .opening, generation }

theorem after_beginOpen (n generation : Nat) (h : generation < 2 ^ 64) :
    (openingAt generation).after (List.replicate n (.beginOpen true)) =
      openingAt ((generation + n) % 2 ^ 64) := by
  induction n generalizing generation with
  | zero => rw [List.replicate_zero, Nat.add_zero, Nat.mod_eq_of_lt h, Session.after_nil]
  | succ n ih =>
    have hn : (openingAt generation).next (.beginOpen true) =
        openingAt (increment generation) := rfl
    rw [List.replicate_succ, Session.after_cons, hn, increment, ih _ (Nat.mod_lt _ (by decide))]
    congr 1
    omega

theorem not_ticketsSound_of_wrap (n : Nat) (h : n + 1 = 2 ^ 64) :
    ¬ TicketsSound (.new [] {} .inlineBytes {})
      (.beginOpen false :: List.replicate (n + 1) (.beginOpen true)) := by
  intro hs
  have hb : (Session.new [] {} .inlineBytes {}).next (.beginOpen false) = openingAt 2 := rfl
  have hlast : (Session.new [] {} .inlineBytes {}).after
      (.beginOpen false :: List.replicate (n + 1) (.beginOpen true)) = openingAt 2 := by
    rw [Session.after_cons, hb, after_beginOpen _ _ (by decide), h, Nat.add_mod_right,
      Nat.mod_eq_of_lt (by decide)]
  obtain ⟨-, hs⟩ := hs [] (.beginOpen false) _ (.opening 2) rfl rfl
  obtain ⟨-, hs⟩ := hs [] (.beginOpen true) _ List.replicate_succ (.inr ⟨rfl, rfl⟩)
    (.completeOpen 2 (.ok ⟨{}, []⟩)) rfl
  rw [hlast] at hs
  exact absurd hs (by decide)

/-- The document is opened once, and then so often again that the generation is the first one
again: the completion of the first open is taken for the last one's. -/
theorem tickets_wrapped :
    ¬ TicketsSound (.new [] {} .inlineBytes {})
      (.beginOpen false :: List.replicate (2 ^ 64) (.beginOpen true)) :=
  not_ticketsSound_of_wrap (2 ^ 64 - 1) rfl

end Hc.Document
