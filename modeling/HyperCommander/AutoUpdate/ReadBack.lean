import HyperCommander.AutoUpdate.TransactionLemmas

/-!
# Journals are read back

- **Runs** (`Updater.inv_run`): in a careful run the journal that is held is valid, and all that was
  written is read back.
- **Main result** (`journals_read_back`), and a release that breaks it (`journal_case_only`).
-/

open List Outcome

namespace Hc.Update

variable {sys : System}

/-! ## Runs -/

namespace Updater

variable {u : Updater} {e : Event sys} {events : List (Event sys)}

/-- The names of a prepared release are apart, and placed copies fit the journal. -/
def Careful (u : Updater) : Event sys → Prop
  | .prepare r => FoldsApart sys (releaseNames r)
  | .place copies => ∀ j, (u.loaded sys).memory = some j → Promotes sys j copies
  | _ => True

/-- Every step of the run is careful. -/
def CarefulRun : Updater → List (Event sys) → Prop
  | _, [] => True
  | u, e :: events => Careful u e ∧ CarefulRun (u.step sys e) events

/-- The journal that is held is valid, and all that was written is read back. -/
structure Inv (sys : System) (u : Updater) : Prop where
  memory : ∀ j, u.memory = some j → Valid sys j
  written : ∀ w ∈ u.written, load sys w.2 = .ok w.1

theorem inv_stopped (h : Inv sys u) : Inv sys u.stopped := ⟨by simp [stopped], h.written⟩

theorem inv_saved {j : Journal} (h : Inv sys u) (hv : Valid sys j) : Inv sys (u.saved j) := by
  rw [saved]
  cases hs : save j with
  | error f => exact inv_stopped h
  | ok bytes =>
    refine ⟨fun j' hj => ?_, fun w hw => ?_⟩
    · obtain rfl := Option.some.inj hj
      exact hv
    · rcases mem_append.1 hw with hw | hw
      · exact h.written w hw
      · obtain rfl := mem_singleton.1 hw
        exact load_save hv hs

theorem step_prepare {r : Release sys} {j : Journal} {bytes : Text}
    (hj : Update.prepare sys r = .ok j) (hs : save j = .ok bytes) :
    u.step sys (.prepare r) = ⟨some j, some bytes, u.written ++ [(j, bytes)]⟩ := by
  simp only [step, hj, saved, hs, stored]

theorem inv_loaded (h : Inv sys u) : Inv sys (u.loaded sys) := by
  refine ⟨fun j hj => ?_, h.written⟩
  simp only [loaded, Option.bind_eq_some_iff] at hj
  obtain ⟨bytes, -, hload⟩ := hj
  cases hl : load sys bytes with
  | error f => simp [hl, Except.toOption] at hload
  | ok j₀ =>
    rw [hl] at hload
    obtain rfl := Option.some.inj hload
    exact valid_of_load hl

/-- A valid journal is valid in every state. -/
theorem valid_state {j : Journal} (h : Valid sys j) (s : Text) :
    Valid sys { j with state := s } :=
  ⟨h.count, h.inventory, h.entry, h.promotedCount, h.copy, h.distinct⟩

theorem inv_step (h : Inv sys u) (hc : Careful u e) : Inv sys (u.step sys e) := by
  cases e with
  | prepare r =>
    simp only [step]
    cases hp : Update.prepare sys r with
    | error f => exact inv_stopped h
    | ok j => exact inv_saved h ((valid_prepare hp).2 hc)
  | state s =>
    simp only [step]
    cases hm : u.memory with
    | none => exact h
    | some j => exact inv_saved h (valid_state (h.memory j hm) s)
  | load => exact inv_loaded h
  | place copies =>
    simp only [step]
    have hl := inv_loaded h
    cases hm : (u.loaded sys).memory with
    | none => exact inv_stopped h
    | some j =>
      simp only
      split
      · cases hp : Update.place sys j copies with
        | error f => exact inv_stopped h
        | ok r =>
          obtain ⟨j', changed⟩ := r
          cases changed with
          | false => exact hl
          | true => exact inv_saved hl (valid_place (hl.memory j hm) (hc j hm) hp)
      · exact inv_stopped h

theorem inv_run (h : Inv sys u) (hc : CarefulRun u events) : Inv sys (u.run sys events) := by
  induction events generalizing u with
  | nil => exact h
  | cons e events ih => exact ih (inv_step h hc.1) hc.2

end Updater

/-- Every journal that a transaction begins with is read back if and only if no two names of the
release differ only in case, and every journal that a careful run writes is read back. -/
theorem journals_read_back :
    (∀ (r : Release sys) (j : Journal) (bytes : Text), prepare sys r = .ok j → save j = .ok bytes →
      (load sys bytes = .ok j ↔ FoldsApart sys (releaseNames r))) ∧
    ∀ events : List (Event sys), Updater.CarefulRun {} events →
      ∀ w ∈ (Updater.run sys {} events).written, load sys w.2 = .ok w.1 := by
  refine ⟨fun r j bytes hp hs => (load_save_iff hs).trans (valid_prepare hp), ?_⟩
  intro events hc
  exact (Updater.inv_run ⟨by simp, by simp⟩ hc).written


/-! ## Samples -/

instance {names : List Text} : Decidable (FoldsApart sys names) :=
  inferInstanceAs (Decidable (∀ a ∈ names, ∀ b ∈ names, folded sys a = folded sys b → a = b))

instance {c : RootCopy} : Decidable (CopyOk c) :=
  decidable_of_iff (checkProductRelative c.name = .ok () ∧ slash ∉ c.name ∧ validHash c.hash = true)
    ⟨fun ⟨h1, h2, h3⟩ => ⟨h1, h2, h3⟩, fun h => ⟨h.name, h.root, h.hash⟩⟩

instance {j : Journal} {copies : List RootCopy} : Decidable (Promotes sys j copies) :=
  decidable_of_iff ((∀ c ∈ copies, CopyOk c) ∧ j.promoted.length + copies.length ≤ 64 ∧
      ∀ n ∈ namesOf j ++ copies.map RootCopy.name, ∀ c ∈ copies,
        folded sys n = folded sys c.name → sameName sys n c.name = true)
    ⟨fun ⟨h1, h2, h3⟩ => ⟨h1, h2, h3⟩, fun h => ⟨h.copy, h.count, h.same⟩⟩

/-- Names in ASCII, and the digests of the files of the samples. -/
def asciiSystem : System where
  lower t := t.map fun c => if 65 ≤ c ∧ c ≤ 90 then c + 32 else c
  same a b := (a.map fun c => if 65 ≤ c ∧ c ≤ 90 then c + 32 else c) =
    b.map fun c => if 65 ≤ c ∧ c ≤ 90 then c + 32 else c
  hashBytes bytes :=
    if bytes = ascii "MZ" then
      ascii "9b8db510ef42b8ed54a3712636fda55a4f8cfcd5493e20b74ab00cd4f3979f2d"
    else ascii "44136fa355b3678a1146ad16f7e8649e94fb4fc21fe77e8310c060f61caaff8a"
  hash_valid bytes := by
    split <;> decide +kernel

/-- A small file that every sample release has under its names. -/
def imageFile (name : Text) : ProductFile := ⟨name, asciiSystem.hashBytes (ascii "MZ"), 2⟩

/-- An inventory of the required files and one library. -/
def libraryInventory (name : String)
    (h : checkFiles asciiSystem ((ascii name :: requiredFiles).map imageFile) [] 0 = .ok 10) :
    Inventory asciiSystem where
  files := (ascii name :: requiredFiles).map imageFile
  bytes := 10
  count_lt := by
    simp only [requiredFiles, List.length_map, List.length_cons, List.length_nil]
    decide
  checked := h
  required := by
    have hsame : ∀ n ∈ requiredFiles, sameName asciiSystem n n = true := by decide +kernel
    intro n hn
    exact ⟨imageFile n, List.mem_map_of_mem (List.mem_cons_of_mem _ hn), hsame n hn⟩

/-- The library is gone from the root. -/
def sampleRelease (old next : Inventory asciiSystem) : Release asciiSystem where
  old := old
  next := next
  oldInventory := ascii "\x7b\x7d"
  nextInventorySize := 2
  inventoryHash := asciiSystem.hashBytes (ascii "\x7b\x7d")
  inventoryHash_valid := asciiSystem.hash_valid _
  root name := if name ∈ requiredFiles then some (ascii "MZ")
    else if name = inventoryName then some (ascii "\x7b\x7d") else none
  signed _ := false

def upperInventory : Inventory asciiSystem := libraryInventory "Libs/Foo.dll" (by decide +kernel)

def lowerInventory : Inventory asciiSystem := libraryInventory "Libs/foo.dll" (by decide +kernel)

/-- What fits a journal fits it in another state, whether or not that state was written. -/
theorem Updater.promotes_state {j j' : Journal} {s bytes : Text} {copies : List RootCopy}
    {written : List (Journal × Text)} (hv : Valid sys j) (hs : save j = .ok bytes)
    (hp : Promotes sys j copies)
    (hm : ((Updater.step sys ⟨some j, some bytes, written⟩ (.state s)).loaded sys).memory =
      some j') : Promotes sys j' copies := by
  simp only [step, saved] at hm
  cases hs' : save { j with state := s } with
  | error f =>
    simp only [hs', stored, stopped, loaded, Option.bind_some, load_save hv hs] at hm
    obtain rfl := Option.some.inj hm
    exact hp
  | ok bytes' =>
    simp only [hs', stored, loaded, Option.bind_some, load_save (valid_state hv s) hs'] at hm
    obtain rfl := Option.some.inj hm
    exact ⟨hp.copy, hp.count, hp.same⟩

theorem exists_of_any {α ε : Type} {x : Except ε α} {p : α → Bool} (h : x.toOption.any p = true) :
    ∃ a, x = .ok a ∧ p a = true := by
  cases x with
  | error e => simp [Except.toOption] at h
  | ok a => exact ⟨a, rfl, h⟩

theorem save_of_ascii {j : Journal} (hsize : ∀ e ∈ j.files, e.size ≤ 536870912)
    (hf : j.files.length ≤ 4096) (hp : j.promoted.length ≤ 64)
    (h : (journalText j).length ≤ 1048576 ∧ (journalText j).all (· < 128) = true) :
    save j = .ok (journalText j) :=
  save_of_text hsize hf hp h.1 (validUtf8_of_ascii (by simpa using h.2))

/-- A library that was removed by hand and comes back in other letters: the journal is written and
cannot be read. -/
theorem journal_case_only : ∃ (j : Journal) (bytes : Text),
    prepare asciiSystem (sampleRelease upperInventory lowerInventory) = .ok j ∧
      save j = .ok bytes ∧ ∀ j', load asciiSystem bytes ≠ .ok j' := by
  have h : (prepare asciiSystem (sampleRelease upperInventory lowerInventory)).toOption.any
      (fun j => (journalText j).length ≤ 1048576 ∧ (journalText j).all (· < 128)) = true := by
    decide +kernel
  obtain ⟨j, hj, h⟩ := exists_of_any h
  obtain ⟨-, hcount, hok, hpromoted⟩ := prepare_spec hj
  have hsize : ∀ e ∈ j.files, e.size ≤ 536870912 := fun e he => (hok e he).size
  have hcopies : j.promoted.length ≤ 64 := by simp [hpromoted]
  refine ⟨j, journalText j, hj, save_of_ascii hsize hcount hcopies (of_decide_eq_true h),
    fun j' hl => ?_⟩
  have hfiles := files_of_load hsize hcount hcopies hl
  have hapart := (valid_prepare hj).1 (valid_of_files (valid_of_load hl) hfiles hpromoted)
  have hfold : folded asciiSystem (ascii "Libs/Foo.dll") =
      folded asciiSystem (ascii "Libs/foo.dll") := by decide +kernel
  have hne : ascii "Libs/Foo.dll" ≠ ascii "Libs/foo.dll" := by decide +kernel
  refine hne (hapart _ ?_ _ ?_ hfold)
  · exact mem_append_left _ (mem_append_left _ (mem_append_left _ mem_cons_self))
  · exact mem_append_left _ (mem_append_left _ (mem_append_right _ mem_cons_self))

def helperCopy : RootCopy := ⟨ascii "HyperCompare.exe", asciiSystem.hashBytes (ascii "MZ")⟩

def sampleRun : List (Event asciiSystem) :=
  [.prepare (sampleRelease upperInventory upperInventory), .state (ascii "installed"),
    .place [helperCopy]]

theorem journals_read_back_sample :
    (∃ (j : Journal) (bytes : Text),
      prepare asciiSystem (sampleRelease upperInventory upperInventory) = .ok j ∧
        save j = .ok bytes ∧ load asciiSystem bytes = .ok j) ∧
    (∀ w ∈ (Updater.run asciiSystem {} sampleRun).written, load asciiSystem w.2 = .ok w.1) := by
  have h : (prepare asciiSystem (sampleRelease upperInventory upperInventory)).toOption.any
      (fun j => ((journalText j).length ≤ 1048576 ∧ (journalText j).all (· < 128)) ∧
        Promotes asciiSystem j [helperCopy]) = true := by
    decide +kernel
  have hapart : FoldsApart asciiSystem
      (releaseNames (sampleRelease upperInventory upperInventory)) := by
    decide +kernel
  obtain ⟨j, hj, h⟩ := exists_of_any h
  obtain ⟨htext, hp⟩ := of_decide_eq_true h
  obtain ⟨-, hcount, hok, hpromoted⟩ := prepare_spec hj
  have hs := save_of_ascii (fun e he => (hok e he).size) hcount (by simp [hpromoted]) htext
  have hv := (valid_prepare hj).2 hapart
  refine ⟨⟨j, journalText j, hj, hs, (journals_read_back.1 _ j _ hj hs).2 hapart⟩, ?_⟩
  refine journals_read_back.2 sampleRun ⟨hapart, trivial, fun j' hm => ?_, trivial⟩
  rw [Updater.step_prepare hj hs] at hm
  exact Updater.promotes_state hv hs hp hm

end Hc.Update
