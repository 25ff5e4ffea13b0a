import HyperCommander.Document.Epub.History
import HyperCommander.Lib.Delimited
import Mathlib.Order.SetNotation

/-!
# The fingerprint of the edit model

- **What is hashed**: an edition and its changed resources can be read off the bytes in one way
  only, as long as the paths have no zero and pair their surrogates (`identity_injective`).
- **Caches**: the digests of `Read` are those of the original resources, and the kept fingerprint is
  that of what it was made for (`CachesOk`), over every run of operations.
- **Drafts**: an entry that repeats the original resource is only left out where its digest is
  cached; `Recognised` says that it is.
- **Main result**: `fingerprint_of_recognised`, over two runs.
-/

namespace Hc.Document.Epub

open Option List Storage

/-! ## Hexadecimal digits -/

theorem hexDigit_toNat {n : Nat} (h : n < 16) :
    (hexDigit n).toNat = if n < 10 then 48 + n else 87 + n := by
  have hsize : UInt8.size = 256 := rfl
  unfold hexDigit
  split
  · rw [UInt8.toNat_ofNat_of_lt' (by omega)]
  · rw [UInt8.toNat_ofNat_of_lt' (by omega)]

theorem value_hexDigit {n : Nat} (h : n < 16) : EditModel.fromHex.value (hexDigit n) = n := by
  unfold EditModel.fromHex.value
  rw [hexDigit_toNat h]
  split <;> split <;> omega

@[simp] theorem toHex_cons (b : UInt8) (bytes : Bytes) :
    toHex (b :: bytes) = hexDigit (b.toNat / 16) :: hexDigit (b.toNat % 16) :: toHex bytes := rfl

theorem fromHex_toHex (bytes : Bytes) : EditModel.fromHex (toHex bytes) = bytes := by
  induction bytes with
  | nil => rfl
  | cons b bytes ih =>
    have hb := b.toNat_lt
    rw [toHex_cons, EditModel.fromHex, value_hexDigit (by omega), value_hexDigit (by omega), ih,
      Nat.div_add_mod', UInt8.ofNat_toNat]

theorem toHex_injective : Function.Injective toHex :=
  Function.LeftInverse.injective fromHex_toHex

theorem fromHex_append (a : Bytes) (rest : Bytes) :
    EditModel.fromHex (toHex a ++ rest) = a ++ EditModel.fromHex rest := by
  induction a with
  | nil => rfl
  | cons b bytes ih =>
    have hb := b.toNat_lt
    rw [toHex_cons, cons_append, cons_append, EditModel.fromHex,
      value_hexDigit (by omega), value_hexDigit (by omega), ih, Nat.div_add_mod',
      UInt8.ofNat_toNat, cons_append]

theorem prefix_of_toHex {a b : Bytes} (h : toHex a <+: toHex b) : a <+: b := by
  obtain ⟨rest, hr⟩ := h
  refine ⟨EditModel.fromHex rest, ?_⟩
  rw [← fromHex_append, hr, fromHex_toHex]

theorem zero_notMem_toHex (bytes : Bytes) : (0 : UInt8) ∉ toHex bytes := by
  intro h
  obtain ⟨b, -, hb⟩ := mem_flatMap.1 h
  have hlt := b.toNat_lt
  have hne : ∀ n < 16, (0 : UInt8) ≠ hexDigit n := by
    intro n hn he
    have hz := congrArg UInt8.toNat he
    rw [hexDigit_toNat hn] at hz
    have hzero : (0 : UInt8).toNat = 0 := rfl
    split at hz <;> omega
  rcases mem_pair.1 hb with hb | hb
  · exact hne _ (by omega) hb
  · exact hne _ (by omega) hb

/-! ## What is hashed -/

/-- The UTF-8 form of the path and the zero behind it tell where it ends and what it is. -/
def Plain (path : QString) : Prop := 0 ∉ path ∧ Unicode.Paired path

/-- What the digests, the archive and the index of publications are relied on for. -/
structure Toolkit.Lawful {κ : Type} (t : Toolkit κ) : Prop where
  sha256_injective : Function.Injective t.sha256
  /-- Digests are all of one length; no more is used than that none is the beginning of another. -/
  sha256_prefixFree : Delimited.PrefixFree (Set.range t.sha256)
  /-- The paths of an archive are canonical, and decoded from UTF-8. -/
  read_plain : ∀ edition path bytes, t.read edition path = .ok bytes → Plain path
  /-- An index names its archive by digest. The end record of an archive has zeros for the disks. -/
  indexed : ∀ world bytes publication, t.index world bytes = .ok publication →
    publication.sourceSha256 = toHex (t.sha256 bytes) ∧ [0, 0] <:+: bytes

namespace EditModel

variable {m : EditModel} {κ : Type} {t : Toolkit κ}

theorem sha256_ne_nil (ht : t.Lawful) (bytes : Bytes) : t.sha256 bytes ≠ [] := by
  intro h
  have he := ht.sha256_prefixFree _ ⟨bytes, rfl⟩ _ ⟨0 :: bytes, rfl⟩ (h ▸ nil_prefix)
  exact cons_ne_self 0 bytes (ht.sha256_injective he).symm

/-- The digests that stand in what is hashed. -/
def digests (t : Toolkit κ) : Set Bytes := Set.range fun bytes => toHex (t.sha256 bytes)

theorem digests_prefixFree (ht : t.Lawful) : Delimited.PrefixFree (digests t) := by
  rintro _ ⟨a, rfl⟩ _ ⟨b, rfl⟩ h
  exact congrArg toHex (ht.sha256_prefixFree _ ⟨a, rfl⟩ _ ⟨b, rfl⟩ (prefix_of_toHex h))

variable {a b bytes : Bytes} {c d draft : QMap Bytes} {m' : EditModel} {world : κ}

theorem digest_injective (ht : t.Lawful) (h : toHex (t.sha256 a) = toHex (t.sha256 b)) : a = b :=
  ht.sha256_injective (toHex_injective h)

theorem digest_ne_nil (ht : t.Lawful) (bytes : Bytes) : toHex (t.sha256 bytes) ≠ [] := fun h =>
  sha256_ne_nil ht bytes (toHex_injective h)

/-- A changed resource as a record of a path and a digest. -/
def recordOf (t : Toolkit κ) (e : QString × Bytes) : Bytes × Bytes :=
  (Unicode.toUtf8 e.1, toHex (t.sha256 e.2))

theorem identityBytes_eq (edition : Bytes) (changes : QMap Bytes) :
    identityBytes t edition changes =
      edition ++ Delimited.records 0 (changes.entries.map (recordOf t)) := by
  rw [identityBytes, Delimited.records, flatMap_map]
  rfl

/-- Every changed resource has a plain path. -/
def PlainPaths (changes : QMap Bytes) : Prop := ∀ e ∈ changes.entries, Plain e.1

theorem proper_records {changes : QMap Bytes} (h : PlainPaths changes) :
    Delimited.Proper 0 (digests t) (changes.entries.map (recordOf t)) := by
  intro r hr
  obtain ⟨e, he, rfl⟩ := mem_map.1 hr
  exact ⟨fun hz => (h e he).1 (Unicode.zero_mem_toUtf8 hz), ⟨e.2, rfl⟩⟩

/-- A path is what its bytes say, and a resource what its digest says. -/
theorem mem_of_map_recordOf (ht : t.Lawful) (hc : PlainPaths c)
    (hd : PlainPaths d) (h : c.entries.map (recordOf t) = d.entries.map (recordOf t))
    {e : QString × Bytes} (he : e ∈ c.entries) : e ∈ d.entries := by
  have hm : recordOf t e ∈ d.entries.map (recordOf t) := h ▸ mem_map_of_mem he
  obtain ⟨f, hf, hfe⟩ := mem_map.1 hm
  have hpath := Unicode.toUtf8_injective (hd f hf).2 (hc e he).2 (congrArg Prod.fst hfe)
  have hvalue := digest_injective ht (congrArg Prod.snd hfe)
  rwa [← Prod.ext hpath hvalue]

theorem identityBytes_injective (ht : t.Lawful) (hc : PlainPaths c) (hd : PlainPaths d)
    (h : identityBytes t (toHex (t.sha256 a)) c = identityBytes t (toHex (t.sha256 b)) d) :
    a = b ∧ c = d := by
  rw [identityBytes_eq, identityBytes_eq] at h
  obtain ⟨hab, hr⟩ :=
    Delimited.append_inj_of_prefixFree (digests_prefixFree ht) ⟨a, rfl⟩ ⟨b, rfl⟩ h
  have hr := Delimited.records_injective (digests_prefixFree ht) (proper_records hc)
    (proper_records hd) hr
  refine ⟨digest_injective ht hab, ?_⟩
  exact OrdMap.ext_mem fun e => ⟨fun he => mem_of_map_recordOf ht hc hd hr he,
    fun he => mem_of_map_recordOf ht hd hc hr.symm he⟩

/-- The bytes of two archives, one of them changed, are apart by the two zeros of the other. -/
theorem identityBytes_ne (ht : t.Lawful) (ha : [0, 0] <:+: a)
    (hc : PlainPaths c) : a ≠ identityBytes t (toHex (t.sha256 b)) c := by
  rintro rfl
  rw [identityBytes_eq] at ha
  refine Delimited.not_infix_of_apart
    (.append (zero_notMem_toHex _) (Delimited.apart_records ?_)) ha
  intro r hr
  obtain ⟨e, he, rfl⟩ := mem_map.1 hr
  exact ⟨fun hz => (hc e he).1 (Unicode.zero_mem_toUtf8 hz), zero_notMem_toHex _,
    digest_ne_nil ht e.2⟩

/-- Fingerprints tell archives and their changed resources apart. -/
theorem identity_injective (ht : t.Lawful) (ha : [0, 0] <:+: a)
    (hb : [0, 0] <:+: b) (hc : PlainPaths c) (hd : PlainPaths d)
    (h : identity t (toHex (t.sha256 a)) c = identity t (toHex (t.sha256 b)) d) :
    a = b ∧ c = d := by
  unfold identity at h
  rw [fromHex_toHex, fromHex_toHex] at h
  by_cases hce : c.entries = [] <;> by_cases hde : d.entries = []
  · rw [if_pos hce, if_pos hde] at h
    exact ⟨ht.sha256_injective h, OrdMap.ext_mem fun e => by rw [hce, hde]⟩
  · rw [if_pos hce, if_neg hde] at h
    exact absurd (ht.sha256_injective h) (identityBytes_ne ht ha hd)
  · rw [if_neg hce, if_pos hde] at h
    exact absurd (ht.sha256_injective h).symm (identityBytes_ne ht hb hc)
  · rw [if_neg hce, if_neg hde] at h
    exact identityBytes_injective ht hc hd (ht.sha256_injective h)

/-! ## Contents -/

/-- What a reader of the book finds under a path. -/
def contents (t : Toolkit κ) (s : State) (draft : QMap Bytes) (path : QString) : Option Bytes :=
  (draft.find path).or ((s.changes.find path).or (t.read s.edition path).toOption)

/-- Two books with drafts have the same edition and the same resources. -/
def SameContents (t : Toolkit κ) (s : State) (d : QMap Bytes) (s' : State) (d' : QMap Bytes) :
    Prop :=
  s.edition = s'.edition ∧ ∀ path, contents t s d path = contents t s' d' path

/-- The replacements and the draft, without what repeats the original resource. -/
def changed (t : Toolkit κ) (edition : Bytes) (replacements draft : QMap Bytes) : QMap Bytes :=
  (replacements.update (fun e => some e.2) draft.entries).filter fun e =>
    (t.read edition e.1).toOption ≠ some e.2

theorem find_changed (edition : Bytes) (replacements draft : QMap Bytes) (path : QString) :
    (changed t edition replacements draft).find path =
      ((draft.find path).or (replacements.find path)).filter fun v =>
        (t.read edition path).toOption ≠ some v := by
  rw [changed, OrdMap.find_filter, OrdMap.find_update]
  cases draft.find path <;> rfl

/-- The contents are the changes over the original resources. -/
theorem contents_eq (s : State) (draft : QMap Bytes) (path : QString) :
    contents t s draft path =
      ((changed t s.edition s.changes draft).find path).or (t.read s.edition path).toOption := by
  rw [find_changed, contents, ← Option.or_assoc]
  rcases (draft.find path).or (s.changes.find path) with _ | v
  · rfl
  · rw [some_or]
    by_cases hv : (t.read s.edition path).toOption = some v
    · rw [filter_some_neg (by simp [hv]), none_or, hv]
    · rw [filter_some_pos (by simpa using hv), some_or]

/-- And the changes are the contents that differ from the original resources. -/
theorem find_changed_of_contents (s : State) (draft : QMap Bytes) (path : QString) :
    (changed t s.edition s.changes draft).find path =
      (contents t s draft path).filter fun v => (t.read s.edition path).toOption ≠ some v := by
  rw [find_changed, contents, ← Option.or_assoc]
  rcases (draft.find path).or (s.changes.find path) with _ | v
  · rcases (t.read s.edition path).toOption with _ | o
    · rfl
    · rw [none_or, filter_some_neg (by simp), filter_none]
  · rfl

theorem sameContents_iff {s s' : State} {d' : QMap Bytes} :
    SameContents t s d s' d' ↔
      s.edition = s'.edition ∧
      changed t s.edition s.changes d = changed t s'.edition s'.changes d' := by
  constructor
  · rintro ⟨he, hc⟩
    refine ⟨he, OrdMap.ext_find fun path => ?_⟩
    rw [find_changed_of_contents, find_changed_of_contents, hc, he]
  · rintro ⟨he, hc⟩
    refine ⟨he, fun path => ?_⟩
    rw [contents_eq, contents_eq, hc, he]

/-! ## Caches -/

/-- What is kept from one call to the next, and is not part of the state. -/
structure Caches where
  resourceHashes : QMap Bytes
  resourceHashEdition : Bytes
  fingerprintEdition : Bytes
  fingerprintChanges : QMap Bytes
  fingerprintDraft : QMap Bytes
  fingerprint : Bytes

def caches (m : EditModel) : Caches :=
  ⟨m.resourceHashes, m.resourceHashEdition, m.fingerprintEdition, m.fingerprintChanges,
    m.fingerprintDraft, m.fingerprint⟩

/-- The digests are those of the resources of their edition, and the fingerprint is that of what it
was made for. -/
structure CachesOk (t : Toolkit κ) (c : Caches) : Prop where
  digest : ∀ edition, c.resourceHashEdition = toHex (t.sha256 edition) →
    ∀ path h, c.resourceHashes.find path = some h →
      ∃ bytes, t.read edition path = .ok bytes ∧ h = t.sha256 bytes
  memo : ∀ edition, c.fingerprintEdition = toHex (t.sha256 edition) →
    c.fingerprint = identity t c.fingerprintEdition
      (changed t edition c.fingerprintChanges c.fingerprintDraft)

/-- The state is of an archive that was indexed, and no replacement repeats the original
resource. -/
structure GoodState (t : Toolkit κ) (s : State) : Prop where
  indexed : s.publication.sourceSha256 = toHex (t.sha256 s.edition)
  archive : [0, 0] <:+: s.edition
  replaced : ∀ path v, s.changes.find path = some v →
    ∃ bytes, t.read s.edition path = .ok bytes ∧ bytes ≠ v

structure Good (t : Toolkit κ) (m : EditModel) : Prop where
  state : GoodState t m.state
  past : ∀ c ∈ m.history.changes, GoodState t c.1 ∧ GoodState t c.2
  caches : CachesOk t m.caches

/-- The entries of the draft that repeat the original resource are known to do so: the digests are
those of the current edition, and the resource's is among them. -/
def Recognised (t : Toolkit κ) (m : EditModel) (draft : QMap Bytes) : Prop :=
  ∀ path bytes, draft.find path = some bytes → t.read m.edition path = .ok bytes →
    m.resourceHashEdition = m.publication.sourceSha256 ∧
      m.resourceHashes.find path = some (t.sha256 bytes)

theorem recognised_empty : m.Recognised t .empty := fun _ _ h => by
  rw [OrdMap.find_empty] at h
  cases h

theorem fingerprintOverlay_eq (ht : t.Lawful) (h : Good t m) (hr : m.Recognised t draft) :
    m.fingerprintOverlay t draft = changed t m.edition m.replacements draft := by
  refine OrdMap.ext_find fun path => ?_
  rw [fingerprintOverlay, OrdMap.find_update, find_changed]
  rcases hd : draft.find path with _ | v
  · rw [none_or]
    rcases hm : m.replacements.find path with _ | v
    · rfl
    · obtain ⟨bytes, hb, hne⟩ := h.state.replaced path v hm
      have hb : t.read m.edition path = .ok bytes := hb
      rw [filter_some_pos (by simpa [hb, Except.toOption] using hne)]
  · rw [some_or]
    simp only
    split
    · -- the digest is that of the resource, so the entry repeats it
      rename_i hc
      obtain ⟨bytes, hb, hv⟩ :=
        h.caches.digest m.edition (hc.1.trans h.state.indexed) path _ hc.2
      obtain rfl := ht.sha256_injective hv
      rw [filter_some_neg (by simp [hb, Except.toOption])]
    · rename_i hc
      rw [filter_some_pos]
      simp only [ne_eq, decide_not, Bool.not_eq_eq_eq_not, Bool.not_true, decide_eq_false_iff_not]
      intro he
      refine hc (hr path v hd ?_)
      cases hread : t.read m.edition path with
      | error e => simp [hread, Except.toOption] at he
      | ok o => simpa [hread, Except.toOption] using he

/-- What a fingerprint is, whatever is cached. -/
theorem fingerprintOf_eq (ht : t.Lawful) (h : Good t m)
    (hr : m.Recognised t draft) : (m.fingerprintOf t draft).2 =
      identity t (toHex (t.sha256 m.edition)) (changed t m.edition m.replacements draft) := by
  have hi : m.publication.sourceSha256 = toHex (t.sha256 m.edition) := h.state.indexed
  unfold fingerprintOf
  split
  · rename_i hm
    have hmemo := h.caches.memo m.edition (hm.1.trans hi)
    rw [← hi, ← hm.1, ← hm.2.1, ← hm.2.2]
    exact hmemo
  · show identity t m.publication.sourceSha256 (m.fingerprintOverlay t draft) = _
    rw [fingerprintOverlay_eq ht h hr, hi]

/-! ## Operations -/

@[simp] theorem caches_withHistory (h : Timeline State) : (m.withHistory h).caches = m.caches := rfl

@[simp] theorem caches_restore (s : State) : (m.restore s).caches = m.caches := rfl

/-- Trimming takes nothing but changes. -/
theorem trim_frame (fuel : Nat) : (trim fuel m).state = m.state ∧ (trim fuel m).caches = m.caches ∧
    ∀ c ∈ (trim fuel m).history.changes, c ∈ m.history.changes := by
  induction fuel generalizing m with
  | zero => exact ⟨rfl, rfl, fun _ h => h⟩
  | succ fuel ih =>
    unfold trim
    split
    · obtain ⟨hs, hc, hh⟩ := ih (m := m.withHistory m.history.dropFirst)
      exact ⟨hs, hc, fun c h => mem_of_mem_tail (hh c h)⟩
    · exact ⟨rfl, rfl, fun _ h => h⟩

theorem Good.of_eq (h : Good t m) (hs : m'.state = m.state)
    (hh : m'.history = m.history) (hc : CachesOk t m'.caches) : Good t m' :=
  ⟨hs ▸ h.state, hh ▸ h.past, hc⟩

/-- Another good state, with the history of the model. -/
theorem Good.withState (h : Good t m) (hs : GoodState t m'.state)
    (hh : m'.history = m.history) (hc : m'.caches = m.caches) : Good t m' :=
  ⟨hs, hh ▸ h.past, hc ▸ h.caches⟩

theorem Good.record {before : State} (h : Good t m) (hb : GoodState t before) :
    Good t (m.record before) := by
  obtain ⟨hs, hc, hh⟩ :=
    trim_frame (m := m.pushed before) (m.pushed before).history.changes.length
  refine ⟨hs ▸ h.state, fun c hcm => ?_, hc ▸ h.caches⟩
  rcases mem_append.1 (hh c hcm) with hp | hp
  · exact h.past c (mem_of_mem_take hp)
  · obtain rfl := mem_singleton.1 hp
    exact ⟨hb, h.state⟩

theorem Good.undo (h : Good t m) : Good t m.undo := by
  unfold EditModel.undo Timeline.back
  split
  · exact h
  split
  · rename_i c hc
    exact ⟨(h.past c (mem_of_getElem? hc)).1, h.past, h.caches⟩
  · exact h

theorem Good.redo (h : Good t m) : Good t m.redo := by
  unfold EditModel.redo Timeline.forth
  split
  · rename_i c hc
    exact ⟨(h.past c (mem_of_getElem? hc)).2, h.past, h.caches⟩
  · exact h

theorem Good.cached (ht : t.Lawful) (h : Good t m) {path : QString}
    (hr : t.read m.edition path = .ok bytes) : Good t (m.cached t path bytes) := by
  have hi : m.publication.sourceSha256 = toHex (t.sha256 m.edition) := h.state.indexed
  refine h.of_eq rfl rfl ⟨fun edition he q d hd => ?_, h.caches.memo⟩
  obtain rfl : m.edition = edition := digest_injective ht (hi.symm.trans he)
  have hd : OrdMap.find (OrdMap.set (if m.resourceHashEdition = m.publication.sourceSha256 then
      m.resourceHashes else .empty) path (t.sha256 bytes)) q = some d := hd
  rw [OrdMap.find_set] at hd
  by_cases hq : q = path
  · rw [if_pos hq, some.injEq] at hd
    exact ⟨bytes, hq ▸ hr, hd.symm⟩
  · rw [if_neg hq] at hd
    split at hd
    · rename_i hsame
      exact h.caches.digest m.edition (hsame.trans he) q d hd
    · rw [OrdMap.find_empty] at hd
      cases hd

theorem Good.read (ht : t.Lawful) (h : Good t m) (path : QString) : Good t (m.read t path).1 := by
  unfold EditModel.read
  split
  · exact h
  split
  · exact h
  split
  · exact h
  · rename_i bytes hr
    exact h.cached ht hr

theorem Good.fingerprintOf (ht : t.Lawful) (h : Good t m)
    (hr : m.Recognised t draft) : Good t (m.fingerprintOf t draft).1 := by
  have hi : m.publication.sourceSha256 = toHex (t.sha256 m.edition) := h.state.indexed
  unfold EditModel.fingerprintOf
  split
  · exact h
  · refine h.of_eq rfl rfl ⟨h.caches.digest, fun edition he => ?_⟩
    obtain rfl : m.edition = edition := digest_injective ht (hi.symm.trans he)
    rw [fingerprintOverlay_eq ht h hr]
    rfl

theorem Good.assign (h : Good t m) {path : QString}
    (ha : m.assign t path bytes = .ok m') : Good t m' ∧ m'.history = m.history := by
  unfold EditModel.assign at ha
  split at ha
  · cases ha
  · rename_i original hr
    obtain rfl := Except.ok.inj ha
    refine ⟨h.withState ⟨h.state.indexed, h.state.archive, fun q v hv => ?_⟩ rfl rfl, rfl⟩
    have hold : ∀ v, m.replacements.find q = some v →
        ∃ bytes, t.read m.edition q = .ok bytes ∧ bytes ≠ v := h.state.replaced q
    have hv : OrdMap.find (if original = bytes then m.replacements.erase path
        else m.replacements.set path bytes) q = some v := hv
    split at hv
    · rw [OrdMap.find_erase] at hv
      split at hv
      · cases hv
      · exact hold v hv
    · rename_i hne
      rw [OrdMap.find_set] at hv
      split at hv
      · rename_i hq
        obtain rfl := some.inj hv
        exact ⟨original, hq ▸ hr, hne⟩
      · exact hold v hv

theorem Good.replace (ht : t.Lawful) (h : Good t m) (path : QString) (bytes : Bytes) :
    Good t (m.replace t path bytes).1 := by
  have hread := h.read ht path
  unfold EditModel.replace
  split
  · exact h
  split
  · exact h
  split
  · exact h
  split
  · exact h
  split
  · exact hread
  split
  · exact hread
  · rename_i m' ha
    exact (hread.assign ha).1.record h.state

theorem Good.replaceAll (ht : t.Lawful) (h : Good t m) (changes : List (QString × Bytes)) :
    Good t (EditModel.replaceAll t m changes).1 := by
  induction changes generalizing m with
  | nil => exact h
  | cons e changes ih =>
    have hr := h.replace ht e.1 e.2
    unfold EditModel.replaceAll
    split
    · rename_i m' he
      rw [he] at hr
      exact ih hr
    · rename_i m' o _ he
      rw [he] at hr
      exact hr

theorem Good.withHistory_nil (h : Good t m) : Good t (m.withHistory {}) :=
  ⟨h.state, fun _ hc => absurd hc not_mem_nil, h.caches⟩

theorem Good.replaceBatch (ht : t.Lawful) (h : Good t m) (changes : QMap Bytes)
    (expected : Bytes) : Good t (m.replaceBatch t changes expected).1 := by
  have hf := h.fingerprintOf ht recognised_empty
  unfold EditModel.replaceBatch
  simp only
  split
  · exact hf
  split
  · rename_i candidate he
    have hc := hf.withHistory_nil.replaceAll ht changes.entries
    rw [he] at hc
    split
    · exact hf
    · refine Good.record ?_ hf.state
      exact hf.withState hc.state rfl rfl
  · exact hf

theorem goodState_of_index (ht : t.Lawful) {publication : Publication}
    (hi : t.index world bytes = .ok publication) (media : QMap String) :
    GoodState t ⟨bytes, publication.stripped, media, .empty⟩ := by
  obtain ⟨hsha, hz⟩ := ht.indexed world bytes publication hi
  exact ⟨hsha, hz, fun _ _ h => by rw [OrdMap.find_empty] at h; cases h⟩

/-- A book that was loaded. -/
theorem load_eq_done {candidate : EditModel} (h : m.load t world bytes = (candidate, .done)) :
    ∃ publication, t.index world bytes = .ok publication ∧
      candidate = m.accept bytes publication := by
  unfold load at h
  split at h
  · cases h
  · exact ⟨_, ‹_›, (congrArg Prod.fst h).symm⟩

theorem Good.load (ht : t.Lawful) (h : Good t m) (world : κ) (bytes : Bytes) :
    Good t (m.load t world bytes).1 := by
  unfold EditModel.load
  split
  · exact h.of_eq rfl rfl h.caches
  · rename_i publication hi
    exact ⟨goodState_of_index ht hi _, fun _ hc => absurd hc not_mem_nil, h.caches⟩

theorem Good.restoreStructuralBytes (ht : t.Lawful) (h : Good t m) (world : κ) (bytes : Bytes) :
    Good t (m.restoreStructuralBytes t world bytes).1 := by
  unfold EditModel.restoreStructuralBytes
  split
  · exact h
  split
  · rename_i candidate hl
    obtain ⟨publication, hi, rfl⟩ := load_eq_done hl
    exact h.withState (goodState_of_index ht hi _) rfl rfl
  · exact h

/-- A replacement only changes the replacements. -/
theorem state_replace (path : QString) (bytes : Bytes) :
    ∃ changes, (m.replace t path bytes).1.state = { m.state with changes } := by
  have hr := state_read (m := m) (t := t) path
  unfold EditModel.replace
  split
  · exact ⟨_, rfl⟩
  split
  · exact ⟨_, rfl⟩
  split
  · exact ⟨_, rfl⟩
  split
  · exact ⟨_, rfl⟩
  split
  · exact ⟨_, hr⟩
  split
  · exact ⟨_, hr⟩
  · rename_i m' ha
    refine ⟨m'.replacements, (trim_frame _).1.trans ?_⟩
    unfold EditModel.assign at ha
    split at ha
    · cases ha
    · obtain rfl := Except.ok.inj ha
      exact congrArg (fun s : State => ({ s with changes := _ } : State)) hr

theorem Good.modifyProperties (ht : t.Lawful) (h : Good t m) (world : κ) (request : Request) :
    Good t (m.modifyProperties t world request).1 := by
  unfold EditModel.modifyProperties
  simp only
  generalize (if request.operation = "metadata" then _ else _ : QString) = path
  have hread := h.read ht path
  split
  · exact h
  split
  · exact hread
  split
  · exact hread
  rename_i next _
  split
  · exact hread
  have hc := hread.replace ht path next
  split
  · exact hread
  · exact hread
  rename_i candidate he
  split
  · exact hread
  · obtain ⟨changes, hs⟩ := state_replace (m := (m.read t path).1) (t := t) path next
    rw [he] at hc hs
    refine Good.record (hread.withState ?_ rfl rfl) hread.state
    -- the candidate has the edition that is put under its replacements
    have hstate := hc.state
    rw [hs] at hstate
    obtain rfl : candidate.replacements = changes := congrArg State.changes hs
    exact hstate

theorem Good.structure_ (ht : t.Lawful) (h : Good t m) (world : κ) (request : Request) :
    Good t (m.structure_ t world request).1 := by
  unfold EditModel.structure_
  split
  · exact h.modifyProperties ht world request
  split
  · exact h
  split
  · exact h
  split
  · rename_i candidate hl
    split
    · exact h
    · obtain ⟨publication, hi, rfl⟩ := load_eq_done hl
      exact Good.record (h.withState (goodState_of_index ht hi _) rfl rfl) h.state
  · exact h

/-- The operation does not fingerprint a draft that repeats a resource unnoticed. -/
def RecognisedEdit (t : Toolkit κ) (m : EditModel) : Edit κ → Prop
  | .fingerprint draft => m.Recognised t draft
  | _ => True

theorem Good.perform (ht : t.Lawful) (h : Good t m) {e : Edit κ} (hr : RecognisedEdit t m e) :
    Good t (m.perform t e).1 := by
  cases e with
  | load world bytes => exact h.load ht world bytes
  | read path => exact h.read ht path
  | replace path bytes => exact h.replace ht path bytes
  | replaceBatch changes expected => exact h.replaceBatch ht changes expected
  | structure_ world request => exact h.structure_ ht world request
  | restoreStructuralBytes world bytes => exact h.restoreStructuralBytes ht world bytes
  | undo => exact h.undo
  | redo => exact h.redo
  | fingerprint draft => exact h.fingerprintOf ht hr

/-- No operation of the run fingerprints a draft that repeats a resource unnoticed. -/
def RecognisedRun (t : Toolkit κ) : EditModel → List (Edit κ) → Prop
  | _, [] => True
  | m, e :: edits => RecognisedEdit t m e ∧ RecognisedRun t (m.perform t e).1 edits

theorem Good.run (ht : t.Lawful) (h : Good t m) {edits : List (Edit κ)}
    (hr : RecognisedRun t m edits) : Good t (m.run t edits) := by
  induction edits generalizing m with
  | nil => exact h
  | cons e edits ih => exact ih (h.perform ht hr.1) hr.2

theorem good_opened (ht : t.Lawful) {publication : Publication}
    (hi : t.index world bytes = .ok publication) : Good t (load {} t world bytes).1 := by
  unfold EditModel.load
  rw [hi]
  refine ⟨goodState_of_index ht hi _, fun _ hc => absurd hc not_mem_nil, ?_, ?_⟩
  · intro _ _ path h hh
    cases (OrdMap.find_empty (k := path)).symm.trans hh
  · intro edition he
    exact absurd he.symm (digest_ne_nil ht edition)

theorem plainPaths_changed (ht : t.Lawful) (h : Good t m)
    (hd : PlainPaths draft) : PlainPaths (changed t m.edition m.replacements draft) := by
  intro e he
  have hf : (changed t m.edition m.replacements draft).find e.1 = some e.2 :=
    OrdMap.mem_entries.1 he
  rw [find_changed, filter_eq_some_iff, or_eq_some_iff] at hf
  rcases hf.1 with hf | ⟨-, hf⟩
  · exact hd _ (OrdMap.mem_entries.2 hf)
  · obtain ⟨bytes, hb, -⟩ := h.state.replaced _ _ hf
    exact ht.read_plain _ _ _ hb

end EditModel

/-- A run that begins with a book that can be opened, and never fingerprints a draft that repeats a
resource unnoticed. -/
structure BookRun {κ : Type} (t : Toolkit κ) where
  world : κ
  bytes : Bytes
  publication : Publication
  indexed : t.index world bytes = .ok publication
  edits : List (Edit κ)
  recognised : EditModel.RecognisedRun t {} (.load world bytes :: edits)

namespace BookRun

variable {κ : Type} {t : Toolkit κ}

/-- The model after the run. -/
def model (r : BookRun t) : EditModel := EditModel.run t {} (.load r.world r.bytes :: r.edits)

theorem good (ht : t.Lawful) (r : BookRun t) : EditModel.Good t r.model :=
  (EditModel.good_opened ht r.indexed).run ht r.recognised.2

end BookRun

namespace EditModel

/-- Two fingerprints are equal just when the contents of the books with their drafts are, whatever
was read, cached, undone and redone before. -/
theorem fingerprint_of_recognised {κ : Type} (t : Toolkit κ) (ht : t.Lawful) (r s : BookRun t)
    (d e : QMap Bytes) (hd : r.model.Recognised t d) (he : s.model.Recognised t e)
    (hpd : PlainPaths d) (hpe : PlainPaths e) :
    (r.model.fingerprintOf t d).2 = (s.model.fingerprintOf t e).2 ↔
      SameContents t r.model.state d s.model.state e := by
  rw [fingerprintOf_eq ht (r.good ht) hd, fingerprintOf_eq ht (s.good ht) he, sameContents_iff]
  constructor
  · exact identity_injective ht (r.good ht).state.archive (s.good ht).state.archive
      (plainPaths_changed ht (r.good ht) hpd) (plainPaths_changed ht (s.good ht) hpe)
  · rintro ⟨hb, hc⟩
    have hb : r.model.edition = s.model.edition := hb
    have hc : changed t r.model.edition r.model.replacements d =
        changed t s.model.edition s.model.replacements e := hc
    rw [hb] at hc ⊢
    rw [hc]

/-! ## A book with one style sheet -/

/-- Digests that give every byte back, and end with a zero. -/
def spell (bytes : Bytes) : Bytes := bytes.flatMap (fun b => [1, b]) ++ [0]

@[simp] theorem spell_nil : spell [] = [0] := rfl

@[simp] theorem spell_cons (b : UInt8) (bytes : Bytes) :
    spell (b :: bytes) = 1 :: b :: spell bytes := by
  simp [spell]

theorem spell_isPrefix {a b : Bytes} (h : spell a <+: spell b) : a = b := by
  induction a generalizing b with
  | nil =>
    cases b with
    | nil => rfl
    | cons c b => simp [cons_prefix_cons] at h
  | cons x a ih =>
    cases b with
    | nil => simp [cons_prefix_cons] at h
    | cons c b =>
      rw [spell_cons, spell_cons, cons_prefix_cons, cons_prefix_cons] at h
      rw [h.2.1, ih h.2.2]

/-- A toolkit for books of one style sheet `a`, which the book's bytes begin with. -/
def bookToolkit : Toolkit Unit :=
  { sheetToolkit with
    sha256 := spell
    index _ bytes :=
      if [0, 0] <:+: bytes then
        .ok { sourceSha256 := toHex (spell bytes), resources := [⟨[97], "text/css", none⟩] }
      else .error ⟨"zip-end-missing", []⟩ }

theorem bookToolkit_lawful : bookToolkit.Lawful where
  sha256_injective a b h := by
    have h : spell a = spell b := h
    exact spell_isPrefix (h ▸ prefix_rfl)
  sha256_prefixFree := by
    rintro _ ⟨a, rfl⟩ _ ⟨b, rfl⟩ h
    exact congrArg spell (spell_isPrefix h)
  read_plain edition path bytes h := by
    have h : (if path = [97] then Except.ok (edition.take 1)
      else .error ⟨"missing-resource", path⟩ :
      Except Rejected Bytes) = .ok bytes := h
    split at h
    · rename_i hp
      rw [hp]
      exact ⟨by decide, by decide⟩
    · cases h
  indexed world bytes publication h := by
    have h : (if [0, 0] <:+: bytes then Except.ok
      { sourceSha256 := toHex (spell bytes), resources := [⟨[97], "text/css", none⟩] }
      else .error ⟨"zip-end-missing", []⟩ : Except Rejected Publication) = .ok publication := h
    split at h
    · obtain rfl := Except.ok.inj h
      exact ⟨rfl, ‹_›⟩
    · cases h

/-- The sheet with some text put in its place. -/
def sheet (bytes : Bytes) : QMap Bytes := .set .empty [97] bytes

theorem find_sheet {bytes v : Bytes} {path : QString} (h : (sheet bytes).find path = some v) :
    path = [97] ∧ v = bytes := by
  rw [sheet, OrdMap.find_set] at h
  split at h
  · exact ⟨‹_›, (some.inj h).symm⟩
  · rw [OrdMap.find_empty] at h
    cases h

/-- The book is opened, its sheet read and then replaced. -/
def replacedRun : BookRun bookToolkit where
  world := ()
  bytes := [1, 0, 0]
  publication :=
    { sourceSha256 := toHex (spell [1, 0, 0]), resources := [⟨[97], "text/css", none⟩] }
  indexed := rfl
  edits := [.read [97], .replace [97] [2]]
  recognised := ⟨trivial, trivial, trivial, trivial⟩

/-- The book is opened, and an edit of its sheet undone. -/
def undoneRun : BookRun bookToolkit where
  world := ()
  bytes := [1, 0, 0]
  publication :=
    { sourceSha256 := toHex (spell [1, 0, 0]), resources := [⟨[97], "text/css", none⟩] }
  indexed := rfl
  edits := [.replace [97] [3], .undo, .fingerprint .empty]
  recognised := ⟨trivial, trivial, trivial, recognised_empty, trivial⟩

/-- A draft that takes the replacement back, and an edit that was undone. -/
theorem fingerprint_of_recognised_sheet :
    (replacedRun.model.fingerprintOf bookToolkit (sheet [1])).2 =
        (undoneRun.model.fingerprintOf bookToolkit .empty).2 ↔
      SameContents bookToolkit replacedRun.model.state (sheet [1])
        undoneRun.model.state .empty := by
  refine fingerprint_of_recognised bookToolkit bookToolkit_lawful replacedRun undoneRun (sheet [1])
    .empty (fun path bytes hf _ => ?_) recognised_empty (fun e he => ?_) (fun e he => ?_)
  · obtain ⟨rfl, rfl⟩ := find_sheet hf
    decide +kernel
  · obtain ⟨hp, -⟩ := find_sheet (OrdMap.mem_entries.1 he)
    rw [hp]
    exact ⟨by decide, by decide⟩
  · cases he

/-- A draft that repeats the sheet, which was never read, changes the fingerprint of the book but
not its contents. -/
theorem fingerprint_unread :
    bookToolkit.Lawful ∧
      SameContents bookToolkit (load {} bookToolkit () [1, 0, 0]).1.state (sheet [1])
        (load {} bookToolkit () [1, 0, 0]).1.state .empty ∧
      ((load {} bookToolkit () [1, 0, 0]).1.fingerprintOf bookToolkit (sheet [1])).2 ≠
        ((load {} bookToolkit () [1, 0, 0]).1.fingerprintOf bookToolkit .empty).2 := by
  refine ⟨bookToolkit_lawful, sameContents_iff.2 ⟨rfl, ?_⟩, by decide +kernel⟩
  decide +kernel

end EditModel

end Hc.Document.Epub
