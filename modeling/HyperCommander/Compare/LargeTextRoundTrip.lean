import HyperCommander.Compare.LargeTextChunks

/-!
# Saving a large text

The text of a document goes through `write` in the parts that `visit` reads, so a character may
again be cut; the characters that were written so far are the invariant of the loop (`Written`).

* `saveLargeText_yields`: the bytes of a saved document.
* `large_text_codec`: reading does not depend on the chunks, and saving brings the file back.
-/

namespace Hc.Compare

open List Slice Pieces Unicode Words Document.TextCodec

/-! ## Parts -/

section Visit

variable {σ : Type} {limits : Budget} {disk : Disk} {output : σ → Bytes → Run σ}
  {E : Failure → Prop} {I : Bytes → σ → Prop} {text : Bytes}

/-- What is put out keeps the invariant, as far as it belongs to the text. -/
def PutsOut (E : Failure → Prop) (I : Bytes → σ → Prop) (text : Bytes)
    (output : σ → Bytes → Run σ) :
    Prop :=
  ∀ t part s, t ++ part <+: text → I t s → Yields E (output s part) (I (t ++ part))

theorem eachPart_yields (hE : ∀ e, limits.Outside e → E e) (hout : PutsOut E I text output)
    {file t : Bytes} {fuel at_ remaining : Nat} {s : σ} (hf : remaining ≤ fuel)
    (hin : at_ + remaining ≤ file.length) (ht : t ++ slice file at_ (at_ + remaining) <+: text)
    (hs : I t s) : Yields E (eachPart limits output file fuel at_ remaining s)
      (I (t ++ slice file at_ (at_ + remaining))) := by
  induction fuel generalizing at_ remaining t s with
  | zero =>
    obtain rfl : remaining = 0 := by omega
    refine .pure ?_
    simpa using hs
  | succ fuel ih =>
    unfold eachPart
    by_cases h0 : remaining = 0
    · subst h0
      rw [if_pos rfl]
      refine .pure ?_
      simpa using hs
    rw [if_neg h0]
    have hpos : 0 < chunkBytes := by decide
    have hlen : (slice file at_ (at_ + min remaining chunkBytes)).length =
        min remaining chunkBytes := by
      rw [length_slice (by omega), Nat.add_sub_cancel_left]
    have hne : slice file at_ (at_ + min remaining chunkBytes) ≠ [] := by
      intro hnil
      rw [hnil, length_nil] at hlen
      omega
    have hsplit : slice file at_ (at_ + remaining) =
      slice file at_ (at_ + min remaining chunkBytes) ++
        slice file (at_ + min remaining chunkBytes) (at_ + min remaining chunkBytes +
          (remaining - min remaining chunkBytes)) := by
      rw [slice_append (by omega) (by omega)]
      congr 1
      omega
    rw [hsplit, ← append_assoc] at ht ⊢
    refine (Budget.check_yields hE).skip fun _ => ?_
    dsimp only
    rw [throwIf, if_neg hne, pure_bind, hlen]
    refine (hout t _ s ((prefix_append _ _).trans ht) hs).bind fun s' hs' => ?_
    exact ih (by omega) (by omega) ht hs'

theorem eachPiece_yields (hE : ∀ e, limits.Outside e → E e) (hout : PutsOut E I text output)
    {ps : List LargeTextPiece} {t : Bytes} {a b offset : Nat} {s : σ}
    (hfits : ∀ q ∈ ps, q.Fits disk) (ht : t ++ content disk (cut a b offset ps) <+: text)
    (hs : I t s) :
    Yields E (eachPiece limits disk output a b offset ps s)
      (I (t ++ content disk (cut a b offset ps))) := by
  induction ps generalizing t offset s with
  | nil =>
    refine .pure ?_
    rw [cut]
    simpa [content] using hs
  | cons q rest ih =>
    have hq : q.begin_ + q.bytes ≤ (disk q.backing).length := hfits q mem_cons_self
    have hrest := fun r hr => hfits r (mem_cons_of_mem _ hr)
    unfold cut at ht ⊢
    refine (Budget.check_yields hE).skip fun _ => ?_
    dsimp only at ht ⊢
    by_cases hlt : max a offset < min b (offset + q.bytes)
    · rw [if_pos hlt] at ht ⊢
      rw [if_pos hlt, content_cons, ← append_assoc]
      rw [content_cons, ← append_assoc] at ht
      have hin : q.begin_ + max a offset - offset + (min b (offset + q.bytes) - max a offset) ≤
          (disk q.backing).length := by omega
      have hpart := eachPart_yields hE hout (Nat.le_refl _) hin ((prefix_append _ _).trans ht) hs
      exact hpart.bind fun s' hs' => ih hrest ht hs'
    · rw [if_neg hlt] at ht ⊢
      rw [if_neg hlt, pure_bind]
      exact ih hrest ht hs

/-- The whole text is put out. -/
theorem visitEach_yields (hE : ∀ e, limits.Outside e → E e) (hout : PutsOut E I text output)
    {d : LargeTextDocument} {s : σ} (hd : Holds disk d text) (hs : I [] s) :
    Yields E (visitEach limits disk output d 0 d.bytes s) (I text) := by
  have hcut : content disk (cut 0 d.bytes 0 d.pieces) = text := by
    rw [content_cut hd.fits, hd.content, hd.bytes, Nat.sub_zero, Nat.sub_zero, slice_full]
  unfold visitEach
  rw [throwIf, if_neg (by omega), pure_bind]
  have hall : [] ++ content disk (cut 0 d.bytes 0 d.pieces) <+: text := by
    rw [nil_append, hcut]
  have h := eachPiece_yields hE hout hd.fits hall hs
  rwa [nil_append, hcut] at h

end Visit

/-! ## Writing -/

/-- What the session replies to make a save fail. -/
def WriteReplies.Fails (session : WriteReplies) (e : Failure) : Prop :=
  (∃ n error, session.append n = .error error ∧ e = ⟨error.code⟩) ∨
    (∃ error, session.commit = .error error ∧ e = ⟨error.code⟩) ∨
    session.commit = .ok false ∧ e = ⟨"NotCommitted"⟩

section Save

variable {p : CodePages} {encoding : Units} {word : Char → Bytes} {allowed : Char → Prop}
  {limits : Budget} {session : WriteReplies} {original : LargeTextOriginal} {s : Saving}
  {cs : List Char} {E : Failure → Prop}

theorem appendParts_yields (hE : ∀ e, limits.Outside e ∨ session.Fails e → E e)
    {encoded output : Bytes} {fuel offset : Nat} (hf : encoded.length ≤ offset + fuel) :
    Yields E (appendParts limits session encoded fuel offset output) fun out =>
      out = output ++ encoded.drop offset := by
  induction fuel generalizing offset output with
  | zero =>
    refine .pure ?_
    rw [drop_of_length_le (by omega), append_nil]
  | succ fuel ih =>
    refine .ite (fun hlt => ?_) fun hge => .pure ?_
    · refine (Budget.check_yields fun e he => hE e (.inl he)).skip fun _ => ?_
      cases ha : session.append output.length with
      | error e => exact .fail (hE _ (.inr (.inl ⟨_, e, ha, rfl⟩)))
      | ok u =>
        have hpos : 0 < chunkBytes := by decide
        refine (@ih _ (offset + chunkBytes) (by omega)).weaken fun out ho => ?_
        rw [ho, append_assoc]
        congr 1
        rcases Nat.le_total (offset + chunkBytes) encoded.length with hle | hle
        · rw [Nat.min_eq_left (by omega), ← slice_to_length, ← slice_to_length,
            slice_append (by omega) hle]
        · rw [Nat.min_eq_right (by omega), Nat.add_sub_cancel' (Nat.le_of_lt hlt), slice_to_length,
            drop_of_length_le hle, append_nil]
    · rw [drop_of_length_le (by omega), append_nil]

/-- The characters `ds` of the text are written, and `pending` is a part of the next one. -/
structure Written (word : Char → Bytes) (mark : Bytes) (cs : List Char) (t : Bytes) (s : Saving)
    (ds : List Char) : Prop where
  written : ds <+: cs
  pending : t = Unicode.utf8 ds ++ s.pending
  output : s.output = if s.first then [] else mark ++ ds.flatMap word
  first : s.first = true → ds = []

/-- The bytes in front of the text. -/
def LargeTextOriginal.mark (original : LargeTextOriginal) : Bytes :=
  if original.bom then markOf original.encoding else []

/-- Some more characters are written. -/
theorem writeText_yields (h : Coded p encoding word allowed) (henc : original.encoding = encoding)
    (hE : ∀ e, limits.Outside e ∨ session.Fails e → E e) {fs : List Char}
    (hall : ∀ c ∈ fs, allowed c) (hw : (fs.flatMap word).length ≤ intMax)
    (hu : (fs.flatMap units).length ≤ intMax) :
    Yields E (writeText limits p session original (fs.flatMap units) s) fun s' =>
      s' = { s with
        first := false
        output := s.output ++ (if s.first then original.mark else []) ++ fs.flatMap word } := by
  unfold writeText
  rw [henc, h.encode_ok hall hw hu, require, pure_bind]
  refine (appendParts_yields hE (Nat.le_of_eq (Nat.zero_add _).symm)).bind fun out ho =>
    .pure ?_
  rw [ho, drop_zero, LargeTextOriginal.mark, ← henc]
  cases s.first <;> cases original.bom <;> simp

/-- A call of `write` writes the characters that are complete. -/
theorem writePending_yields (h : Coded p encoding word allowed)
    (henc : original.encoding = encoding) (hE : ∀ e, limits.Outside e ∨ session.Fails e → E e)
    (hall : ∀ c ∈ cs, allowed c) (hw : (cs.flatMap word).length ≤ largeTextMaximum)
    (hu : (Unicode.utf8 cs).length ≤ largeTextMaximum) {t : Bytes} {ds : List Char} {final : Bool}
    (ht : t <+: Unicode.utf8 cs) (hfin : final = true → t = Unicode.utf8 cs)
    (hs : Written word original.mark cs t s ds) :
    Yields E (writePending limits p session original final s) fun s' =>
      ∃ es, Written word original.mark cs t s' es ∧
        (final = true → es = cs ∧ s'.first = false) := by
  obtain ⟨⟨es, rfl⟩, hpend, hout, hfirst⟩ := hs
  obtain ⟨rest, hrest⟩ := ht
  have hes : es.flatMap String.utf8EncodeChar = s.pending ++ rest := by
    rw [hpend, Utf8.utf8_append, append_assoc] at hrest
    exact (append_cancel_left hrest).symm
  have hnil : final = true → rest = [] := by
    intro hf
    rw [hfin hf] at hrest
    exact append_right_eq_self.mp hrest
  obtain ⟨fs, gs, rfl, hfs, hgs, hend⟩ := (coded_utf8 p).split hes hnil
  generalize hn : completeBytes p s.pending (latin1 "UTF-8") final = n at hfs hgs
  have hallf : ∀ c ∈ fs, allowed c := fun c hc =>
    hall c (mem_append_right _ (mem_append_left _ hc))
  have hspell : Spelled String.utf8EncodeChar (· ≠ '\x00') (s.pending.take n) fs :=
    ⟨fun c hc => h.ne_zero c (hallf c hc), hfs⟩
  have hmax : largeTextMaximum + 2 < intMax := by decide
  have hlen : (Unicode.utf8 fs).length ≤ largeTextMaximum := by
    rw [Utf8.utf8_append, Utf8.utf8_append, length_append, length_append] at hu
    omega
  have hunits := length_flatMap_units_le fs
  have hdec := (coded_utf8 p).decode_spelled hspell (by
    have hfront := length_frontOf_le (latin1 "UTF-8")
    have hfs : Unicode.utf8 fs = s.pending.take n := hfs
    rw [length_append, ← hfs]
    omega) (by omega)
  unfold writePending
  dsimp only
  rw [hn, hdec, pure_bind]
  have hpend' : t = Unicode.utf8 (ds ++ fs) ++ s.pending.drop n := by
    have hfs : Unicode.utf8 fs = s.pending.take n := hfs
    rw [hpend, Utf8.utf8_append, hfs, append_assoc, take_append_drop]
  by_cases hwrite : n ≠ 0 ∨ final = true
  · rw [if_pos hwrite]
    have hwf : (fs.flatMap word).length ≤ intMax := by
      rw [flatMap_append, flatMap_append, length_append, length_append] at hw
      omega
    refine (writeText_yields h henc hE hallf hwf (by omega)).bind fun s' hs' => .pure ?_
    subst hs'
    refine ⟨ds ++ fs, ⟨⟨gs, by rw [append_assoc]⟩, hpend', ?_, nofun⟩, fun hf =>
      ⟨by rw [hend hf, append_nil], rfl⟩⟩
    rw [hout, flatMap_append]
    cases hf : s.first with
    | true =>
      rw [hfirst hf]
      simp
    | false => simp
  · rw [if_neg hwrite, pure_bind]
    obtain ⟨hn0, hfinal⟩ := not_or.mp hwrite
    have hn0 := not_not.mp hn0
    -- Nothing is complete, so no character is written.
    have hfs0 : fs = [] := by
      rw [hn0, take_zero] at hfs
      cases fs with
      | nil => rfl
      | cons c fs =>
        have := length_units_le c
        have hpos := length_pos_iff.mpr (units_ne_nil c)
        rw [flatMap_cons, append_eq_nil_iff] at hfs
        rw [hfs.1, length_nil] at this
        omega
    subst hfs0
    rw [append_nil] at hpend'
    exact .pure ⟨ds, ⟨prefix_append _ _, hpend', hout, hfirst⟩, fun hf => absurd hf hfinal⟩

/-- A saved document has the mark and the bytes of its characters, unless the outside or the session
ends the save. -/
theorem saveLargeText_yields (h : Coded p encoding word allowed)
    (henc : original.encoding = encoding) (hall : ∀ c ∈ cs, allowed c)
    (hw : (cs.flatMap word).length ≤ largeTextMaximum)
    (hu : (Unicode.utf8 cs).length ≤ largeTextMaximum) {disk : Disk} {d : LargeTextDocument}
    (hd : Holds disk d (Unicode.utf8 cs)) :
    Yields (fun e => limits.Outside e ∨ session.Fails e)
      (saveLargeText limits p session disk d original) fun out =>
      out = original.mark ++ cs.flatMap word := by
  have hput : PutsOut (fun e => limits.Outside e ∨ session.Fails e)
      (fun t s => ∃ ds, Written word original.mark cs t s ds) (Unicode.utf8 cs) fun s bytes =>
        writePending limits p session original false { s with pending := s.pending ++ bytes } := by
    rintro t part s ht ⟨ds, hs⟩
    have hs' : Written word original.mark cs (t ++ part)
        { s with pending := s.pending ++ part } ds :=
      ⟨hs.written, by rw [hs.pending, append_assoc], hs.output, hs.first⟩
    refine (writePending_yields h henc (fun e he => he) hall hw hu ht
      (fun he => by cases he) hs').weaken
      fun s' ho => ?_
    obtain ⟨es, hes, -⟩ := ho
    exact ⟨es, hes⟩
  have hstart : ∃ ds, Written word original.mark cs [] ({} : Saving) ds :=
    ⟨[], nil_prefix, rfl, rfl, fun _ => rfl⟩
  refine (visitEach_yields (fun e he => .inl he) hput hd hstart).bind fun s hs => ?_
  obtain ⟨ds, hs⟩ := hs
  refine (writePending_yields h henc (fun e he => he) hall hw hu prefix_rfl (fun _ => rfl) hs).bind
    fun s' hs' => ?_
  obtain ⟨es, hes, hend⟩ := hs'
  obtain ⟨rfl, hfirst⟩ := hend rfl
  refine (Budget.check_yields fun e he => .inl he).skip fun _ => ?_
  cases hc : session.commit with
  | error e => exact .fail (.inr (.inr (.inl ⟨e, hc, rfl⟩)))
  | ok committed =>
    refine (.pure rfl : Yields _ (pure committed) (· = committed)).bind fun b hb => ?_
    subst hb
    refine (throwIf_yields fun hb => .inr (.inr (.inr ⟨hb ▸ hc, rfl⟩))).bind fun _ _ => .pure ?_
    rw [hes.output, hfirst]
    rfl

end Save

/-! ## Reading and saving -/

section RoundTrip

variable {p : CodePages} {T : CodeTable Char} {limits : Budget} {encoding : Units}

/-- A mark that was found is that of the encoding. -/
theorem take_mark {bytes : Bytes} (h : (detect bytes).2 ≠ 0) :
    bytes.take (detect bytes).2 = markOf (detect bytes).1 := by
  have htake : ∀ {m : Bytes}, m <+: bytes → bytes.take m.length = m :=
    fun hm => (prefix_iff_eq_take.mp hm).symm
  unfold detect at h ⊢
  split
  · exact htake ‹_›
  rename_i hle
  split
  · exact htake ‹_›
  rename_i hbe
  rw [if_neg hle, if_neg hbe] at h
  split
  · exact htake ‹_›
  · rename_i h8
    rw [if_neg h8] at h
    exact absurd rfl h

/-- The mark and the characters are the bytes of the file. -/
theorem Accepted.bytes {bytes : Bytes} {cs : List Char} (h : Accepted T encoding bytes cs) :
    (accepted encoding bytes cs).original.mark ++ cs.flatMap (wordOf T (usedOf encoding bytes)) =
      bytes := by
  rw [h.spelled.2, LargeTextOriginal.mark]
  by_cases h0 : (detect bytes).2 = 0
  · simp [accepted, h0]
  · have hused : (detect bytes).1 = usedOf encoding bytes := not_not.mp fun hne => h.mark ⟨h0, hne⟩
    have hmark := take_mark h0
    simp only [accepted, h0, ne_eq, not_false_eq_true, decide_true, if_true, ← hused, ← hmark]
    exact take_append_drop _ _

theorem readLargeText_accepted (h : Converts p T) (henc : encoding = [] ∨ encoding ∈ supported)
    {store : Nat} {allowMissing : Bool} {inspect : Except Storage.Error (Option SourceFile)}
    {resolve : Except Storage.Error SourceFile} {source : SourceFile}
    (hsource : (if allowMissing then inspect else resolve.map some) = .ok (some source)) :
    Yields (fun _ => True) (readLargeText limits p store encoding allowMissing inspect resolve)
      fun loaded => ∃ b cs, source.stream.last = .ok b ∧
        Accepted T encoding (source.stream.chunks.flatten ++ b) cs ∧ loaded.file = Unicode.utf8 cs ∧
        loaded.original = (accepted encoding (source.stream.chunks.flatten ++ b) cs).original := by
  have hreply : (if allowMissing = true then require inspect else require (resolve.map some)) =
      (pure (some source) : Run (Option SourceFile)) := by
    cases allowMissing with
    | true =>
      rw [if_pos rfl] at hsource ⊢
      rw [hsource]
      rfl
    | false =>
      rw [if_neg Bool.false_ne_true] at hsource ⊢
      rw [hsource]
      rfl
  unfold readLargeText
  rw [hreply]
  refine check_any.skip fun _ => ?_
  rw [pure_bind]
  refine throwIf_past fun _ => throwIf_past
    fun _ => .past fun _ => ?_
  refine (@readStream_accepted p T limits encoding [] h henc _ _).bind fun s hs => ?_
  obtain ⟨b, cs, hb, hacc, rfl⟩ := hs
  exact throwIf_past fun _ => .pure ⟨b, cs, hb, hacc, rfl, rfl⟩

theorem returns_of_yields {α : Type} {m : Run α} {a : α} {E : Failure → Prop}
    (h : Yields E m (· = a)) (hE : ∀ e, ¬ E e) : Returns m a := by
  have h := h {}
  cases hr : m.run {} with
  | error e =>
    rw [hr] at h
    exact absurd h (hE e)
  | ok r =>
    rw [hr] at h
    refine ⟨{}, r.2, ?_⟩
    rw [hr, ← show r.1 = a from h]

theorem unlimited_outside (e : Failure) : ¬ Budget.unlimited.Outside e := by
  intro h
  obtain ⟨-, t, ht⟩ := Budget.unattended_outside h
  cases ht

/-- With any budget and cut anywhere, a stream is read as it is at once, or the outside ends the
reading; a file that was read is saved with its own bytes, or the outside or the session ends the
save. -/
theorem large_text_codec (h : Converts p T) (henc : encoding = [] ∨ encoding ∈ supported) :
    (∀ limits chunks last out, (∀ c ∈ chunks, c ≠ []) →
      (Returns (readStream limits p encoding (.ok last) chunks {}) out →
        Returns (readStream .unlimited p encoding (.ok (chunks.flatten ++ last)) [] {}) out) ∧
      (Returns (readStream .unlimited p encoding (.ok (chunks.flatten ++ last)) [] {}) out →
        Yields limits.Outside (readStream limits p encoding (.ok last) chunks {}) (· = out))) ∧
    ∀ limits store allowMissing inspect resolve source loaded,
      (if allowMissing then inspect else resolve.map some) = .ok (some source) →
      Returns (readLargeText limits p store encoding allowMissing inspect resolve) loaded →
      ∃ last, source.stream.last = .ok last ∧
        ∀ limits' session disk, disk store = loaded.file →
          Yields (fun e => limits'.Outside e ∨ session.Fails e)
            (saveLargeText limits' p session disk loaded.document loaded.original)
            (· = source.stream.chunks.flatten ++ last) := by
  constructor
  · intro limits chunks last out hne
    constructor
    · intro hr
      obtain ⟨b, cs, hb, hacc, rfl⟩ :=
        (@readStream_accepted p T limits encoding [] h henc _ _).of_returns hr
      obtain rfl := Except.ok.inj hb
      exact returns_of_yields (@readStream_progress p T .unlimited encoding [] h henc [] _ cs
        (fun c hc => by cases hc) hacc) unlimited_outside
    · intro hr
      obtain ⟨b, cs, hb, hacc, rfl⟩ :=
        (@readStream_accepted p T .unlimited encoding [] h henc _ _).of_returns hr
      obtain rfl := Except.ok.inj hb
      exact @readStream_progress p T limits encoding [] h henc chunks last cs hne hacc
  · intro limits store allowMissing inspect resolve source loaded hsource hr
    obtain ⟨b, cs, hb, hacc, hfile, horig⟩ := (readLargeText_accepted h henc hsource).of_returns hr
    obtain ⟨-, hdoc⟩ := readLargeText_yields.of_returns hr
    refine ⟨b, hb, fun limits' session disk hdisk => ?_⟩
    have hd : Holds disk loaded.document (Unicode.utf8 cs) := by
      have hs := (read_whole disk hr).1
      have htext := (read_whole disk hr).2.1
      have hsame : writeStore disk store loaded.file = disk := by
        rw [← hdisk]
        exact Function.update_eq_self store disk
      rw [hsame] at hs htext
      have := hs.toSound.holds
      rwa [htext, hfile] at this
    have hcoded := coded_supported h (usedOf_supported henc (source.stream.chunks.flatten ++ b))
    have hw : (cs.flatMap (wordOf T (usedOf encoding (source.stream.chunks.flatten ++ b)))).length ≤
        largeTextMaximum := by
      rw [hacc.spelled.2, length_drop]
      exact (Nat.sub_le _ _).trans hacc.size
    refine (saveLargeText_yields hcoded (by rw [horig]; rfl) hacc.spelled.1 hw hacc.file hd).weaken
      fun out ho => ?_
    rw [ho, horig]
    exact hacc.bytes

end RoundTrip

/-! ## A Korean file -/

/-- ASCII and one syllable of the Korean code page. -/
def syllableChar : Bytes → Option Char
  | [b] => if b < 0x80 then some (Char.ofNat b.toNat) else none
  | [b, d] => if b = 0xb0 ∧ d = 0xa1 then some '가' else none
  | _ => none

def syllableBytes (c : Char) : Option Bytes :=
  if c.toNat < 0x80 then some [UInt8.ofNat c.toNat] else if c = '가' then some [0xb0, 0xa1] else none

theorem syllableChar_cases {s : Bytes} {a : Char} (h : syllableChar s = some a) :
    (∃ b, s = [b] ∧ b < 0x80 ∧ a = Char.ofNat b.toNat) ∨ s = [0xb0, 0xa1] ∧ a = '가' := by
  unfold syllableChar at h
  split at h
  · split at h
    · cases h
      exact .inl ⟨_, rfl, ‹_›, rfl⟩
    · cases h
  · split at h
    · rename_i hbd
      cases h
      exact .inr ⟨by rw [hbd.1, hbd.2], rfl⟩
    · cases h
  · cases h

theorem syllableChar_length {s : Bytes} {a : Char} (h : syllableChar s = some a) :
    0 < s.length ∧ s.length ≤ 2 := by
  rcases syllableChar_cases h with ⟨b, rfl, -⟩ | ⟨rfl, -⟩ <;> simp

theorem syllableChar_prefix {s t : Bytes} {a b : Char} (hs : syllableChar s = some a)
    (ht : syllableChar t = some b) (hp : s <+: t) : s = t := by
  rcases syllableChar_cases hs with ⟨b, rfl, hb, -⟩ | ⟨rfl, -⟩ <;>
    rcases syllableChar_cases ht with ⟨b', rfl, hb', -⟩ | ⟨rfl, -⟩
  · simpa using hp
  · obtain rfl : b = 0xb0 := by simpa using hp
    exact absurd hb (by decide)
  · simp at hp
  · rfl

theorem syllableChar_bytes {s : Bytes} {a : Char} (h : syllableBytes a = some s) :
    syllableChar s = some a := by
  unfold syllableBytes at h
  split at h
  · rename_i ha
    obtain rfl := Option.some.inj h
    have hn : (UInt8.ofNat a.toNat).toNat = a.toNat := UInt8.toNat_ofNat_of_lt' (by
      show a.toNat < 256
      omega)
    have hlt : UInt8.ofNat a.toNat < 0x80 := by
      rw [UInt8.lt_iff_toNat_lt, hn]
      exact ha
    rw [syllableChar, if_pos hlt, hn, Char.ofNat_toNat]
  · split at h
    · rename_i ha
      obtain rfl := Option.some.inj h
      rw [ha]
      rfl
    · cases h

def syllableTable : CodeTable Char where
  maxLength := 2
  char := syllableChar
  bytes := syllableBytes
  fallback := [0x3f]
  length_pos h := (syllableChar_length h).1
  length_le h := (syllableChar_length h).2
  prefix_eq := syllableChar_prefix
  char_bytes := syllableChar_bytes
  char_fallback := ⟨'?', by decide, by decide⟩

/-- A system whose Korean code page follows the table; the other pages reject the flags. -/
def syllablePages : CodePages where
  acp := 949
  multiByteToWideChar codePage _ bytes :=
    if codePage = 949 then
      match syllableTable.read bytes with
      | some cs => if (cs.flatMap units).length ≤ intMax then .ok (cs.flatMap units) else .error 122
      | none => .error errorNoUnicodeTranslation
    else .error errorInvalidFlags
  wideCharToMultiByte codePage _ text :=
    if codePage = 949 then
      if (syllableTable.substitute (scalars text)).length ≤ intMax then
        .ok (syllableTable.substitute (scalars text), ¬ syllableTable.Covers (scalars text))
      else .error 122
    else .error errorInvalidFlags
  systemLabel := latin1 "System default"
  isDBCSLeadByteEx _ b := 0x81 ≤ b ∧ b ≤ 0xfe

theorem syllablePages_reads {bytes : Bytes} {cs : List Char} (h : syllableTable.Reads bytes cs)
    (hlen : (cs.flatMap units).length ≤ intMax) :
    syllablePages.multiByteToWideChar 949 mbErrInvalidChars bytes = .ok (cs.flatMap units) := by
  simp only [syllablePages, if_true, CodeTable.read_iff.mpr h, if_pos hlen]

theorem converts_syllable : Converts syllablePages syllableTable where
  tabled := by
    constructor
    · decide
    · intro bytes text hd
      simp only [syllablePages, if_true] at hd
      split at hd
      · rename_i cs hcs
        split at hd
        · cases hd
          exact ⟨cs, CodeTable.read_iff.1 hcs, rfl, ‹_›⟩
        · cases hd
      · cases hd
    · intro bytes e hd
      simp only [syllablePages, if_true] at hd
      split at hd
      · split at hd
        · cases hd
        · cases hd
          rfl
      · cases hd
        rfl
    · intro cs _ hl
      refine ⟨!decide (syllableTable.Covers cs), ?_, fun _ => by simp⟩
      simp [syllablePages, Unicode.scalars_flatMap_units, hl]
    · intro cs hl
      exact ⟨122, by simp [syllablePages, Unicode.scalars_flatMap_units, Nat.not_le_of_lt hl], rfl⟩
  reads := syllablePages_reads
  latin := by decide
  lead {s c} h := by
    rcases syllableChar_cases h with ⟨b, rfl, hb, -⟩ | ⟨rfl, -⟩
    · refine .inl ⟨b, rfl, ?_⟩
      have hb : b.toNat < 128 := hb
      refine decide_eq_false fun hle => ?_
      have hle : 129 ≤ b.toNat := hle.1
      omega
    · exact .inr ⟨0xb0, 0xa1, rfl, by decide⟩

/-- A file whose syllable lies in two chunks. -/
def syllableFile : SourceFile where
  size := 6
  revision := some "1"
  stream := ⟨[[0x41, 0x41, 0x41, 0x41, 0xb0]], .ok [0xa1]⟩
  current := some "1"

/-- The loop at the end of the file. -/
def syllableRead : Reading where
  original := { encoding := latin1 "CP949" }
  first := false
  readBytes := 6
  file := [0x41, 0x41, 0x41, 0x41, 0xea, 0xb0, 0x80]

theorem large_text_codec_syllable :
    Returns (readStream .unlimited syllablePages (latin1 "CP949")
      (.ok [0x41, 0x41, 0x41, 0x41, 0xb0, 0xa1]) [] {}) syllableRead ∧
    ∀ session, Yields (fun e => Budget.unlimited.Outside e ∨ session.Fails e)
      (saveLargeText .unlimited syllablePages session (fun _ => syllableRead.file)
        ⟨[⟨0, 0, 7⟩], 7⟩ { encoding := latin1 "CP949" })
      (· = [0x41, 0x41, 0x41, 0x41, 0xb0, 0xa1]) := by
  have hall := large_text_codec converts_syllable (.inr (by decide) : latin1 "CP949" = [] ∨ _)
  have hread : Returns (readStream .unlimited syllablePages (latin1 "CP949") (.ok [0xa1])
      [[0x41, 0x41, 0x41, 0x41, 0xb0]] {}) syllableRead := ⟨{}, ⟨0, 2⟩, by decide +kernel⟩
  have hload : Returns (readLargeText .unlimited syllablePages 0 (latin1 "CP949") false (.ok none)
      (.ok syllableFile))
      ⟨{ encoding := latin1 "CP949" }, ⟨[⟨0, 0, 7⟩], 7⟩, syllableRead.file⟩ :=
    ⟨{}, ⟨0, 4⟩, by decide +kernel⟩
  refine ⟨(hall.1 _ _ _ _ (by decide)).1 hread, fun session => ?_⟩
  obtain ⟨last, hlast, hsave⟩ := hall.2 _ _ _ _ _ _ _ rfl hload
  obtain rfl := Except.ok.inj hlast
  exact hsave _ session _ rfl

end Hc.Compare
