import HyperCommander.Compare.CompleteBytes
import HyperCommander.Document.TextRoundTrip

/-!
# Large texts as characters

`Coded` says what the codec makes of an encoding: every character has its bytes, a text is written
as those of its characters, and these are read as the text. It holds of the Unicode encodings
(`coded_utf8`, `coded_utf16`) and of the Korean code page as far as the operating system converts it
character by character (`Converts`, `coded_cp949`).

* `Coded.decode_spelled`, `Coded.decode_yields`: `decode` in the terms of the characters.
-/

namespace Hc.Compare

open List Unicode Words Document.TextCodec

/-! ## Characters and units -/

theorem zero_mem_units {c : Char} (h : 0 ∈ units c) : c = '\x00' := by
  have hlt : c.toNat < 0x110000 := by
    have hv : c.toNat < 0xd800 ∨ 0xdfff < c.toNat ∧ c.toNat < 0x110000 := c.valid
    omega
  have hzero : ∀ {n : Nat}, n < 0x10000 → 0 = n.toUInt16 → n = 0 := by
    intro n hn h0
    rw [← toNat_toUInt16 hn, ← h0]
    rfl
  unfold units at h
  split at h
  · rename_i hc
    have := hzero hc (mem_singleton.mp h)
    exact Char.toNat_inj.mp this
  · simp only [mem_cons, not_mem_nil, or_false] at h
    rcases h with h | h
    · have := hzero (by omega) h
      omega
    · have := hzero (by omega) h
      omega

theorem zero_not_mem_flatMap_units {cs : List Char} (h : ∀ c ∈ cs, c ≠ '\x00') :
    0 ∉ cs.flatMap units := by
  intro h0
  obtain ⟨c, hc, h0⟩ := mem_flatMap.mp h0
  exact h c hc (zero_mem_units h0)

theorem ne_zero_of_mem_scalars {text : Units} (h : 0 ∉ text) : ∀ c ∈ scalars text, c ≠ '\x00' := by
  rintro c hc rfl
  exact h (zero_mem_scalars hc rfl)

theorem paired_flatMap_units (cs : List Char) : Paired (cs.flatMap units) := by
  rw [Paired, scalars_flatMap_units]

theorem toUtf8_flatMap_units (cs : List Char) : toUtf8 (cs.flatMap units) = Unicode.utf8 cs := by
  rw [toUtf8, scalars_flatMap_units]

theorem ofUtf8_utf8 (cs : List Char) : ofUtf8 (Unicode.utf8 cs) = some (cs.flatMap units) := by
  have h : (Unicode.utf8 cs).toByteArray.utf8Decode? = some cs.toArray := utf8Decode?_utf8Encode
  rw [ofUtf8, h]
  rfl

theorem unitsOfBytes_flatMap (big : Bool) (text : Units) :
    unitsOfBytes big (text.flatMap (bytesOfUnit big)) = text := by
  induction text with
  | nil => rfl
  | cons u text ih =>
    have hlt : u.toNat < 256 ^ 2 := u.toNat_lt
    obtain ⟨x, y, hxy, -⟩ := bytesOfUnit_pair big u
    have hu : UInt16.ofNat (if big then Bytes.ofBE [x, y] else Bytes.ofLE [x, y]) = u := by
      cases big with
      | true =>
        rw [if_pos rfl, ← hxy]
        exact (congrArg UInt16.ofNat (Bytes.ofBE_be_of_lt hlt)).trans UInt16.ofNat_toNat
      | false =>
        rw [if_neg Bool.false_ne_true, ← hxy]
        exact (congrArg UInt16.ofNat (Bytes.ofLE_le_of_lt hlt)).trans UInt16.ofNat_toNat
    rw [flatMap_cons, hxy]
    show UInt16.ofNat _ :: unitsOfBytes big (text.flatMap (bytesOfUnit big)) = _
    rw [hu, ih]

/-! ## Encodings -/

/-- What the codec makes of an encoding. -/
structure Coded (p : CodePages) (encoding : Units) (word : Char → Bytes) (allowed : Char → Prop) :
    Prop where
  front : word 'X' = frontOf encoding
  allowed_front : allowed 'X'
  ne_zero : ∀ c, allowed c → c ≠ '\x00'
  /-- Only `X` has the bytes that are put in front. -/
  starts : ∀ {cs : List Char} {bytes}, (∀ c ∈ cs, allowed c) →
    cs.flatMap word = frontOf encoding ++ bytes →
    ∃ ds, cs = 'X' :: ds
  /-- A text is written as the bytes of its characters. -/
  encode_ok : ∀ {cs : List Char}, (∀ c ∈ cs, allowed c) → (cs.flatMap word).length ≤ intMax →
    (cs.flatMap units).length ≤ intMax →
    encodeDocumentText p.toPlatform (cs.flatMap units) encoding false = .ok (cs.flatMap word)
  /-- Nothing else is written. -/
  encode_inv : ∀ {text bytes}, encodeDocumentText p.toPlatform text encoding false = .ok bytes →
    ∃ cs : List Char, (∀ c ∈ cs, allowed c) ∧ cs.flatMap units = text ∧ cs.flatMap word = bytes
  /-- The bytes of characters are read as them. -/
  decode_ok : ∀ {cs : List Char}, (∀ c ∈ cs, allowed c) →
    (frontOf encoding ++ cs.flatMap word).length ≤ intMax →
    (cs.flatMap units).length < intMax → ∃ r,
    decodeDocumentText p.toPlatform (frontOf encoding ++ cs.flatMap word) encoding = .ok r ∧
      r.text = ('X' :: cs).flatMap units
  valid : encoding = latin1 "UTF-8" → word = String.utf8EncodeChar
  holdsBack : HoldsBack word fun bytes => completeBytes p bytes encoding false

section Coded

variable {p : CodePages} {encoding : Units} {word : Char → Bytes} {allowed : Char → Prop}

/-- The characters of the stream. -/
def Spelled (word : Char → Bytes) (allowed : Char → Prop) (bytes : Bytes) (cs : List Char) : Prop :=
  (∀ c ∈ cs, allowed c) ∧ cs.flatMap word = bytes

/-- What is decoded are the characters of the bytes. -/
theorem Coded.decode_yields (h : Coded p encoding word allowed) {bytes : Bytes} :
    Yields (fun _ => True) (decode p bytes encoding) fun text =>
      ∃ cs, Spelled word allowed bytes cs ∧ text = cs.flatMap units := by
  refine throwIf_past fun _ => .past fun decoded => ?_
  cases he : encodeDocumentText p.toPlatform decoded.text encoding false with
  | error e => exact .fail trivial
  | ok roundTrip =>
    refine (.pure rfl : Yields _ (pure roundTrip) (· = roundTrip)).bind fun r hr => ?_
    subst hr
    refine throwIf_past fun hback => .pure ?_
    obtain ⟨cs, hall, htext, hword⟩ := h.encode_inv he
    rw [not_not.mp hback] at hword
    obtain ⟨ds, rfl⟩ := h.starts hall hword
    refine ⟨ds, ⟨fun c hc => hall c (mem_cons_of_mem _ hc), ?_⟩, ?_⟩
    · rw [flatMap_cons, h.front] at hword
      exact append_cancel_left hword
    · rw [← htext, flatMap_cons]
      rfl

/-- `completeBytes` cuts the stream between two characters, and behind the last one at the end. -/
theorem Coded.split (h : Coded p encoding word allowed) {cs : List Char} {bytes rest : Bytes}
    {final : Bool} (hcs : cs.flatMap word = bytes ++ rest) (hfinal : final = true → rest = []) :
    ∃ ds es, cs = ds ++ es ∧ ds.flatMap word = bytes.take (completeBytes p bytes encoding final) ∧
      es.flatMap word = bytes.drop (completeBytes p bytes encoding final) ++ rest ∧
      (final = true → es = []) := by
  cases final with
  | false =>
    obtain ⟨ds, es, hde, hds, hes⟩ := h.holdsBack.split hcs
    exact ⟨ds, es, hde, hds, hes, nofun⟩
  | true =>
    obtain rfl := hfinal rfl
    have hall : completeBytes p bytes encoding true = bytes.length := if_pos (.inl rfl)
    refine ⟨cs, [], (append_nil cs).symm, ?_, ?_, fun _ => rfl⟩
    · rw [hall, take_length, hcs, append_nil]
    · rw [hall, drop_length]
      rfl

theorem length_frontOf_le (encoding : Units) : (frontOf encoding).length ≤ 2 := by
  unfold frontOf
  split
  · decide
  · split <;> decide

/-- Bytes of characters are decoded. -/
theorem Coded.decode_spelled (h : Coded p encoding word allowed) {bytes : Bytes} {cs : List Char}
    (hs : Spelled word allowed bytes cs) (hb : (frontOf encoding ++ bytes).length ≤ intMax)
    (ht : (cs.flatMap units).length < intMax) :
    decode p bytes encoding = pure (cs.flatMap units) := by
  obtain ⟨hall, rfl⟩ := hs
  obtain ⟨r, hd, hr⟩ := h.decode_ok hall hb ht
  have hX : ∀ c ∈ 'X' :: cs, allowed c := forall_mem_cons.mpr ⟨h.allowed_front, hall⟩
  have hw : ('X' :: cs).flatMap word = frontOf encoding ++ cs.flatMap word := by
    rw [flatMap_cons, h.front]
  have hlen : (('X' :: cs).flatMap units).length ≤ intMax := by
    rw [flatMap_cons, length_append]
    have : (units 'X').length = 1 := rfl
    omega
  have he := h.encode_ok hX (hw ▸ hb) hlen
  rw [← hr, hw] at he
  have hvalid : ¬ (encoding = latin1 "UTF-8" ∧ ofUtf8 (cs.flatMap word) = none) := by
    rintro ⟨henc, hn⟩
    have hutf : cs.flatMap word = Unicode.utf8 cs := by
      rw [h.valid henc]
      rfl
    rw [hutf, ofUtf8_utf8] at hn
    cases hn
  simp only [decode, throwIf, if_neg hvalid, hd, require, pure_bind, he, ne_eq, not_true_eq_false,
    if_false]
  rw [hr, flatMap_cons]
  rfl

end Coded

/-! ## The Unicode encodings -/

section Unicode

variable {p : CodePages} {text : Units} {bytes : Bytes} {n : String}

/-- What is written in a Unicode encoding has paired surrogates and no zero. -/
theorem encode_unicode_inv (hn : n ∈ encodingNames) (hf : findLegacy (latin1 n) = none)
    (h : encodeDocumentText p.toPlatform text (latin1 n) false = .ok bytes) :
    Paired text ∧ 0 ∉ text ∧ qtEncode (kindOf (latin1 n)) false text = some bytes := by
  unfold encodeDocumentText at h
  split at h
  · cases h
  rename_i hc
  obtain ⟨hp, h0⟩ := not_or.mp hc
  dsimp only at h
  rw [canonicalEncodingName_latin1 hn, hf] at h
  dsimp only at h
  split at h
  · cases h
  cases hq : qtEncode (kindOf (latin1 n)) false text with
  | none =>
    rw [hq] at h
    cases h
  | some out =>
    rw [hq] at h
    exact ⟨not_not.mp hp, h0, congrArg some (Except.ok.inj h)⟩

/-- Bytes that a Unicode encoding reads. -/
theorem decode_unicode_ok (hn : n ∈ encodingNames) (hf : findLegacy (latin1 n) = none)
    (hev : kindOf (latin1 n) = .utf8 ∨ bytes.length % 2 = 0)
    (hq : qtDecode (kindOf (latin1 n)) bytes = some text) (h0 : 0 ∉ text) (hp : Paired text) :
    ∃ r, decodeDocumentText p.toPlatform bytes (latin1 n) = .ok r ∧ r.text = text := by
  have hne := latin1_ne_nil n hn
  have henc := @startOf_encoding p.toPlatform bytes (latin1 n) hne
  rw [canonicalEncodingName_latin1 hn] at henc
  have hodd : ¬ (kindOf (latin1 n) ≠ .utf8 ∧ bytes.length % 2 = 1) := by
    rintro ⟨hk, hodd⟩
    rcases hev with h | h
    · exact hk h
    · omega
  refine ⟨{ startOf p.toPlatform bytes (latin1 n) with text := text }, ?_, rfl⟩
  rw [decodeDocumentText, if_neg hne, decodeNamed]
  simp only [henc, if_neg hne, hf, if_neg hodd, hq]
  rw [checkText, if_neg (not_or.mpr ⟨h0, not_not.mpr hp⟩)]

theorem coded_utf8 (p : CodePages) :
    Coded p (latin1 "UTF-8") String.utf8EncodeChar (· ≠ '\x00') where
  front := rfl
  allowed_front := by decide
  ne_zero _ h := h
  starts {cs bytes} _ h := by
    cases cs with
    | nil => cases h
    | cons c cs =>
      obtain ⟨lead, tail, hc, -, -, hw⟩ := Utf8.utf8EncodeChar_shape c
      rw [flatMap_cons, hc] at h
      obtain ⟨rfl, -⟩ := cons.inj h
      have htail : tail = [] := length_eq_zero_iff.mp (Nat.succ.inj hw)
      rw [htail] at hc
      have hX : Unicode.utf8 [c] = Unicode.utf8 ['X'] := by
        rw [Unicode.utf8, Unicode.utf8, flatMap_singleton, flatMap_singleton, hc]
        rfl
      obtain rfl := singleton_inj.mp (utf8_injective hX)
      exact ⟨cs, rfl⟩
  encode_ok {cs} hall _ _ := by
    refine encodeDocumentText_unicode (by decide) (by decide) (zero_not_mem_flatMap_units hall)
      (paired_flatMap_units cs) ?_
    show qtEncode .utf8 false _ = _
    rw [qtEncode]
    simp only [if_pos (paired_flatMap_units cs), toUtf8_flatMap_units]
    rfl
  encode_inv {text bytes} h := by
    obtain ⟨hp, h0, hq⟩ := encode_unicode_inv (by decide) (by decide) h
    have hq : qtEncode .utf8 false text = some bytes := hq
    rw [qtEncode] at hq
    simp only [if_pos hp] at hq
    exact ⟨scalars text, ne_zero_of_mem_scalars h0, hp, Option.some.inj hq⟩
  decode_ok {cs} hall _ _ := by
    have hX : ∀ c ∈ 'X' :: cs, c ≠ '\x00' := forall_mem_cons.mpr ⟨by decide, hall⟩
    refine decode_unicode_ok (by decide) (by decide) (.inl rfl) ?_ (zero_not_mem_flatMap_units hX)
      (paired_flatMap_units _)
    exact ofUtf8_utf8 ('X' :: cs)
  valid _ := rfl
  holdsBack := completeUtf8_holdsBack.congr fun s hs => by
    rw [completeBytes, if_neg (by simp [hs]), if_neg (by decide), if_neg (by decide)]

/-- The name of UTF-16 in one of the byte orders. -/
def utf16Name (big : Bool) : String := if big then "UTF-16BE" else "UTF-16LE"

theorem utf16Name_mem (big : Bool) : utf16Name big ∈ encodingNames := by cases big <;> decide

theorem utf16Name_findLegacy (big : Bool) : findLegacy (latin1 (utf16Name big)) = none := by
  cases big <;> decide

theorem bytesOfUnit_injective {big : Bool} {u v : UInt16}
    (h : bytesOfUnit big u = bytesOfUnit big v) :
    u = v := by
  obtain ⟨x, y, hxy, hu⟩ := bytesOfUnit_pair big u
  obtain ⟨x', y', hxy', hv⟩ := bytesOfUnit_pair big v
  rw [hxy, hxy'] at h
  obtain ⟨rfl, htail⟩ := cons.inj h
  obtain ⟨rfl, -⟩ := cons.inj htail
  exact UInt16.toNat_inj.mp (hu.symm.trans hv)

theorem frontOf_utf16 (big : Bool) : frontOf (latin1 (utf16Name big)) = bytesOfUnit big 0x58 := by
  cases big <;> rfl

theorem qtEncode_utf16 (big : Bool) (text : Units) :
    qtEncode (kindOf (latin1 (utf16Name big))) false text =
      some (text.flatMap (bytesOfUnit big)) := by
  cases big <;> rfl

theorem coded_utf16 (p : CodePages) (big : Bool) :
    Coded p (latin1 (utf16Name big)) (utf16Char big) (· ≠ '\x00') where
  front := by cases big <;> rfl
  allowed_front := by decide
  ne_zero _ h := h
  starts {cs bytes} _ h := by
    rw [flatMap_utf16Char, frontOf_utf16] at h
    cases ht : cs.flatMap units with
    | nil =>
      rw [ht] at h
      have := congrArg length h
      rw [length_append, length_bytesOfUnit] at this
      simp at this
      omega
    | cons u text =>
      rw [ht, flatMap_cons] at h
      have hlen : (bytesOfUnit big u).length = (bytesOfUnit big 0x58).length := by
        rw [length_bytesOfUnit, length_bytesOfUnit]
      obtain rfl := bytesOfUnit_injective (append_inj h hlen).1
      refine ⟨scalars text, ?_⟩
      rw [← scalars_flatMap_units cs, ht]
      exact scalars_units_append 'X' text
  encode_ok {cs} hall _ _ := by
    refine encodeDocumentText_unicode (utf16Name_mem big) (utf16Name_findLegacy big)
      (zero_not_mem_flatMap_units hall) (paired_flatMap_units cs) ?_
    rw [qtEncode_utf16, flatMap_utf16Char]
  encode_inv {text bytes} h := by
    obtain ⟨hp, h0, hq⟩ := encode_unicode_inv (utf16Name_mem big) (utf16Name_findLegacy big) h
    rw [qtEncode_utf16] at hq
    refine ⟨scalars text, ne_zero_of_mem_scalars h0, hp, ?_⟩
    rw [flatMap_utf16Char, hp]
    exact Option.some.inj hq
  decode_ok {cs} hall _ _ := by
    have hX : ∀ c ∈ 'X' :: cs, c ≠ '\x00' := forall_mem_cons.mpr ⟨by decide, hall⟩
    have hbytes : frontOf (latin1 (utf16Name big)) ++ cs.flatMap (utf16Char big) =
        (('X' :: cs).flatMap units).flatMap (bytesOfUnit big) := by
      rw [frontOf_utf16, flatMap_utf16Char, flatMap_cons, flatMap_append,
        show units 'X' = [0x58] from rfl, flatMap_singleton]
    rw [hbytes]
    refine decode_unicode_ok (utf16Name_mem big) (utf16Name_findLegacy big) (.inr ?_) ?_
      (zero_not_mem_flatMap_units hX) (paired_flatMap_units _)
    · rw [← flatMap_utf16Char]
      exact even_length_flatMap_utf16Char big _
    · have hread := unitsOfBytes_flatMap big (('X' :: cs).flatMap units)
      cases big
      · have hmark : ¬ Kind.mark .utf16le <+:
            (('X' :: cs).flatMap units).flatMap (bytesOfUnit false) :=
          fun h => absurd (cons_prefix_cons.mp h).1 (by decide)
        show some (unitsOfBytes false (if Kind.mark .utf16le <+: _ then _ else _)) = _
        rw [if_neg hmark, hread]
      · have hmark : ¬ Kind.mark .utf16be <+:
            (('X' :: cs).flatMap units).flatMap (bytesOfUnit true) :=
          fun h => absurd (cons_prefix_cons.mp h).1 (by decide)
        show some (unitsOfBytes true (if Kind.mark .utf16be <+: _ then _ else _)) = _
        rw [if_neg hmark, hread]
  valid h := by cases big <;> exact absurd h (by decide)
  holdsBack := (completeUtf16_holdsBack big).congr fun s hs => by
    rw [completeBytes, if_neg (by simp [hs])]
    cases big
    · rw [if_pos (.inl rfl)]
      rfl
    · rw [if_pos (.inr rfl)]
      rfl

end Unicode

/-! ## The Korean code page -/

/-- The conversions of the Korean code page follow a table of characters, in which `X` is itself and
the sequences are told by their first byte. -/
structure Converts (p : CodePages) (T : CodeTable Char) : Prop where
  tabled : Tabled p.toPlatform 949 T
  /-- Sequences of the table are read. -/
  reads : ∀ {bytes cs}, T.Reads bytes cs → (cs.flatMap units).length ≤ intMax →
    p.multiByteToWideChar 949 mbErrInvalidChars bytes = .ok (cs.flatMap units)
  latin : T.bytes 'X' = some [0x58]
  lead : ∀ {s c}, T.char s = some c → LeadBytes (p.isDBCSLeadByteEx 949) s

section Korean

variable {p : CodePages} {T : CodeTable Char} {cs : List Char} {text : Units} {bytes : Bytes}

theorem raw_encode (h : Converts p T) (hne : cs.flatMap units ≠ [])
    (hlen : (T.substitute cs).length ≤ intMax) : ∃ used,
    rawEncode p.toPlatform (cs.flatMap units) 949 wcNoBestFitChars true =
      .ok (T.substitute cs, used) ∧ (used = true ↔ ¬ T.Covers cs) := by
  have hcs : cs ≠ [] := by
    rintro rfl
    exact hne rfl
  obtain ⟨used, he, hu⟩ := h.tabled.encode hcs hlen
  refine ⟨used, ?_, hu rfl⟩
  have he : p.wideCharToMultiByte 949 wcNoBestFitChars (cs.flatMap units) =
      .ok (T.substitute cs, used) := he
  rw [rawEncode, if_neg hne, he]
  rfl

theorem encodeStrict_ok {text : Units} {used : Bool}
    (h : rawEncode p.toPlatform text 949 wcNoBestFitChars true = .ok (bytes, used)) :
    encodeStrict p.toPlatform text 949 = if used then .lossy else .exact bytes := by
  have hrule : ruleOf 949 = .substitution := rfl
  unfold encodeStrict
  simp only [hrule, decide_true, if_true, h, reduceCtorEq, false_and, if_false]

theorem encodeStrict_error {text : Units} {e : Nat}
    (h : rawEncode p.toPlatform text 949 wcNoBestFitChars true = .error e)
    (hf : flagsRejected e = false) : encodeStrict p.toPlatform text 949 ≠ .exact bytes := by
  have hrule : ruleOf 949 = .substitution := rfl
  unfold encodeStrict
  simp only [hrule, decide_true, if_true, h, hf, Bool.false_eq_true, if_false]
  intro he
  split at he <;> cases he

/-- The code page writes the characters that the table covers. -/
theorem encode_korean (h : Converts p T) (hlen : (T.substitute cs).length ≤ intMax)
    (ht : (cs.flatMap units).length ≤ intMax) (hcov : T.Covers cs) :
    encodeCodePage p.toPlatform (cs.flatMap units) 949 = .exact (T.substitute cs) := by
  by_cases hne : cs.flatMap units = []
  · have hcs : cs = [] := by
      cases cs with
      | nil => rfl
      | cons c cs =>
        rw [flatMap_cons, append_eq_nil_iff] at hne
        exact absurd hne.1 (units_ne_nil c)
    subst hcs
    exact encodeCodePage_nil
  obtain ⟨used, he, hu⟩ := raw_encode h hne hlen
  have hused : used = false := Bool.eq_false_iff.mpr fun hu' => hu.mp hu' hcov
  rw [encodeCodePage, if_neg (Nat.not_lt_of_le ht), if_neg h.tabled.rule, encodeStrict_ok he, hused]
  rfl

/-- It writes nothing else. -/
theorem encode_korean_inv (h : Converts p T)
    (he : encodeCodePage p.toPlatform (cs.flatMap units) 949 = .exact bytes) :
    T.Covers cs ∧ T.substitute cs = bytes := by
  by_cases hcs : cs = []
  · subst hcs
    rw [flatMap_nil, encodeCodePage_nil] at he
    exact ⟨fun a ha => (not_mem_nil ha).elim, Conversion.exact.inj he⟩
  have hne : cs.flatMap units ≠ [] := by
    obtain ⟨c, cs, rfl⟩ := exists_cons_of_ne_nil hcs
    rw [flatMap_cons]
    exact append_ne_nil_of_left_ne_nil (units_ne_nil c) _
  unfold encodeCodePage at he
  split at he
  · cases he
  rw [if_neg h.tabled.rule] at he
  by_cases hlen : (T.substitute cs).length ≤ intMax
  · obtain ⟨used, hr, hu⟩ := raw_encode h hne hlen
    rw [encodeStrict_ok hr] at he
    cases used with
    | true => cases he
    | false =>
      refine ⟨?_, Conversion.exact.inj he⟩
      by_contra hnot
      cases hu.mpr hnot
  · obtain ⟨e, hr, hf⟩ := h.tabled.encode_long (Nat.lt_of_not_le hlen)
    have hr : rawEncode p.toPlatform (cs.flatMap units) 949 wcNoBestFitChars true = .error e := by
      have hr : p.wideCharToMultiByte 949 wcNoBestFitChars (cs.flatMap units) = .error e := hr
      rw [rawEncode, if_neg hne, hr]
      rfl
    exact absurd he (encodeStrict_error hr hf)

theorem leadBytes_write (h : Converts p T) (c : Char) :
    LeadBytes (p.isDBCSLeadByteEx 949) (T.write c) := by
  obtain ⟨d, hd⟩ := T.exists_char_write c
  exact h.lead hd

theorem coded_cp949 (h : Converts p T) :
    Coded p (latin1 "CP949") T.write fun c => c ≠ '\x00' ∧ (T.bytes c).isSome where
  front := by
    rw [CodeTable.write, h.latin]
    rfl
  allowed_front := ⟨by decide, by rw [h.latin]; rfl⟩
  ne_zero _ hc := hc.1
  starts {cs bytes} hall hcs := by
    have hX := T.char_bytes h.latin
    cases cs with
    | nil => cases hcs
    | cons c cs =>
      obtain ⟨s, hs⟩ := Option.isSome_iff_exists.mp (hall c mem_cons_self).2
      rw [flatMap_cons, CodeTable.write, hs] at hcs
      have hc := T.char_bytes hs
      obtain rfl := CodeTable.front_unique hc hX hcs
      rw [hX] at hc
      obtain rfl := Option.some.inj hc
      exact ⟨cs, rfl⟩
  encode_ok {cs} hall hb ht := by
    refine (encodeDocumentText_legacy (by decide) rfl
      (zero_not_mem_flatMap_units fun c hc => (hall c hc).1) (paired_flatMap_units cs)).mpr ?_
    exact encode_korean h hb ht fun c hc => (hall c hc).2
  encode_inv {text bytes} he := by
    have hp : Paired text ∧ 0 ∉ text := by
      unfold encodeDocumentText at he
      split at he
      · cases he
      · rename_i hc
        obtain ⟨hp, h0⟩ := not_or.mp hc
        exact ⟨not_not.mp hp, h0⟩
    have hc := (encodeDocumentText_legacy (by decide) rfl hp.2 hp.1).mp he
    have hp' : (scalars text).flatMap units = text := hp.1
    rw [← hp'] at hc
    obtain ⟨hcov, hsub⟩ := encode_korean_inv h hc
    exact ⟨scalars text, fun c hc => ⟨ne_zero_of_mem_scalars hp.2 c hc, hcov c hc⟩, hp', hsub⟩
  decode_ok {cs} hall hb ht := by
    have hX : ∀ c ∈ 'X' :: cs, c ≠ '\x00' ∧ (T.bytes c).isSome :=
      forall_mem_cons.mpr ⟨⟨by decide, by rw [h.latin]; rfl⟩, hall⟩
    have hbytes : frontOf (latin1 "CP949") ++ cs.flatMap T.write = T.substitute ('X' :: cs) := by
      rw [CodeTable.substitute, flatMap_cons, CodeTable.write, h.latin]
      rfl
    have hlen : (('X' :: cs).flatMap units).length ≤ intMax := by
      rw [flatMap_cons, length_append]
      have : (units 'X').length = 1 := rfl
      omega
    have hread := h.reads (CodeTable.reads_substitute fun c hc => (hX c hc).2) hlen
    rw [hbytes] at hb ⊢
    have hraw : decodeCodePage p.toPlatform (T.substitute ('X' :: cs)) 949 =
        some (('X' :: cs).flatMap units) := by
      rw [decodeCodePage, if_neg (Nat.not_lt_of_le hb), if_neg h.tabled.rule, rawDecode,
        if_neg, hread]
      rw [← hbytes]
      exact cons_ne_nil _ _
    have henc :=
      @startOf_encoding p.toPlatform (T.substitute ('X' :: cs)) (latin1 "CP949") (by decide)
    rw [@canonicalEncodingName_latin1 p.toPlatform "CP949" (by decide)] at henc
    refine ⟨{ startOf p.toPlatform (T.substitute ('X' :: cs)) (latin1 "CP949") with
      text := ('X' :: cs).flatMap units }, ?_, rfl⟩
    rw [decodeDocumentText, if_neg (by decide), decodeNamed]
    have hf : findLegacy (latin1 "CP949") = some ⟨latin1 "CP949", 949, "cp949"⟩ := rfl
    have hpage : codePageOf p.toPlatform ⟨latin1 "CP949", 949, "cp949"⟩ = 949 := rfl
    simp only [henc, if_neg (by decide : latin1 "CP949" ≠ []), hf, decodeLegacy, hpage, hraw]
    rw [checkText, if_neg (not_or.mpr ⟨zero_not_mem_flatMap_units fun c hc => (hX c hc).1,
      not_not.mpr (paired_flatMap_units _)⟩)]
  valid he := absurd he (by decide)
  holdsBack := (completeDbcs_holdsBack (leadBytes_write h)).congr fun s hs => by
    rw [completeBytes, if_neg (by simp [hs]), if_neg (by decide), if_pos rfl]

end Korean

end Hc.Compare
