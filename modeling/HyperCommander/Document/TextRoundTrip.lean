import HyperCommander.Document.TextCodec

/-!
# What a decoded document is written back as

The strict conversions of a code page follow a character table (`Tabled`); a page that rejects the
strict flags is converted without them and verified.

* `qtEncode_of_qtDecode`: the Unicode encodings write the bytes back, mark included.
* `encodeCodePage_iff_of_decode`: a code page writes the bytes back exactly when they are made of
  the sequences that its table writes.
* `encode_iff_of_decode`: the same for the text of a whole document.
-/

namespace Hc.Document.TextCodec

open Option List Unicode Storage

/-! ### Unicode encodings -/

theorem ofUtf8_spec {bytes : List UInt8} {q : Units} (h : ofUtf8 bytes = some q) :
    toUtf8 q = bytes := by
  obtain ⟨cs, hcs, rfl⟩ := map_eq_some_iff.1 h
  have hs : bytes.toByteArray.utf8Decode?.isSome := by rw [hcs]; rfl
  have he := ByteArray.utf8Encode_get_utf8Decode? (b := bytes.toByteArray) (h := hs)
  simp only [hcs, get_some] at he
  rw [toUtf8, scalars_flatMap_units]
  have hd := congrArg (fun b => b.data.toList) he
  simpa [utf8Encode, utf8] using hd

theorem flatMap_unitsOfBytes {big : Bool} {bytes : List UInt8} (h : bytes.length % 2 = 0) :
    (unitsOfBytes big bytes).flatMap (bytesOfUnit big) = bytes := by
  induction bytes using unitsOfBytes.induct with
  | case1 a b rest ih =>
    have hu : bytesOfUnit big
        (UInt16.ofNat (if big then Bytes.ofBE [a, b] else Bytes.ofLE [a, b])) = [a, b] := by
      cases big with
      | true =>
        have hlt : Bytes.ofBE [a, b] < 65536 := by simpa using Bytes.ofBE_lt [a, b]
        have he : Bytes.be 2 (Bytes.ofBE [a, b]) = [a, b] := Bytes.be_ofBE [a, b]
        rw [bytesOfUnit, if_pos rfl, if_pos rfl, UInt16.toNat_ofNat_of_lt' hlt, he]
      | false =>
        have hlt : Bytes.ofLE [a, b] < 65536 := by simpa using Bytes.ofLE_lt [a, b]
        have he : Bytes.le 2 (Bytes.ofLE [a, b]) = [a, b] := Bytes.le_ofLE [a, b]
        rw [bytesOfUnit, if_neg Bool.false_ne_true, if_neg Bool.false_ne_true,
          UInt16.toNat_ofNat_of_lt' hlt, he]
    have hr : rest.length % 2 = 0 := by
      simp only [length_cons] at h
      omega
    rw [unitsOfBytes, flatMap_cons, hu, ih hr]
    rfl
  | case2 bytes hb =>
    match bytes, hb with
    | [], _ => rfl
    | [a], _ => cases h
    | a :: b :: rest, hb => exact absurd rfl (hb a b rest)

/-- The bytes after the mark that `QStringDecoder` takes off. -/
theorem mark_append_body {kind : Kind} {bytes : List UInt8} :
    (if kind.mark <+: bytes then kind.mark else []) ++
      (if kind.mark <+: bytes then bytes.drop kind.mark.length else bytes) = bytes := by
  by_cases h : kind.mark <+: bytes
  · obtain ⟨rest, rfl⟩ := h
    rw [if_pos (prefix_append _ _), if_pos (prefix_append _ _), drop_left]
  · rw [if_neg h, if_neg h, nil_append]

theorem body_even {kind : Kind} {bytes : List UInt8} (hk : kind ≠ .utf8)
    (h : bytes.length % 2 = 0) :
    (if kind.mark <+: bytes then bytes.drop kind.mark.length else bytes).length % 2 = 0 := by
  have hm : kind.mark.length = 2 := by cases kind <;> first | rfl | exact absurd rfl hk
  split
  · rw [length_drop, hm]
    omega
  · exact h

/-- A Unicode encoding writes back what was decoded. -/
theorem qtEncode_of_qtDecode {kind : Kind} {bytes : List UInt8} {text : Units}
    (h : qtDecode kind bytes = some text) (he : kind = .utf8 ∨ bytes.length % 2 = 0)
    (hp : Paired text) : qtEncode kind (decide (kind.mark <+: bytes)) text = some bytes := by
  have hm := @mark_append_body kind bytes
  cases kind with
  | utf8 =>
    have hb := ofUtf8_spec h
    simp only [qtEncode, if_pos hp, hb, decide_eq_true_eq, hm]
  | utf16le =>
    obtain rfl := some.inj h
    have hb := @body_even .utf16le _ (by decide) (he.resolve_left (by decide))
    simp only [qtEncode, flatMap_unitsOfBytes hb, decide_eq_true_eq, hm]
  | utf16be =>
    obtain rfl := some.inj h
    have hb := @body_even .utf16be _ (by decide) (he.resolve_left (by decide))
    simp only [qtEncode, flatMap_unitsOfBytes hb, decide_eq_true_eq, hm]

/-! ### Code pages -/

/-- The flags of a strict encoding. -/
def strictFlags (codePage : Nat) : Nat :=
  if ruleOf codePage = .substitution then wcNoBestFitChars else wcErrInvalidChars

/-- The strict conversions of the code page follow the table. -/
structure Tabled (p : Platform) (codePage : Nat) (T : CodeTable Char) : Prop where
  rule : ruleOf codePage ≠ .plain
  /-- What is decoded was read from the table. -/
  decode : ∀ {bytes text}, p.multiByteToWideChar codePage mbErrInvalidChars bytes = .ok text →
    ∃ cs, T.Reads bytes cs ∧ cs.flatMap units = text ∧ text.length ≤ intMax
  /-- The strict flags are accepted. -/
  decode_error : ∀ {bytes e}, p.multiByteToWideChar codePage mbErrInvalidChars bytes = .error e →
    flagsRejected e = false
  /-- Characters are written by the table; a substitution is reported. -/
  encode : ∀ {cs}, cs ≠ [] → (T.substitute cs).length ≤ intMax → ∃ used,
    p.wideCharToMultiByte codePage (strictFlags codePage) (cs.flatMap units) =
      .ok (T.substitute cs, used) ∧ (ruleOf codePage = .substitution → (used ↔ ¬ T.Covers cs))
  /-- A result whose length is not an `int` fails. -/
  encode_long : ∀ {cs}, intMax < (T.substitute cs).length → ∃ e,
    p.wideCharToMultiByte codePage (strictFlags codePage) (cs.flatMap units) = .error e ∧
      flagsRejected e = false

/-- Each page that is not converted without flags follows its table or rejects the strict flags. -/
structure Tables (p : Platform) (tables : Nat → Option (CodeTable Char)) : Prop where
  tabled : ∀ {codePage T}, tables codePage = some T → Tabled p codePage T
  rejects : ∀ {codePage bytes}, tables codePage = none → ruleOf codePage ≠ .plain → bytes ≠ [] →
    ∃ e, p.multiByteToWideChar codePage mbErrInvalidChars bytes = .error e ∧ flagsRejected e

variable {p : Platform} {tables : Nat → Option (CodeTable Char)} {bytes : List UInt8}
  {text : Units} {codePage : Nat}

theorem encodeCodePage_of_decodePlain (h : decodePlain p bytes codePage = some text) :
    encodeCodePage p text codePage = .exact bytes := by
  unfold decodePlain at h
  split at h
  · cases h
  · split at h
    · cases h
      assumption
    · cases h

theorem encodeCodePage_nil : encodeCodePage p [] codePage = .exact [] := by
  have hn : ¬ intMax < ([] : Units).length := Nat.not_lt_zero _
  rw [encodeCodePage, if_neg hn]
  split
  · rfl
  · simp [encodeStrict, rawEncode, rawDecode]

/-- What a table page writes for the characters it read. -/
theorem encodeCodePage_tabled {T : CodeTable Char} {cs : List Char} (ht : Tabled p codePage T)
    (hne : cs.flatMap units ≠ []) (hlen : (cs.flatMap units).length ≤ intMax)
    (hb : bytes.length ≤ intMax) (hr : T.Reads bytes cs)
    (hd : p.multiByteToWideChar codePage mbErrInvalidChars bytes = .ok (cs.flatMap units)) :
    encodeCodePage p (cs.flatMap units) codePage = .exact bytes ↔ T.Canonical bytes := by
  have hcs : cs ≠ [] := by rintro rfl; exact hne rfl
  have hbne : bytes ≠ [] := by
    rintro rfl
    cases CodeTable.reads_unique hr .nil
    exact hcs rfl
  rw [← CodeTable.substitute_eq_iff hr, encodeCodePage, if_neg (by omega), if_neg ht.rule]
  have hflags : (if (decide (ruleOf codePage = .substitution)) = true then wcNoBestFitChars
      else wcErrInvalidChars) = strictFlags codePage := by
    simp only [strictFlags, decide_eq_true_eq]
  by_cases hlong : (T.substitute cs).length ≤ intMax
  · obtain ⟨used, he, hu⟩ := ht.encode hcs hlong
    have hraw : rawEncode p (cs.flatMap units) codePage (strictFlags codePage)
        (decide (ruleOf codePage = .substitution)) =
        .ok (T.substitute cs, decide (ruleOf codePage = .substitution) && used) := by
      rw [rawEncode, if_neg hne, he]
      rfl
    simp only [encodeStrict, hflags, hraw]
    constructor
    · intro h
      split at h
      · cases h
      · split at h
        · cases h
        · exact Conversion.exact.inj h
    · intro hs
      have hcov : T.Covers cs :=
        CodeTable.covers_of_canonical hr ((CodeTable.substitute_eq_iff hr).1 hs)
      have hused : ¬ (decide (ruleOf codePage = .substitution) && used) = true := by
        rw [Bool.and_eq_true, decide_eq_true_eq]
        rintro ⟨hsub, hu'⟩
        exact (hu hsub).1 hu' hcov
      have hback : rawDecode p (T.substitute cs) codePage mbErrInvalidChars =
          .ok (cs.flatMap units) := by
        rw [hs, rawDecode, if_neg hbne, hd]
      rw [if_neg hused, if_neg (fun h => h.2.2 hback), hs]
  · obtain ⟨e, he, hf⟩ := ht.encode_long (Nat.lt_of_not_le hlong)
    have hraw : rawEncode p (cs.flatMap units) codePage (strictFlags codePage)
        (decide (ruleOf codePage = .substitution)) = .error e := by
      rw [rawEncode, if_neg hne, he]
      rfl
    simp only [encodeStrict, hflags, hraw, hf]
    constructor
    · intro h
      split at h <;> cases h
    · rintro rfl
      exact absurd hb hlong

/-- A code page writes back exactly what its table writes. -/
theorem encodeCodePage_iff_of_decode (h : Tables p tables)
    (hd : decodeCodePage p bytes codePage = some text) :
    encodeCodePage p text codePage = .exact bytes ↔
      ∀ T, tables codePage = some T → T.Canonical bytes := by
  unfold decodeCodePage at hd
  split at hd
  · cases hd
  rename_i hlen
  have hb : bytes.length ≤ intMax := Nat.le_of_not_lt hlen
  split at hd
  · rename_i hrule
    refine iff_of_true (encodeCodePage_of_decodePlain hd) fun T hT => ?_
    exact absurd hrule (h.tabled hT).rule
  rename_i hrule
  by_cases hbne : bytes = []
  · subst hbne
    obtain rfl := some.inj hd
    refine iff_of_true encodeCodePage_nil fun T _ => ⟨[], ?_, rfl⟩
    exact fun a ha => absurd ha not_mem_nil
  have hraw : rawDecode p bytes codePage mbErrInvalidChars =
      p.multiByteToWideChar codePage mbErrInvalidChars bytes := if_neg hbne
  rw [hraw] at hd
  cases hT : tables codePage with
  | none =>
    obtain ⟨e, he, hf⟩ := h.rejects hT hrule hbne
    simp only [he, hf, if_true] at hd
    exact iff_of_true (encodeCodePage_of_decodePlain hd) nofun
  | some T =>
    have ht := h.tabled hT
    cases hm : p.multiByteToWideChar codePage mbErrInvalidChars bytes with
    | error e =>
      simp only [hm, ht.decode_error hm] at hd
      cases hd
    | ok q =>
      simp only [hm, some.injEq] at hd
      subst hd
      obtain ⟨cs, hr, rfl, hl⟩ := ht.decode hm
      have hne : cs.flatMap units ≠ [] := by
        intro hnil
        cases hr with
        | nil => exact hbne rfl
        | @cons _ a _ cs _ _ =>
          rw [flatMap_cons, append_eq_nil_iff] at hnil
          exact units_ne_nil a hnil.1
      rw [encodeCodePage_tabled ht hne hl hb hr hm]
      exact ⟨fun hc T' hT' => some.inj hT' ▸ hc, fun hall => hall T rfl⟩

/-! ### Names -/

/-- A canonical name stands for itself. -/
theorem canonicalEncodingName_latin1 {n : String} (h : n ∈ encodingNames) :
    canonicalEncodingName p (latin1 n) = latin1 n := by
  simp only [encodingNames, mem_cons, not_mem_nil, or_false] at h
  rcases h with rfl | rfl | rfl | rfl | rfl | rfl | rfl | rfl <;> rfl

theorem canonicalEncodingName_cases (p : Platform) (encoding : Units) :
    canonicalEncodingName p encoding = [] ∨
      ∃ n ∈ encodingNames, canonicalEncodingName p encoding = latin1 n := by
  unfold canonicalEncodingName
  split
  · exact .inl rfl
  cases hn : encodingNames.find? fun n => sameCaseless encoding n with
  | some n => exact .inr ⟨n, mem_of_find?_eq_some hn, rfl⟩
  | none =>
    cases ha : encodingAliases.find? fun a => sameCaseless encoding a.1 with
    | some a =>
      have hall : ∀ b ∈ encodingAliases, b.2 ∈ encodingNames := by decide
      exact .inr ⟨a.2, hall a (mem_of_find?_eq_some ha), rfl⟩
    | none =>
      cases hi : (readEncodings p).find? fun i => encoding = i.2 with
      | some i =>
        have hall : ∀ b ∈ readEncodings p, b.1 ∈ encodingNames := by
          simp [readEncodings, encodingNames]
        exact .inr ⟨i.1, hall i (mem_of_find?_eq_some hi), rfl⟩
      | none => exact .inl rfl

theorem latin1_ne_nil : ∀ n ∈ encodingNames, latin1 n ≠ [] := by decide

/-- A canonical name that no code page has is that of a Unicode encoding. -/
theorem unicode_of_findLegacy {n : String} (h : n ∈ encodingNames)
    (hf : findLegacy (latin1 n) = none) :
    n = "UTF-8" ∨ n = "UTF-16LE" ∨ n = "UTF-16BE" := by
  simp only [encodingNames, mem_cons, not_mem_nil, or_false] at h
  rcases h with rfl | rfl | rfl | rfl | rfl | rfl | rfl | rfl
  · exact .inl rfl
  · exact .inr (.inl rfl)
  · exact .inr (.inr rfl)
  all_goals exact absurd hf (by decide)

/-! ### Documents -/

theorem checkText_ok {r s : DecodedText} (h : checkText r = .ok s) :
    s = r ∧ 0 ∉ r.text ∧ Paired r.text := by
  unfold checkText at h
  split at h
  · cases h
  · rename_i hc
    obtain ⟨h0, hp⟩ := not_or.1 hc
    exact ⟨(Except.ok.inj h).symm, h0, not_not.1 hp⟩

/-- What a text in a legacy encoding is written as. -/
theorem encodeDocumentText_legacy {n : String} {e : LegacyEncoding} {bom : Bool}
    (hn : n ∈ encodingNames) (he : findLegacy (latin1 n) = some e) (h0 : 0 ∉ text)
    (hp : Paired text) :
    encodeDocumentText p text (latin1 n) bom = .ok bytes ↔
      encodeCodePage p text (codePageOf p e) = .exact bytes := by
  have hc : ¬ (¬ Paired text ∨ 0 ∈ text) := not_or.2 ⟨not_not.2 hp, h0⟩
  simp only [encodeDocumentText, if_neg hc, canonicalEncodingName_latin1 hn, he]
  cases encodeCodePage p text (codePageOf p e) with
  | exact b => simp
  | lossy | failed => simp

/-- What a text in a Unicode encoding is written as. -/
theorem encodeDocumentText_unicode {n : String} {bom : Bool} (hn : n ∈ encodingNames)
    (he : findLegacy (latin1 n) = none) (h0 : 0 ∉ text) (hp : Paired text)
    (hq : qtEncode (kindOf (latin1 n)) bom text = some bytes) :
    encodeDocumentText p text (latin1 n) bom = .ok bytes := by
  have hc : ¬ (¬ Paired text ∨ 0 ∈ text) := not_or.2 ⟨not_not.2 hp, h0⟩
  have hu : ¬ (latin1 n ≠ latin1 "UTF-8" ∧ latin1 n ≠ latin1 "UTF-16LE" ∧
      latin1 n ≠ latin1 "UTF-16BE") := by
    rintro ⟨h1, h2, h3⟩
    rcases unicode_of_findLegacy hn he with rfl | rfl | rfl
    · exact h1 rfl
    · exact h2 rfl
    · exact h3 rfl
  simp only [encodeDocumentText, if_neg hc, canonicalEncodingName_latin1 hn, he, if_neg hu, hq]

/-- The mark that a Unicode encoding starts from is its own. -/
theorem startOf_bom {encoding : Units} (hne : encoding ≠ []) {n : String}
    (hn : canonicalEncodingName p encoding = latin1 n)
    (hu : n = "UTF-8" ∨ n = "UTF-16LE" ∨ n = "UTF-16BE") :
    (startOf p bytes encoding).bom = decide ((kindOf (latin1 n)).mark <+: bytes) := by
  simp only [startOf, if_neg hne, hn]
  rcases hu with rfl | rfl | rfl
  · rfl
  · rfl
  · rfl

theorem startOf_encoding {encoding : Units} (hne : encoding ≠ []) :
    (startOf p bytes encoding).encoding = canonicalEncodingName p encoding := by
  rw [startOf, if_neg hne]

/-- The code page that the bytes are read through, if any: the one of the named encoding, or that
of Korean files for malformed UTF-8 without a mark. -/
def pageRead (p : Platform) (bytes : List UInt8) (encoding : Units) : Option Nat :=
  if encoding = [] then
    if (startOf p bytes []).bom = false ∧ ofUtf8 bytes = none then some 949 else none
  else (findLegacy (canonicalEncodingName p encoding)).map (codePageOf p)

/-- If the bytes are read through the table of a code page, then they are made of the sequences
that it writes. -/
def WritesBack (p : Platform) (tables : Nat → Option (CodeTable Char)) (bytes : List UInt8)
    (encoding : Units) : Prop :=
  ∀ codePage T, pageRead p bytes encoding = some codePage → tables codePage = some T →
    T.Canonical bytes

theorem decodeNamed_iff {encoding : Units} {r : DecodedText} (h : Tables p tables)
    (hne : encoding ≠ []) (hd : decodeNamed p bytes encoding = .ok r) :
    encodeDocumentText p r.text r.encoding r.bom = .ok bytes ↔
      ∀ codePage T, (findLegacy (canonicalEncodingName p encoding)).map (codePageOf p) =
        some codePage → tables codePage = some T → T.Canonical bytes := by
  have hs := @startOf_encoding p bytes _ hne
  rcases canonicalEncodingName_cases p encoding with hc | ⟨n, hn, hc⟩
  · simp only [decodeNamed, hs, hc, if_true] at hd
    cases hd
  have hnn : latin1 n ≠ [] := latin1_ne_nil n hn
  simp only [decodeNamed, hs, hc, if_neg hnn] at hd
  rw [hc]
  cases hf : findLegacy (latin1 n) with
  | some e =>
    simp only [hf, decodeLegacy] at hd
    cases ht : decodeCodePage p bytes (codePageOf p e) with
    | none => rw [ht] at hd; cases hd
    | some text =>
      rw [ht] at hd
      obtain ⟨rfl, h0, hp⟩ := checkText_ok hd
      simp only [hs, hc]
      rw [encodeDocumentText_legacy hn hf h0 hp, encodeCodePage_iff_of_decode h ht]
      constructor
      · intro hall codePage T hcp
        obtain rfl := some.inj hcp
        exact hall T
      · exact fun hall T => hall _ T rfl
  | none =>
    have hu := unicode_of_findLegacy hn hf
    simp only [hf] at hd
    split at hd
    · cases hd
    rename_i heven
    cases hq : qtDecode (kindOf (latin1 n)) bytes with
    | none => rw [hq] at hd; cases hd
    | some text =>
      rw [hq] at hd
      obtain ⟨rfl, h0, hp⟩ := checkText_ok hd
      simp only [startOf_bom hne hc hu]
      have he : kindOf (latin1 n) = .utf8 ∨ bytes.length % 2 = 0 := by
        by_cases hk : kindOf (latin1 n) = .utf8
        · exact .inl hk
        · exact .inr (by have := not_and.1 heven hk; omega)
      refine iff_of_true ?_ (fun _ _ hcp => by cases hcp)
      exact encodeDocumentText_unicode hn hf h0 hp (qtEncode_of_qtDecode hq he hp)

/-- The encoding that detection starts from is a Unicode one, UTF-8 without a mark, and the mark is
the one found. -/
theorem startOf_detected (p : Platform) (bytes : List UInt8) :
    ∃ n ∈ encodingNames, findLegacy (latin1 n) = none ∧
      (startOf p bytes []).encoding = latin1 n ∧
      (startOf p bytes []).bom = decide ((kindOf (latin1 n)).mark <+: bytes) ∧
      ((startOf p bytes []).bom = false → kindOf (latin1 n) = .utf8) := by
  by_cases hle : Kind.mark .utf16le <+: bytes
  · refine ⟨"UTF-16LE", by decide, by decide, by simp [startOf, hle], ?_, ?_⟩
    · have hk : kindOf (latin1 "UTF-16LE") = .utf16le := by decide
      simp [startOf, hle, hk]
    · simp [startOf, hle]
  by_cases hbe : Kind.mark .utf16be <+: bytes
  · refine ⟨"UTF-16BE", by decide, by decide, by simp [startOf, hle, hbe], ?_, ?_⟩
    · have hk : kindOf (latin1 "UTF-16BE") = .utf16be := by decide
      simp [startOf, hbe, hk]
    · simp [startOf, hbe]
  · refine ⟨"UTF-8", by decide, by decide, by simp [startOf, hle, hbe], ?_, fun _ => by decide⟩
    have hk : kindOf (latin1 "UTF-8") = .utf8 := by decide
    simp [startOf, hle, hbe, hk]

theorem decodeDetected_iff {r : DecodedText} (h : Tables p tables)
    (hd : decodeDetected p bytes = .ok r) :
    encodeDocumentText p r.text r.encoding r.bom = .ok bytes ↔ WritesBack p tables bytes [] := by
  obtain ⟨n, hn, hf, henc, hbom, hutf8⟩ := startOf_detected p bytes
  simp only [decodeDetected, henc] at hd
  split at hd
  · cases hd
  rename_i heven
  cases hq : qtDecode (kindOf (latin1 n)) bytes with
  | none =>
    have hutf : kindOf (latin1 n) = .utf8 := by
      cases hk : kindOf (latin1 n) with
      | utf8 => rfl
      | utf16le => rw [hk] at hq; cases hq
      | utf16be => rw [hk] at hq; cases hq
    rw [hq] at hd
    simp only at hd
    split at hd
    · cases hd
    rename_i hb
    have hb : (startOf p bytes []).bom = false := Bool.eq_false_iff.2 hb
    have hmark : ¬ Kind.mark .utf8 <+: bytes := by
      rw [hbom, hutf, decide_eq_false_iff_not] at hb
      exact hb
    have hbad : ofUtf8 bytes = none := by
      rw [hutf] at hq
      simpa only [qtDecode, if_neg hmark] using hq
    have hpage : pageRead p bytes [] = some 949 := by
      rw [pageRead, if_pos rfl, if_pos ⟨hb, hbad⟩]
    cases hdn : decodeNamed p bytes (latin1 "CP949") with
    | error e => rw [hdn] at hd; cases hd
    | ok f =>
      rw [hdn] at hd
      obtain rfl := Except.ok.inj hd
      have hiff := decodeNamed_iff h (by decide) hdn
      have hcanon : (findLegacy (canonicalEncodingName p (latin1 "CP949"))).map (codePageOf p) =
          some 949 := by
        rw [canonicalEncodingName_latin1 (by decide)]
        rfl
      rw [hcanon] at hiff
      rw [WritesBack, hpage]
      exact hiff
  | some text =>
    rw [hq] at hd
    obtain ⟨rfl, h0, hp⟩ := checkText_ok hd
    have he : kindOf (latin1 n) = .utf8 ∨ bytes.length % 2 = 0 := by
      by_cases hk : kindOf (latin1 n) = .utf8
      · exact .inl hk
      · exact .inr (by have := not_and.1 heven hk; omega)
    simp only [hbom]
    refine iff_of_true
      (encodeDocumentText_unicode hn hf h0 hp (qtEncode_of_qtDecode hq he hp)) ?_
    intro codePage T hcp
    exfalso
    rw [pageRead, if_pos rfl] at hcp
    split at hcp
    · rename_i hbad
      obtain ⟨hb, hbad⟩ := hbad
      have hk := hutf8 hb
      rw [hbom, decide_eq_false_iff_not, hk] at hb
      rw [hk] at hq
      simp only [qtDecode, if_neg hb, hbad] at hq
      cases hq
    · cases hcp

/-- A decoded document is written back as the same bytes exactly when they are made of the
sequences that their code page writes. -/
theorem encode_iff_of_decode {encoding : Units} {r : DecodedText} (h : Tables p tables)
    (hd : decodeDocumentText p bytes encoding = .ok r) :
    encodeDocumentText p r.text r.encoding r.bom = .ok bytes ↔
      WritesBack p tables bytes encoding := by
  unfold decodeDocumentText at hd
  split at hd
  · rename_i hnil
    subst hnil
    exact decodeDetected_iff h hd
  · rename_i hne
    rw [WritesBack, pageRead, if_neg hne]
    exact decodeNamed_iff h hne hd

/-! ### Sample -/

/-- ASCII and the three sequences for the full-width not sign of the Japanese code page. -/
def notSignChar : List UInt8 → Option Char
  | [b] => if b < 0x80 then some (Char.ofNat b.toNat) else none
  | [b, c] =>
    if [b, c] ∈ [[0x81, 0xca], [0xee, 0xf9], [0xfa, 0x54]] then some (Char.ofNat 0xffe2) else none
  | _ => none

def notSignBytes (c : Char) : Option (List UInt8) :=
  if c.toNat < 0x80 then some [UInt8.ofNat c.toNat]
  else if c = Char.ofNat 0xffe2 then some [0x81, 0xca]
  else none

theorem notSignChar_cases {s : List UInt8} {a : Char} (h : notSignChar s = some a) :
    (∃ b, s = [b] ∧ b < 0x80 ∧ a = Char.ofNat b.toNat) ∨
      ∃ b c, s = [b, c] ∧ 0x80 ≤ b ∧ a = Char.ofNat 0xffe2 := by
  unfold notSignChar at h
  split at h
  · split at h
    · cases h
      exact .inl ⟨_, rfl, ‹_›, rfl⟩
    · cases h
  · split at h
    · rename_i b c hm
      cases h
      refine .inr ⟨b, c, rfl, ?_, rfl⟩
      simp only [mem_cons, cons.injEq, not_mem_nil, or_false] at hm
      rcases hm with ⟨rfl, -⟩ | ⟨rfl, -⟩ | ⟨rfl, -⟩ <;> decide
    · cases h
  · cases h

def notSignTable : CodeTable Char where
  maxLength := 2
  char := notSignChar
  bytes := notSignBytes
  fallback := [0x3f]
  length_pos h := by
    rcases notSignChar_cases h with ⟨b, rfl, -⟩ | ⟨b, c, rfl, -⟩ <;> simp
  length_le h := by
    rcases notSignChar_cases h with ⟨b, rfl, -⟩ | ⟨b, c, rfl, -⟩ <;> simp
  prefix_eq hs ht hp := by
    rcases notSignChar_cases hs with ⟨b, rfl, hb, -⟩ | ⟨b, c, rfl, hb, -⟩ <;>
      rcases notSignChar_cases ht with ⟨b', rfl, hb', -⟩ | ⟨b', c', rfl, hb', -⟩
    · simpa using hp
    · obtain rfl : b = b' := by simpa using hp
      exact absurd hb (by rw [UInt8.not_lt]; exact hb')
    · simp at hp
    · simpa using hp
  char_bytes {s a} h := by
    unfold notSignBytes at h
    split at h
    · rename_i ha
      obtain rfl := Option.some.inj h
      have hn : (UInt8.ofNat a.toNat).toNat = a.toNat := UInt8.toNat_ofNat_of_lt' (by
        show a.toNat < 256
        omega)
      have hlt : UInt8.ofNat a.toNat < 0x80 := by
        rw [UInt8.lt_iff_toNat_lt, hn]
        exact ha
      rw [notSignChar, if_pos hlt, hn, Char.ofNat_toNat]
    · split at h
      · rename_i ha
        obtain rfl := Option.some.inj h
        rw [ha]
        rfl
      · cases h
  char_fallback := ⟨'?', by decide, by decide⟩

/-- A system whose Japanese code page follows the table; the other pages reject the flags. -/
def notSignPlatform : Platform where
  acp := 932
  multiByteToWideChar codePage _ bytes :=
    if codePage = 932 then
      match notSignTable.read bytes with
      | some cs => if (cs.flatMap units).length ≤ intMax then .ok (cs.flatMap units) else .error 122
      | none => .error errorNoUnicodeTranslation
    else .error errorInvalidFlags
  wideCharToMultiByte codePage _ text :=
    if codePage = 932 then
      if (notSignTable.substitute (scalars text)).length ≤ intMax then
        .ok (notSignTable.substitute (scalars text), ¬ notSignTable.Covers (scalars text))
      else .error 122
    else .error errorInvalidFlags
  systemLabel := latin1 "System default"

def notSignTables (codePage : Nat) : Option (CodeTable Char) :=
  if codePage = 932 then some notSignTable else none

theorem tables_notSign : Tables notSignPlatform notSignTables where
  tabled {codePage T} h := by
    obtain ⟨rfl, rfl⟩ : codePage = 932 ∧ notSignTable = T := by
      simpa [notSignTables] using h
    constructor
    · decide
    · intro bytes text hd
      simp only [notSignPlatform, if_true] at hd
      split at hd
      · rename_i cs hcs
        split at hd
        · cases hd
          exact ⟨cs, CodeTable.read_iff.1 hcs, rfl, ‹_›⟩
        · cases hd
      · cases hd
    · intro bytes e hd
      simp only [notSignPlatform, if_true] at hd
      split at hd
      · split at hd
        · cases hd
        · cases hd
          rfl
      · cases hd
        rfl
    · intro cs _ hl
      refine ⟨!decide (notSignTable.Covers cs), ?_, fun _ => by simp⟩
      simp [notSignPlatform, scalars_flatMap_units, hl]
    · intro cs hl
      exact ⟨122, by simp [notSignPlatform, scalars_flatMap_units, Nat.not_le_of_lt hl], rfl⟩
  rejects {codePage bytes} h _ _ := by
    have hne : codePage ≠ 932 := by
      rintro rfl
      cases h
    exact ⟨errorInvalidFlags, by simp [notSignPlatform, hne], rfl⟩

/-- A not sign in its usual form is written back. -/
theorem encode_iff_of_decode_sample :
    encodeDocumentText notSignPlatform [0x41, 0xffe2] (latin1 "Shift_JIS") false =
        .ok [0x41, 0x81, 0xca] ↔
      WritesBack notSignPlatform notSignTables [0x41, 0x81, 0xca] (latin1 "Shift_JIS") :=
  encode_iff_of_decode (r := ⟨[0x41, 0xffe2], latin1 "Shift_JIS", false, .explicit⟩) tables_notSign
    (by decide +kernel)

/-- A not sign in another form is opened and saved as different bytes. -/
theorem alternative_not_written_back :
    Tables notSignPlatform notSignTables ∧
      decodeDocumentText notSignPlatform [0xee, 0xf9] (latin1 "Shift_JIS") =
        .ok ⟨[0xffe2], latin1 "Shift_JIS", false, .explicit⟩ ∧
      encodeDocumentText notSignPlatform [0xffe2] (latin1 "Shift_JIS") false =
        .ok [0x81, 0xca] :=
  ⟨tables_notSign, by decide +kernel, by decide +kernel⟩

end Hc.Document.TextCodec
