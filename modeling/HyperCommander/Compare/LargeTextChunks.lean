import HyperCommander.Compare.LargeTextChars
import HyperCommander.Compare.LargeTextEdit

/-!
# Reading a large text in chunks

`Accepted` says without any chunk what `ReadLargeText` makes of a file: the mark, and the characters
behind it. Wherever the stream is cut, the loop gives this result or none (`readStream_accepted`),
and where there is one only the outside keeps it from coming (`readStream_progress`).
-/

namespace Hc.Compare

open List Unicode Words Document.TextCodec

/-! ## The supported encodings -/

/-- The encodings of large texts. -/
def supported : List Units :=
  [latin1 "UTF-8", latin1 "UTF-16LE", latin1 "UTF-16BE", latin1 "CP949"]

/-- The bytes of a character in an encoding. -/
def wordOf (T : CodeTable Char) (encoding : Units) : Char → Bytes :=
  if encoding = latin1 "UTF-8" then String.utf8EncodeChar
  else if encoding = latin1 "UTF-16LE" then utf16Char false
  else if encoding = latin1 "UTF-16BE" then utf16Char true
  else T.write

/-- The characters that a text in an encoding may have. -/
def allowedOf (T : CodeTable Char) (encoding : Units) (c : Char) : Prop :=
  c ≠ '\x00' ∧ (encoding = latin1 "CP949" → (T.bytes c).isSome)

theorem coded_supported {p : CodePages} {T : CodeTable Char} (h : Converts p T) {encoding : Units}
    (henc : encoding ∈ supported) :
    Coded p encoding (wordOf T encoding) (allowedOf T encoding) := by
  have hplain : ∀ {e : Units}, e ≠ latin1 "CP949" → allowedOf T e = fun c => c ≠ '\x00' := by
    intro e he
    funext c
    exact propext ⟨fun hc => hc.1, fun hc => ⟨hc, fun h => absurd h he⟩⟩
  simp only [supported, mem_cons, not_mem_nil, or_false] at henc
  rcases henc with rfl | rfl | rfl | rfl
  · rw [hplain (by decide)]
    exact coded_utf8 p
  · rw [hplain (by decide)]
    exact coded_utf16 p false
  · rw [hplain (by decide)]
    exact coded_utf16 p true
  · have hk : allowedOf T (latin1 "CP949") = fun c => c ≠ '\x00' ∧ (T.bytes c).isSome := by
      funext c
      exact propext ⟨fun hc => ⟨hc.1, hc.2 rfl⟩, fun hc => ⟨hc.1, fun _ => hc.2⟩⟩
    rw [hk]
    exact coded_cp949 h

/-! ## One chunk -/

theorem length_units_le (c : Char) : (units c).length ≤ (String.utf8EncodeChar c).length := by
  have hlen : (units c).length ≤ 2 := by
    unfold units
    split <;> simp
  rw [String.length_utf8EncodeChar]
  by_cases h : c.toNat < 0x10000
  · rw [units, if_pos h]
    exact Char.utf8Size_pos c
  · have h4 : c.utf8Size = 4 := by
      rw [Char.utf8Size_eq_four_iff, UInt32.lt_iff_toNat_lt]
      exact Nat.lt_of_lt_of_le (by decide : 0xffff < 0x10000) (Nat.le_of_not_lt h)
    omega

theorem length_flatMap_units_le (cs : List Char) :
    (cs.flatMap units).length ≤ (Unicode.utf8 cs).length := by
  induction cs with
  | nil => exact Nat.le_refl 0
  | cons c cs ih =>
    rw [flatMap_cons, Utf8.utf8_cons, length_append, length_append]
    exact Nat.add_le_add (length_units_le c) ih

section Chunks

variable {p : CodePages} {encoding : Units} {word : Char → Bytes} {allowed : Char → Prop}
  {s : Reading} {limits : Budget} {asked : Units} {eof : Bool} {chunk : Bytes}

theorem Spelled.append {a b : Bytes} {cs ds : List Char} (h : Spelled word allowed a cs)
    (h' : Spelled word allowed b ds) : Spelled word allowed (a ++ b) (cs ++ ds) := by
  refine ⟨fun c hc => ?_, ?_⟩
  · rcases mem_append.mp hc with hc | hc
    · exact h.1 c hc
    · exact h'.1 c hc
  · rw [flatMap_append, h.2, h'.2]

/-- The turn of the loop behind the mark. -/
theorem readChunk_eq (hs : s.first = false) : readChunk p asked chunk eof s = (do
    throwIf (s.readBytes + chunk.length > largeTextMaximum) "LargeTextSizeLimit"
    throwIf (chunk = [] ∧ eof = false) "ReadMadeNoProgress"
    readMore p eof { s with
      readBytes := s.readBytes + chunk.length
      pending := s.pending ++ chunk }) := by
  unfold readChunk
  simp only [hs, Bool.false_eq_true, false_and, if_false, pure_bind]

/-- What one turn decodes. -/
theorem readMore_yields (h : Coded p encoding word allowed)
    (henc : s.original.encoding = encoding) :
    Yields (fun _ => True) (readMore p eof s) fun s' => ∃ n cs,
      n = completeBytes p s.pending encoding eof ∧ Spelled word allowed (s.pending.take n) cs ∧
      (s.file ++ Unicode.utf8 cs).length ≤ largeTextMaximum ∧
      s' = { s with file := s.file ++ Unicode.utf8 cs, pending := s.pending.drop n } := by
  unfold readMore
  rw [henc]
  refine h.decode_yields.bind fun text ht => ?_
  obtain ⟨cs, hcs, rfl⟩ := ht
  refine appendFile_yields.bind fun file hf => .pure ⟨_, cs, rfl, hcs, ?_⟩
  rw [toUtf8_flatMap_units] at hf
  rw [← hf.1]
  exact ⟨hf.2, rfl⟩

/-- Where the rest of the stream is made of characters, a turn decodes some of them. -/
theorem readMore_progress (h : Coded p encoding word allowed)
    (henc : s.original.encoding = encoding) {rest : Bytes} {cs : List Char}
    (hcs : Spelled word allowed (s.pending ++ rest) cs) (heof : eof = true → rest = [])
    (hpend : s.pending.length ≤ largeTextMaximum)
    (hfile : (s.file ++ Unicode.utf8 cs).length ≤ largeTextMaximum) :
    Yields limits.Outside (readMore p eof s) fun s' => ∃ ds es, cs = ds ++ es ∧
      Spelled word allowed (s'.pending ++ rest) es ∧ (eof = true → es = []) ∧
      s' = { s with
        file := s.file ++ Unicode.utf8 ds
        pending := s.pending.drop (completeBytes p s.pending encoding eof) } := by
  obtain ⟨ds, es, rfl, hds, hes, hend⟩ := h.split hcs.2 heof
  have hspell : Spelled word allowed (s.pending.take (completeBytes p s.pending encoding eof)) ds :=
    ⟨fun c hc => hcs.1 c (mem_append_left _ hc), hds⟩
  rw [Utf8.utf8_append, length_append, length_append] at hfile
  have hmax : largeTextMaximum + 2 < intMax := by decide
  have hdec := h.decode_spelled hspell (by
    have hfront := length_frontOf_le encoding
    rw [length_append, length_take]
    omega) (by
    have := length_flatMap_units_le ds
    omega)
  unfold readMore
  dsimp only
  rw [henc, hdec, pure_bind, toUtf8_flatMap_units, appendFile, throwIf,
    if_neg (by omega), pure_bind,
    pure_bind]
  exact .pure ⟨ds, es, rfl, ⟨fun c hc => hcs.1 c (mem_append_right _ hc), hes⟩, hend, rfl⟩

/-! ## The loop behind the mark -/

/-- The loop when the rest of the stream is done: the characters `cs` were added. -/
def Reading.finish (s : Reading) (bytes : Bytes) (cs : List Char) : Reading :=
  { s with
    pending := [], readBytes := s.readBytes + bytes.length, file := s.file ++ Unicode.utf8 cs }

/-- The characters of the rest of the stream; they and the bytes keep the limit. -/
structure Rest (word : Char → Bytes) (allowed : Char → Prop) (s : Reading) (bytes : Bytes)
    (cs : List Char) : Prop where
  spelled : Spelled word allowed (s.pending ++ bytes) cs
  file : (s.file ++ Unicode.utf8 cs).length ≤ largeTextMaximum
  readBytes : s.readBytes + bytes.length ≤ largeTextMaximum

/-- What the loop has decoded when it ends. -/
theorem more_yields (h : Coded p encoding word allowed) {last : Except Storage.Error Bytes}
    {chunks : List Bytes} (henc : s.original.encoding = encoding) (hs : s.first = false) :
    Yields (fun _ => True) (readMore p false s >>= readStream limits p asked last chunks) fun out =>
      ∃ b cs, last = .ok b ∧ Rest word allowed s (chunks.flatten ++ b) cs ∧
        out = s.finish (chunks.flatten ++ b) cs := by
  induction chunks generalizing s with
  | nil =>
    refine (readMore_yields h henc).bind fun s' hs' => check_any.skip fun _ => ?_
    obtain ⟨n, cs, -, hcs, -, rfl⟩ := hs'
    cases last with
    | error e => exact .fail trivial
    | ok b =>
      refine (.pure rfl : Yields _ (pure b) (· = b)).bind fun b' hb => ?_
      subst hb
      have hs' : ({ s with
          file := s.file ++ Unicode.utf8 cs, pending := s.pending.drop n } : Reading).first =
          false := hs
      rw [readChunk_eq hs']
      have hmore := @readMore_yields p encoding word allowed { s with
        file := s.file ++ Unicode.utf8 cs
        pending := s.pending.drop n ++ b'
        readBytes := s.readBytes + b'.length } true h henc
      refine throwIf_past fun hsize => ?_
      refine throwIf_past fun _ => hmore.weaken fun out ho => ?_
      obtain ⟨m, ds, hm, hds, hfile, rfl⟩ := ho
      have hm : m = (s.pending.drop n ++ b').length := hm.trans (if_pos (.inl rfl))
      have hspell := hcs.append hds
      rw [hm, take_length, ← append_assoc, take_append_drop] at hspell
      rw [append_assoc, ← Utf8.utf8_append] at hfile
      refine ⟨b', cs ++ ds, rfl, ⟨hspell, hfile, Nat.le_of_not_lt hsize⟩, ?_⟩
      rw [hm]
      simp only [drop_length, append_assoc, ← Utf8.utf8_append]
      rfl
  | cons c rest ih =>
    refine (readMore_yields h henc).bind fun s' hs' => check_any.skip fun _ => ?_
    obtain ⟨n, cs, -, hcs, -, rfl⟩ := hs'
    have hs' : ({ s with
        file := s.file ++ Unicode.utf8 cs, pending := s.pending.drop n } : Reading).first =
        false := hs
    rw [readChunk_eq hs', bind_assoc]
    refine throwIf_past fun _ => ?_
    rw [bind_assoc]
    refine throwIf_past fun _ => ?_
    refine (@ih { s with
      file := s.file ++ Unicode.utf8 cs
      pending := s.pending.drop n ++ c
      readBytes := s.readBytes + c.length } henc hs).weaken fun out ho => ?_
    obtain ⟨b, ds, hb, ⟨hds, hfile, hread⟩, rfl⟩ := ho
    have hspell := hcs.append hds
    have hbytes : s.pending.take n ++ (s.pending.drop n ++ c ++ (rest.flatten ++ b)) =
        s.pending ++ ((c :: rest).flatten ++ b) := by
      rw [flatten_cons, append_assoc (s.pending.drop n), ← append_assoc,
        take_append_drop, ← append_assoc c]
    rw [hbytes] at hspell
    rw [append_assoc, ← Utf8.utf8_append] at hfile
    refine ⟨b, cs ++ ds, hb, ⟨hspell, hfile, ?_⟩, ?_⟩
    · simp only [flatten_cons, length_append] at hread ⊢
      omega
    · simp only [Reading.finish, flatten_cons, length_append, append_assoc,
        ← Utf8.utf8_append, Nat.add_assoc]

/-- Only the outside keeps the loop from decoding the characters of the stream. -/
theorem more_progress (h : Coded p encoding word allowed) {chunks : List Bytes} {b : Bytes}
    {cs : List Char} (henc : s.original.encoding = encoding) (hs : s.first = false)
    (hne : ∀ c ∈ chunks, c ≠ []) (hcs : Rest word allowed s (chunks.flatten ++ b) cs)
    (hpend : s.pending.length ≤ s.readBytes) :
    Yields limits.Outside
      (readMore p false s >>= readStream limits p asked (.ok b) chunks) fun out =>
      out = s.finish (chunks.flatten ++ b) cs := by
  obtain ⟨hspell, hfile, hread⟩ := hcs
  induction chunks generalizing s cs with
  | nil =>
    rw [flatten_nil, nil_append] at hspell hread
    refine (readMore_progress h henc hspell (fun he => by cases he) (by omega) hfile).bind
      fun s' hs' => ?_
    obtain ⟨ds, es, rfl, hes, -, rfl⟩ := hs'
    generalize hn : completeBytes p s.pending encoding false = n at hes
    refine (Budget.check_yields fun _ he => he).skip fun _ => ?_
    have hfirst : ({ s with
        file := s.file ++ Unicode.utf8 ds, pending := s.pending.drop n } : Reading).first =
      false := hs
    rw [Utf8.utf8_append, ← append_assoc] at hfile
    have hlast := @readMore_progress p encoding word allowed { s with
      file := s.file ++ Unicode.utf8 ds
      pending := s.pending.drop n ++ b
      readBytes := s.readBytes + b.length } limits true h henc [] es (by rwa [append_nil])
      (fun _ => rfl) (by rw [length_append, length_drop]; omega) hfile
    rw [require, pure_bind, readChunk_eq hfirst, throwIf, if_neg (by dsimp only; omega), pure_bind,
      throwIf, if_neg (fun hc => by cases hc.2), pure_bind]
    refine hlast.weaken fun out ho => ?_
    obtain ⟨ds', es', hde, -, hnil, rfl⟩ := ho
    rw [hnil rfl, append_nil] at hde
    subst hde
    have hall : completeBytes p (s.pending.drop n ++ b) encoding true =
      (s.pending.drop n ++ b).length := if_pos (.inl rfl)
    rw [hall, drop_length, Reading.finish, flatten_nil, nil_append, Utf8.utf8_append,
      append_assoc]
  | cons c rest ih =>
    rw [flatten_cons, append_assoc] at hspell hread
    rw [length_append, length_append] at hread
    refine (readMore_progress h henc hspell (fun he => by cases he) (by omega) hfile).bind
      fun s' hs' => ?_
    obtain ⟨ds, es, rfl, hes, -, rfl⟩ := hs'
    generalize hn : completeBytes p s.pending encoding false = n at hes
    refine (Budget.check_yields fun _ he => he).skip fun _ => ?_
    have hfirst : ({ s with
        file := s.file ++ Unicode.utf8 ds, pending := s.pending.drop n } : Reading).first =
      false := hs
    rw [Utf8.utf8_append, ← append_assoc] at hfile
    rw [← append_assoc] at hes
    have hc := hne c mem_cons_self
    rw [readChunk_eq hfirst, throwIf, if_neg (by dsimp only; omega), pure_bind, throwIf,
      if_neg (fun hcc => hc hcc.1), pure_bind]
    refine (@ih { s with
      file := s.file ++ Unicode.utf8 ds
      pending := s.pending.drop n ++ c
      readBytes := s.readBytes + c.length } es henc hs
      (fun d hd => hne d (mem_cons_of_mem _ hd))
      (by rw [length_append, length_drop]; dsimp only; omega) hes hfile
      (by rw [length_append]; dsimp only; omega)).weaken fun out ho => ?_
    rw [ho]
    simp only [Reading.finish, flatten_cons, length_append, append_assoc,
      Utf8.utf8_append, Nat.add_assoc]

end Chunks

/-! ## The mark -/

/-- The encoding of a file: the one that is asked for, or the one that its first bytes tell. -/
def usedOf (asked : Units) (bytes : Bytes) : Units := if asked = [] then (detect bytes).1 else asked

/-- The loop behind the mark of a file that begins with `bytes`. -/
def marked (asked : Units) (bytes : Bytes) (readBytes : Nat) : Reading where
  original := { encoding := usedOf asked bytes, bom := (detect bytes).2 ≠ 0 }
  pending := bytes.drop (detect bytes).2
  first := false
  readBytes := readBytes

/-- The bytes of a file are a mark of its encoding, if any, and the characters. -/
structure Accepted (T : CodeTable Char) (asked : Units) (bytes : Bytes)
    (cs : List Char) : Prop where
  mark : ¬ ((detect bytes).2 ≠ 0 ∧ (detect bytes).1 ≠ usedOf asked bytes)
  spelled : Spelled (wordOf T (usedOf asked bytes)) (allowedOf T (usedOf asked bytes))
    (bytes.drop (detect bytes).2) cs
  file : (Unicode.utf8 cs).length ≤ largeTextMaximum
  size : bytes.length ≤ largeTextMaximum

/-- What the loop has at the end of an accepted file. -/
def accepted (asked : Units) (bytes : Bytes) (cs : List Char) : Reading where
  original := { encoding := usedOf asked bytes, bom := (detect bytes).2 ≠ 0 }
  first := false
  readBytes := bytes.length
  file := Unicode.utf8 cs

theorem detect_append {q r : Bytes} (h : 4 ≤ q.length) : detect (q ++ r) = detect q := by
  obtain _ | ⟨a, _ | ⟨b, _ | ⟨c, q⟩⟩⟩ := q
  · cases h
  · simp at h
  · simp at h
  · simp [detect, cons_prefix_cons]

theorem detect_le (q : Bytes) : (detect q).2 ≤ q.length := by
  have hlen : ∀ {m : Bytes}, m <+: q → m.length ≤ q.length := fun h => h.length_le
  unfold detect
  split
  · exact hlen ‹_›
  split
  · exact hlen ‹_›
  split
  · exact hlen ‹_›
  · exact Nat.zero_le _

section Mark

variable {p : CodePages} {T : CodeTable Char} {limits : Budget} {asked : Units} {pre chunk : Bytes}
  {eof : Bool}

theorem usedOf_supported (hasked : asked = [] ∨ asked ∈ supported) (q : Bytes) :
    usedOf asked q ∈ supported := by
  unfold usedOf
  split
  · unfold detect
    split
    · decide
    split
    · decide
    · exact mem_cons_self
  · exact hasked.resolve_left ‹_›

theorem usedOf_append {q r : Bytes} (h : 4 ≤ q.length) :
    usedOf asked (q ++ r) = usedOf asked q := by
  rw [usedOf, usedOf, detect_append h]

theorem readChunk_first (h : 4 ≤ (pre ++ chunk).length ∨ eof = true) :
    readChunk p asked chunk eof { pending := pre, readBytes := pre.length } = (do
      throwIf (pre.length + chunk.length > largeTextMaximum) "LargeTextSizeLimit"
      throwIf (chunk = [] ∧ eof = false) "ReadMadeNoProgress"
      throwIf ((detect (pre ++ chunk)).2 ≠ 0 ∧
        (detect (pre ++ chunk)).1 ≠ usedOf asked (pre ++ chunk))
        "LargeTextBomEncodingMismatch"
      readMore p eof (marked asked (pre ++ chunk) (pre.length + chunk.length))) := by
  unfold readChunk readFirst
  simp only [true_and, h, if_true, bind_assoc, pure_bind, Bool.false_eq_true, if_false]
  rfl

theorem readChunk_wait (h : ¬ 4 ≤ (pre ++ chunk).length) :
    readChunk p asked chunk false { pending := pre, readBytes := pre.length } = (do
      throwIf (pre.length + chunk.length > largeTextMaximum) "LargeTextSizeLimit"
      throwIf (chunk = [] ∧ false = false) "ReadMadeNoProgress"
      pure { pending := pre ++ chunk, readBytes := (pre ++ chunk).length }) := by
  rw [length_append] at h
  unfold readChunk
  simp only [true_and, h, Bool.false_eq_true, or_false, if_false, pure_bind, if_true,
    length_append]

/-- Behind the first four bytes the mark is that of the file. -/
theorem rest_marked {q r : Bytes} {n : Nat} {cs : List Char} (hq : 4 ≤ q.length ∨ r = [])
    (hn : n = q.length) (hmark : ¬ ((detect q).2 ≠ 0 ∧ (detect q).1 ≠ usedOf asked q)) :
    Rest (wordOf T (usedOf asked q)) (allowedOf T (usedOf asked q)) (marked asked q n) r cs ↔
      Accepted T asked (q ++ r) cs := by
  have hd : detect (q ++ r) = detect q := by
    rcases hq with hq | rfl
    · exact detect_append hq
    · rw [append_nil]
  have hu : usedOf asked (q ++ r) = usedOf asked q := by rw [usedOf, usedOf, hd]
  have hdrop : (q ++ r).drop (detect q).2 = q.drop (detect q).2 ++ r :=
    drop_append_of_le_length (detect_le q)
  constructor
  · rintro ⟨hspell, hfile, hread⟩
    refine ⟨by rwa [hd, hu], ?_, hfile, ?_⟩
    · rw [hd, hu, hdrop]
      exact hspell
    · rw [length_append, ← hn]
      exact hread
  · rintro ⟨-, hspell, hfile, hread⟩
    rw [hd, hu, hdrop] at hspell
    rw [length_append, ← hn] at hread
    exact ⟨hspell, hfile, hread⟩

theorem marked_finish {q r : Bytes} {n : Nat} {cs : List Char} (hq : 4 ≤ q.length ∨ r = [])
    (hn : n = q.length) : (marked asked q n).finish r cs = accepted asked (q ++ r) cs := by
  have hd : detect (q ++ r) = detect q := by
    rcases hq with hq | rfl
    · exact detect_append hq
    · rw [append_nil]
  have hu : usedOf asked (q ++ r) = usedOf asked q := by rw [usedOf, usedOf, hd]
  rw [accepted, hd, hu, length_append, ← hn]
  rfl

/-- Wherever the stream is cut, the loop ends with the result for the whole file. -/
theorem readStream_accepted (h : Converts p T) (hasked : asked = [] ∨ asked ∈ supported)
    {last : Except Storage.Error Bytes} {chunks : List Bytes} :
    Yields (fun _ => True)
      (readStream limits p asked last chunks { pending := pre, readBytes := pre.length }) fun out =>
      ∃ b cs, last = .ok b ∧ Accepted T asked (pre ++ (chunks.flatten ++ b)) cs ∧
        out = accepted asked (pre ++ (chunks.flatten ++ b)) cs := by
  induction chunks generalizing pre with
  | nil =>
    refine check_any.skip fun _ => ?_
    cases last with
    | error e => exact .fail trivial
    | ok b =>
      refine (.pure rfl : Yields _ (pure b) (· = b)).bind fun b' hb => ?_
      subst hb
      have hcoded := coded_supported h (usedOf_supported hasked (pre ++ b'))
      have hn : pre.length + b'.length = (pre ++ b').length := length_append.symm
      rw [readChunk_first (.inr rfl)]
      refine throwIf_past fun hsize => ?_
      refine throwIf_past fun _ => ?_
      refine throwIf_past fun hmark => ?_
      refine (readMore_yields hcoded rfl).weaken fun out ho => ?_
      obtain ⟨m, cs, hm, hcs, hfile, rfl⟩ := ho
      have hm : m = (marked asked (pre ++ b') (pre.length + b'.length)).pending.length :=
        hm.trans (if_pos (.inl rfl))
      rw [hm, take_length] at hcs
      have hrest := (@rest_marked T asked (pre ++ b') [] _ cs (.inr rfl) hn hmark).mp
        ⟨by rwa [append_nil], hfile, Nat.le_of_not_lt hsize⟩
      have hfin := @marked_finish asked (pre ++ b') [] _ cs (.inr rfl) hn
      rw [append_nil] at hrest hfin
      refine ⟨b', cs, rfl, hrest, ?_⟩
      rw [flatten_nil, nil_append, ← hfin, hm, drop_length]
      rfl
  | cons c rest ih =>
    refine check_any.skip fun _ => ?_
    have hassoc : ∀ b, pre ++ ((c :: rest).flatten ++ b) = pre ++ c ++ (rest.flatten ++ b) := by
      intro b
      rw [flatten_cons, append_assoc, append_assoc]
    simp only [hassoc]
    by_cases h4 : 4 ≤ (pre ++ c).length
    · have hcoded := coded_supported h (usedOf_supported hasked (pre ++ c))
      have hn : pre.length + c.length = (pre ++ c).length := length_append.symm
      rw [readChunk_first (.inl h4), bind_assoc]
      refine throwIf_past fun _ => ?_
      rw [bind_assoc]
      refine throwIf_past fun _ => ?_
      rw [bind_assoc]
      refine throwIf_past fun hmark => ?_
      refine (more_yields hcoded rfl rfl).weaken fun out ho => ?_
      obtain ⟨b, cs, hb, hrest, rfl⟩ := ho
      exact ⟨b, cs, hb, (rest_marked (.inl h4) hn hmark).mp hrest, marked_finish (.inl h4) hn⟩
    · rw [readChunk_wait h4, bind_assoc]
      refine throwIf_past fun _ => ?_
      rw [bind_assoc]
      refine throwIf_past fun _ => ?_
      rw [pure_bind]
      exact ih

/-- Only the outside keeps the loop from the result of an accepted file. -/
theorem readStream_progress (h : Converts p T) (hasked : asked = [] ∨ asked ∈ supported)
    {chunks : List Bytes} {b : Bytes} {cs : List Char} (hne : ∀ c ∈ chunks, c ≠ [])
    (hacc : Accepted T asked (pre ++ (chunks.flatten ++ b)) cs) :
    Yields limits.Outside
      (readStream limits p asked (.ok b) chunks { pending := pre, readBytes := pre.length })
        fun out =>
      out = accepted asked (pre ++ (chunks.flatten ++ b)) cs := by
  induction chunks generalizing pre with
  | nil =>
    rw [flatten_nil, nil_append] at hacc ⊢
    refine (Budget.check_yields fun _ he => he).skip fun _ => ?_
    have hcoded := coded_supported h (usedOf_supported hasked (pre ++ b))
    have hn : pre.length + b.length = (pre ++ b).length := length_append.symm
    have hsize := hacc.size
    have hrest := (@rest_marked T asked (pre ++ b) [] _ cs (.inr rfl) hn hacc.mark).mpr
      (by rwa [append_nil])
    have hfin := @marked_finish asked (pre ++ b) [] _ cs (.inr rfl) hn
    rw [append_nil] at hfin
    rw [require, pure_bind, readChunk_first (.inr rfl), throwIf, if_neg (by omega),
      pure_bind, throwIf,
      if_neg (fun hc => by cases hc.2), pure_bind, throwIf, if_neg hacc.mark, pure_bind]
    have hpend : (marked asked (pre ++ b) (pre.length + b.length)).pending.length ≤
        largeTextMaximum := by
      rw [marked, length_drop]
      omega
    refine (readMore_progress hcoded rfl hrest.spelled (fun _ => rfl) hpend hrest.file).weaken
      fun out ho => ?_
    obtain ⟨ds, es, hde, -, hnil, rfl⟩ := ho
    rw [hnil rfl, append_nil] at hde
    subst hde
    rw [← hfin, completeBytes, if_pos (.inl rfl), drop_length]
    rfl
  | cons c rest ih =>
    have hassoc : pre ++ ((c :: rest).flatten ++ b) = pre ++ c ++ (rest.flatten ++ b) := by
      rw [flatten_cons, append_assoc, append_assoc]
    have hc := hne c mem_cons_self
    have hne := fun d hd => hne d (mem_cons_of_mem _ hd)
    rw [hassoc] at hacc ⊢
    have hsize := hacc.size
    rw [length_append, length_append] at hsize
    refine (Budget.check_yields fun _ he => he).skip fun _ => ?_
    by_cases h4 : 4 ≤ (pre ++ c).length
    · have hcoded := coded_supported h (usedOf_supported hasked (pre ++ c))
      have hn : pre.length + c.length = (pre ++ c).length := length_append.symm
      have hmark := hacc.mark
      rw [usedOf_append h4, detect_append h4] at hmark
      rw [readChunk_first (.inl h4), throwIf, if_neg (by omega), pure_bind, throwIf,
        if_neg (fun hcc => hc hcc.1), pure_bind, throwIf, if_neg hmark, pure_bind,
        ← marked_finish (.inl h4) hn]
      have hpend : (marked asked (pre ++ c) (pre.length + c.length)).pending.length ≤
          pre.length + c.length := by
        rw [marked, length_drop]
        omega
      exact more_progress hcoded rfl rfl hne ((rest_marked (.inl h4) hn hmark).mpr hacc) hpend
    · rw [readChunk_wait h4, throwIf, if_neg (by omega), pure_bind, throwIf,
        if_neg (fun hcc => hc hcc.1), pure_bind, pure_bind]
      exact ih hne hacc

end Mark

end Hc.Compare
