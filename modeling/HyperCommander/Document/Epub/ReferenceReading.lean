import HyperCommander.Document.Epub.Markup
import Mathlib.Data.List.TakeWhile

/-!
# Names, strings and escapes of style sheets (`commonLibs/document/epub/epubEditStructure.cpp`)

The readers give a value and the text behind it. `QUrl` and the tables of Unicode are parameters.

* `escaped_local`, `nameFrom_local`, `quotedFrom_local`, `urlFrom_local`: what a reader takes does
  not depend on the text behind it, as long as that begins alike.
-/

namespace Hc.Document.Epub

open Option List Unicode

/-- A unit that `QUrl` leaves in a fully encoded path or fragment. -/
def urlUnit (c : UInt16) : Prop := 0x21 ≤ c ∧ c ≤ 0x7e ∧ c ≠ 0x22 ∧ c ≠ 0x5c

/-- What the rewriting asks of Qt. -/
structure ReferenceQt where
  /-- `isSpace()` of a unit above 127. -/
  spaceAbove : UInt16 → Bool
  /-- `QChar::toLower()` of a unit above 127. -/
  lowerAbove : UInt16 → UInt16
  /-- `QString::toLower()`. -/
  toLower : Units → Units
  toLower_url : toLower (lit "url") = lit "url"
  /-- `toString(FullyEncoded)` of a URL with this path and fragment. -/
  encoded : (path fragment : Units) → Units
  urlUnit_of_mem : ∀ path fragment, ∀ c ∈ encoded path fragment, urlUnit c

/-! ### Units -/

def isSpace (q : ReferenceQt) (c : UInt16) : Bool :=
  c == 0x20 || (0x09 ≤ c && c ≤ 0x0d) || (c > 127 && q.spaceAbove c)

def isQuote (c : UInt16) : Bool := c == 0x22 || c == 0x27

/-- The units of names. -/
def isName (c : UInt16) : Bool :=
  (0x30 ≤ c && c ≤ 0x39) || (0x41 ≤ c && c ≤ 0x5a) || (0x61 ≤ c && c ≤ 0x7a) ||
    c == 0x5f || c == 0x2d || c ≥ 128

/-- `QChar::toLower()`. -/
def lowerUnit (q : ReferenceQt) (c : UInt16) : UInt16 :=
  if 0x41 ≤ c && c ≤ 0x5a then c + 0x20 else if c > 127 then q.lowerAbove c else c

def isHex (q : ReferenceQt) (c : UInt16) : Bool :=
  (0x30 ≤ c && c ≤ 0x39) || (0x61 ≤ lowerUnit q c && lowerUnit q c ≤ 0x66)

/-- The value of a hexadecimal digit. -/
def hexValue (c : UInt16) : Option Nat :=
  if 0x30 ≤ c ∧ c ≤ 0x39 then some (c.toNat - 0x30)
  else if 0x61 ≤ c ∧ c ≤ 0x66 then some (c.toNat - 0x57)
  else if 0x41 ≤ c ∧ c ≤ 0x46 then some (c.toNat - 0x37)
  else none

/-- `fromUcs4` of the number that some digits stand for; U+FFFD where it is no character. -/
def codeOf (hex : Units) : Units :=
  let code :=
    (hex.foldl (fun value c => value.bind fun v => (hexValue c).map (v * 16 + ·)) (some 0)).getD 0
  let code := if code = 0 ∨ code > 0x10ffff ∨ (0xd800 ≤ code ∧ code ≤ 0xdfff) then 0xfffd else code
  units (Char.ofNat code)

/-! ### Reading -/

def skipSpaces (q : ReferenceQt) (text : Units) : Units := text.dropWhile (isSpace q)

/-- At most `limit` hexadecimal digits. -/
def hexRun (q : ReferenceQt) : (limit : Nat) → Units → Units × Units
  | _, [] => ([], [])
  | 0, text => ([], text)
  | limit + 1, c :: rest =>
    if isHex q c then
      let run := hexRun q limit rest
      (c :: run.1, run.2)
    else ([], c :: rest)

/-- One white space; a line end of two units is one. -/
def skipSpace (q : ReferenceQt) : Units → Units
  | [] => []
  | c :: rest =>
    if isSpace q c then if c = 0x0d ∧ rest.head? = some 0x0a then rest.tail else rest else c :: rest

/-- `escaped`, behind the backslash: the value and the text behind it. -/
def escaped (q : ReferenceQt) : Units → Units × Units
  | [] => ([], [])
  | c :: rest =>
    if c = 0x0a then ([], rest)
    else if c = 0x0d then ([], if rest.head? = some 0x0a then rest.tail else rest)
    else if !isHex q c then ([c], rest)
    else
      let run := hexRun q 5 rest
      (codeOf (c :: run.1), skipSpace q run.2)

theorem length_tail_le (text : Units) : text.tail.length ≤ text.length := by
  rw [length_tail]
  omega

theorem hexRun_length (q : ReferenceQt) (limit : Nat) (text : Units) :
    (hexRun q limit text).2.length ≤ text.length := by
  fun_induction hexRun q limit text with
  | case1 | case2 | case4 => exact le_rfl
  | case3 limit c rest _ run ih =>
    have hle : run.2.length ≤ rest.length := ih
    simp only [length_cons]
    omega

theorem skipSpace_length (q : ReferenceQt) (text : Units) :
    (skipSpace q text).length ≤ text.length := by
  unfold skipSpace
  split
  · exact le_rfl
  · have := length_tail_le
    split_ifs <;> simp only [length_cons]
    · have := length_tail_le ‹_›
      omega
    · omega
    · exact le_rfl

theorem escaped_length (q : ReferenceQt) (text : Units) :
    (escaped q text).2.length ≤ text.length := by
  unfold escaped
  split
  · exact le_rfl
  · rename_i c rest
    have htail := length_tail_le rest
    have hrun := hexRun_length q 5 rest
    have hskip := skipSpace_length q (hexRun q 5 rest).2
    split_ifs <;> dsimp only <;> simp only [length_cons] <;> omega

/-- `Name` without the lower case: the value and the text behind it. -/
def nameFrom (q : ReferenceQt) : Units → Units × Units
  | [] => ([], [])
  | c :: rest =>
    if c = 0x5c then
      let escape := escaped q rest
      let name := nameFrom q escape.2
      (escape.1 ++ name.1, name.2)
    else if isName c then
      let name := nameFrom q rest
      (c :: name.1, name.2)
    else ([], c :: rest)
termination_by text => text.length
decreasing_by
  · have := escaped_length q rest
    simp only [List.length_cons]
    omega
  · simp

/-- `quoted`, behind the quote; `none` is a rejected text. -/
def quotedFrom (q : ReferenceQt) (quote : UInt16) : Units → Option (Units × Units)
  | [] => none
  | c :: rest =>
    if c = quote then some ([], rest)
    else if c = 0x5c then
      let escape := escaped q rest
      (quotedFrom q quote escape.2).map fun value => (escape.1 ++ value.1, value.2)
    else (quotedFrom q quote rest).map fun value => (c :: value.1, value.2)
termination_by text => text.length
decreasing_by
  · have := escaped_length q rest
    simp only [List.length_cons]
    omega
  · simp

/-- The value of `url(` without quotes. -/
def unquotedFrom (q : ReferenceQt) : Units → Units × Units
  | [] => ([], [])
  | c :: rest =>
    if c = 0x29 then ([], c :: rest)
    else if c = 0x5c then
      let escape := escaped q rest
      let value := unquotedFrom q escape.2
      (escape.1 ++ value.1, value.2)
    else
      let value := unquotedFrom q rest
      (c :: value.1, value.2)
termination_by text => text.length
decreasing_by
  · have := escaped_length q rest
    simp only [List.length_cons]
    omega
  · simp

/-- `trimmed()`. -/
def trimmed (q : ReferenceQt) (text : Units) : Units :=
  ((text.dropWhile (isSpace q)).reverse.dropWhile (isSpace q)).reverse

/-- A `url(` up to its `)`. -/
def urlFrom (q : ReferenceQt) (text : Units) : Option (Units × Units) :=
  let text := skipSpaces q text
  let value : Option (Units × Units) :=
    match text with
    | c :: rest => if isQuote c then quotedFrom q c rest else some (unquotedFrom q text)
    | [] => some ([], [])
  match value with
  | none => none
  | some value =>
    match skipSpaces q value.2 with
    | [] => none
    | c :: rest => if c = 0x29 then some (trimmed q value.1, rest) else none

/-! ### What stands behind -/

section Local

variable {q : ReferenceQt} {r r' text value raw : Units} {c d : UInt16}

/-- A unit that ends an escape. -/
def EscapeEnd (q : ReferenceQt) (c : UInt16) : Prop := isHex q c = false ∧ isSpace q c = false

/-- Two texts behind an escape that leave it as it is. -/
def Stops (q : ReferenceQt) (r r' : Units) : Prop :=
  r'.head? = r.head? ∨ ∃ c d, r.head? = some c ∧ r'.head? = some d ∧ EscapeEnd q c ∧ EscapeEnd q d

theorem Stops.append (raw : Units) (h : Stops q r r') : Stops q (raw ++ r) (raw ++ r') := by
  cases raw with
  | nil => exact h
  | cons c raw => exact .inl rfl

theorem Stops.nil (h : Stops q [] r') : r' = [] := by
  rcases h with h | ⟨c, d, h, _⟩
  · exact head?_eq_none_iff.1 h
  · cases h

theorem Stops.cons {rest : Units} (h : Stops q (c :: rest) r') :
    ∃ d rest', r' = d :: rest' ∧ (d = c ∨ EscapeEnd q c ∧ EscapeEnd q d) := by
  cases r' with
  | nil =>
    rcases h with h | ⟨_, _, _, h, _⟩
    · cases h
    · cases h
  | cons d rest' =>
    refine ⟨d, rest', rfl, ?_⟩
    rcases h with h | ⟨c', d', h1, h2, h3, h4⟩
    · exact .inl (some.inj h)
    · cases h1
      cases h2
      exact .inr ⟨h3, h4⟩

theorem hexRun_local (limit : Nat) (text : Units) :
    ∃ raw, text = raw ++ (hexRun q limit text).2 ∧ ∀ r', Stops q (hexRun q limit text).2 r' →
      hexRun q limit (raw ++ r') = ((hexRun q limit text).1, r') := by
  fun_induction hexRun q limit text with
  | case1 limit =>
    refine ⟨[], rfl, fun r' h => ?_⟩
    rw [h.nil]
    cases limit <;> rfl
  | case2 text => exact ⟨[], rfl, fun r' _ => by cases r' <;> rfl⟩
  | case3 limit c rest hc run ih =>
    obtain ⟨raw, htext, hlocal⟩ := ih
    refine ⟨c :: raw, congrArg (c :: ·) htext, fun r' h => ?_⟩
    rw [cons_append, hexRun, if_pos hc, hlocal r' h]
  | case4 limit c rest hc =>
    refine ⟨[], rfl, fun r' h => ?_⟩
    obtain ⟨d, rest', rfl, hd⟩ := h.cons
    have hnot : ¬isHex q d = true := by
      rcases hd with rfl | ⟨_, hd⟩
      · exact hc
      · rw [hd.1]
        decide
    rw [nil_append, hexRun, if_neg hnot]

theorem isSpace_lf : isSpace q 0x0a = true := rfl

theorem skipSpace_local (text : Units) :
    ∃ raw, text = raw ++ skipSpace q text ∧ ∀ r', Stops q (skipSpace q text) r' →
      skipSpace q (raw ++ r') = r' := by
  unfold skipSpace
  split
  · refine ⟨[], rfl, fun r' h => ?_⟩
    rw [h.nil]
    rfl
  · rename_i c rest
    split
    · rename_i hc
      split
      · rename_i hcr
        obtain ⟨d, tail, rfl⟩ : ∃ d tail, rest = d :: tail := by
          cases rest with
          | nil => cases hcr.2
          | cons d tail => exact ⟨d, tail, rfl⟩
        refine ⟨[c, d], rfl, fun r' _ => ?_⟩
        simp only [cons_append, nil_append, if_pos hc]
        rw [if_pos ⟨hcr.1, hcr.2⟩]
        rfl
      · rename_i hcr
        refine ⟨[c], rfl, fun r' h => ?_⟩
        simp only [cons_append, nil_append, if_pos hc]
        rw [if_neg]
        rintro ⟨h1, h2⟩
        rcases h with h | ⟨_, d, _, hd, _, hend⟩
        · exact hcr ⟨h1, by rw [← h, h2]⟩
        · rw [h2] at hd
          cases hd
          exact absurd hend.2 (by rw [isSpace_lf]; decide)
    · rename_i hc
      refine ⟨[], rfl, fun r' h => ?_⟩
      obtain ⟨d, rest', rfl, hd⟩ := h.cons
      have hnot : ¬isSpace q d = true := by
        rcases hd with rfl | ⟨_, hd⟩
        · exact hc
        · rw [hd.2]
          decide
      simp only [nil_append, if_neg hnot]

theorem escaped_local (text : Units) :
    ∃ raw, text = raw ++ (escaped q text).2 ∧ ∀ r', Stops q (escaped q text).2 r' →
      escaped q (raw ++ r') = ((escaped q text).1, r') := by
  cases text with
  | nil =>
    refine ⟨[], rfl, fun r' h => ?_⟩
    rw [show r' = [] from h.nil]
    rfl
  | cons c rest =>
    by_cases hlf : c = 0x0a
    · refine ⟨[c], by simp [escaped, hlf], fun r' _ => by simp [escaped, hlf]⟩
    by_cases hcr : c = 0x0d
    · by_cases hnext : rest.head? = some 0x0a
      · obtain ⟨tail, rfl⟩ : ∃ tail, rest = 0x0a :: tail := by
          cases rest with
          | nil => cases hnext
          | cons d tail => exact ⟨tail, by rw [some.inj hnext]⟩
        exact ⟨[c, 0x0a], by simp [escaped, hcr], fun r' _ => by simp [escaped, hcr]⟩
      · refine ⟨[c], by simp [escaped, hcr, hnext], fun r' h => ?_⟩
        have hrest : (escaped q (c :: rest)).2 = rest := by simp [escaped, hcr, hnext]
        rw [hrest] at h
        have hnot : r'.head? ≠ some 0x0a := by
          rcases h with h | ⟨_, d, _, hd, _, hend⟩
          · rw [h]
            exact hnext
          · rw [hd]
            rintro ⟨⟩
            exact absurd hend.2 (by rw [isSpace_lf]; decide)
        simp [escaped, hcr, hnext, hnot]
    by_cases hhex : isHex q c = true
    · obtain ⟨raw1, h1, hlocal1⟩ := hexRun_local (q := q) 5 rest
      obtain ⟨raw2, h2, hlocal2⟩ := skipSpace_local (q := q) (hexRun q 5 rest).2
      have hdef : ∀ text, escaped q (c :: text) =
          (codeOf (c :: (hexRun q 5 text).1), skipSpace q (hexRun q 5 text).2) := by
        intro text
        simp [escaped, hlf, hcr, hhex]
      refine ⟨c :: (raw1 ++ raw2), ?_, fun r' h => ?_⟩
      · rw [hdef, cons_append, append_assoc, ← h2, ← h1]
      · rw [hdef] at h
        have hstop := h.append raw2
        rw [← h2] at hstop
        rw [cons_append, append_assoc, hdef, hdef, hlocal1 _ hstop]
        rw [hlocal2 r' h]
    · have hdef : ∀ text, escaped q (c :: text) = ([c], text) := by
        intro text
        simp [escaped, hlf, hcr, hhex]
      exact ⟨[c], by rw [hdef]; rfl, fun r' _ => by rw [hdef]; exact hdef r'⟩

/-- Two texts behind a piece: they begin alike, or the second begins with a quote or a `u` in the
place of another quote or name. -/
def Alike (r r' : Units) : Prop :=
  r'.head? = r.head? ∨ (∃ c, r.head? = some c ∧ isQuote c = true ∧ r'.head? = some 0x22) ∨
    ∃ c, r.head? = some c ∧ (isName c = true ∨ c = 0x5c) ∧ r'.head? = some 0x75

theorem Alike.append (raw : Units) (h : Alike r r') : Alike (raw ++ r) (raw ++ r') := by
  cases raw with
  | nil => exact h
  | cons c raw => exact .inl rfl

/-- The text does not go on with a name. -/
def NameEnd (r : Units) : Prop := ∀ c ∈ r.head?, isName c = false ∧ c ≠ 0x5c

theorem isQuote_cases (h : isQuote c = true) : c = 0x22 ∨ c = 0x27 := by
  simpa [isQuote] using h

theorem escapeEnd_of_isQuote (h : isQuote c = true) : EscapeEnd q c := by
  rcases isQuote_cases h with rfl | rfl
  · exact ⟨rfl, rfl⟩
  · exact ⟨rfl, rfl⟩

/-- Behind a name a reference can only begin with a quote. -/
theorem NameEnd.heads (hr : NameEnd r) (h : Alike r r') :
    r'.head? = r.head? ∨ ∃ c, r.head? = some c ∧ isQuote c = true ∧ r'.head? = some 0x22 := by
  rcases h with h | h | ⟨c, hc, hname, _⟩
  · exact .inl h
  · exact .inr h
  · obtain ⟨h1, h2⟩ := hr c (by rw [hc]; rfl)
    rcases hname with hname | hname
    · rw [h1] at hname
      cases hname
    · exact absurd hname h2

theorem NameEnd.stops (hr : NameEnd r) (h : Alike r r') : Stops q r r' := by
  rcases hr.heads h with h | ⟨c, hc, hquote, hd⟩
  · exact .inl h
  · exact .inr ⟨c, 0x22, hc, hd, escapeEnd_of_isQuote hquote, escapeEnd_of_isQuote rfl⟩

theorem NameEnd.alike (hr : NameEnd r) (h : Alike r r') : NameEnd r' := by
  intro d hd
  rcases hr.heads h with h | ⟨c, hc, _, hd'⟩
  · exact hr d (by rw [← h]; exact hd)
  · rw [hd'] at hd
    cases hd
    exact ⟨rfl, by decide⟩

theorem nameFrom_local (text : Units) :
    ∃ raw, text = raw ++ (nameFrom q text).2 ∧ NameEnd (nameFrom q text).2 ∧
      ∀ r', Alike (nameFrom q text).2 r' → nameFrom q (raw ++ r') = ((nameFrom q text).1, r') := by
  fun_induction nameFrom q text with
  | case1 =>
    refine ⟨[], rfl, by simp [NameEnd], fun r' h => ?_⟩
    have hnil : r' = [] := by
      rcases h with h | ⟨_, h, _⟩ | ⟨_, h, _⟩
      · exact head?_eq_none_iff.1 h
      · cases h
      · cases h
    rw [hnil, nil_append, nameFrom]
  | case2 rest escape name ih =>
    obtain ⟨raw, htext, hend, hlocal⟩ := ih
    obtain ⟨raw1, htext1, hlocal1⟩ := escaped_local (q := q) rest
    refine ⟨0x5c :: (raw1 ++ raw), ?_, hend, fun r' h => ?_⟩
    · rw [cons_append, append_assoc, ← htext, ← htext1]
    · have hstop : Stops q (escaped q rest).2 (raw ++ r') := by
        have := (hend.stops h).append (q := q) raw
        rwa [← htext] at this
      rw [cons_append, append_assoc, nameFrom, if_pos rfl, hlocal1 _ hstop]
      dsimp only
      rw [hlocal r' h]
  | case3 c rest hc hname name ih =>
    obtain ⟨raw, htext, hend, hlocal⟩ := ih
    refine ⟨c :: raw, congrArg (c :: ·) htext, hend, fun r' h => ?_⟩
    rw [cons_append, nameFrom, if_neg hc, if_pos hname, hlocal r' h]
  | case4 c rest hc hname =>
    have hend : NameEnd (c :: rest) := by
      intro d hd
      cases hd
      exact ⟨by simpa using hname, hc⟩
    refine ⟨[], rfl, hend, fun r' h => ?_⟩
    have hend' := hend.alike h
    cases r' with
    | nil => rw [nil_append, nameFrom]
    | cons d tail =>
      obtain ⟨h1, h2⟩ := hend' d rfl
      rw [nil_append, nameFrom, if_neg h2, if_neg (by rw [h1]; decide)]

theorem quotedFrom_local {quote : UInt16} (h : quotedFrom q quote text = some (value, r)) :
    ∃ raw, raw ≠ [] ∧ text = raw ++ r ∧
      ∀ r', quotedFrom q quote (raw ++ r') = some (value, r') := by
  fun_induction quotedFrom q quote text generalizing value with
  | case1 => cases h
  | case2 rest =>
    cases h
    exact ⟨[quote], by simp, rfl, fun r' => by rw [cons_append, quotedFrom, if_pos rfl]; rfl⟩
  | case3 rest escape hquote =>
    rename_i ih
    obtain ⟨⟨value', r''⟩, hrec, hvalue⟩ := map_eq_some_iff.1 h
    cases hvalue
    obtain ⟨raw, hne, htext, hlocal⟩ := ih hrec
    obtain ⟨raw1, htext1, hlocal1⟩ := escaped_local (q := q) rest
    refine ⟨0x5c :: (raw1 ++ raw), by simp, ?_, fun r' => ?_⟩
    · rw [cons_append, append_assoc, ← htext, ← htext1]
    · have hstop : Stops q (escaped q rest).2 (raw ++ r') := by
        obtain ⟨d, tail, rfl⟩ := exists_cons_of_ne_nil hne
        exact .inl (by rw [htext]; rfl)
      rw [cons_append, append_assoc, quotedFrom, if_neg hquote, if_pos rfl, hlocal1 _ hstop]
      dsimp only
      rw [hlocal r']
      rfl
  | case4 c rest hquote hc ih =>
    obtain ⟨⟨value', r''⟩, hrec, hvalue⟩ := map_eq_some_iff.1 h
    cases hvalue
    obtain ⟨raw, hne, htext, hlocal⟩ := ih hrec
    refine ⟨c :: raw, by simp, congrArg (c :: ·) htext, fun r' => ?_⟩
    rw [cons_append, quotedFrom, if_neg hquote, if_neg hc, hlocal r']
    rfl

theorem unquotedFrom_local (text : Units) :
    ∃ raw, text = raw ++ (unquotedFrom q text).2 ∧
      ∀ r', r'.head? = (unquotedFrom q text).2.head? →
        unquotedFrom q (raw ++ r') = ((unquotedFrom q text).1, r') := by
  fun_induction unquotedFrom q text with
  | case1 =>
    refine ⟨[], rfl, fun r' h => ?_⟩
    rw [head?_eq_none_iff.1 h, nil_append, unquotedFrom]
  | case2 rest =>
    refine ⟨[], rfl, fun r' h => ?_⟩
    cases r' with
    | nil => cases h
    | cons d tail =>
      cases h
      rw [nil_append, unquotedFrom, if_pos rfl]
  | case3 rest escape value hc ih =>
    obtain ⟨raw, htext, hlocal⟩ := ih
    obtain ⟨raw1, htext1, hlocal1⟩ := escaped_local (q := q) rest
    refine ⟨0x5c :: (raw1 ++ raw), ?_, fun r' h => ?_⟩
    · rw [cons_append, append_assoc, ← htext, ← htext1]
    · have hstop : Stops q (escaped q rest).2 (raw ++ r') := by
        have : Stops q (unquotedFrom q (escaped q rest).2).2 r' := .inl h
        have := this.append raw
        rwa [← htext] at this
      rw [cons_append, append_assoc, unquotedFrom, if_neg hc, if_pos rfl, hlocal1 _ hstop]
      dsimp only
      rw [hlocal r' h]
  | case4 c rest hc hbackslash value ih =>
    obtain ⟨raw, htext, hlocal⟩ := ih
    refine ⟨c :: raw, congrArg (c :: ·) htext, fun r' h => ?_⟩
    rw [cons_append, unquotedFrom, if_neg hc, if_neg hbackslash, hlocal r' h]

theorem skipSpaces_local (text : Units) :
    ∃ raw, text = raw ++ skipSpaces q text ∧
      (∀ c ∈ (skipSpaces q text).head?, isSpace q c = false) ∧
      ∀ r', (∀ c ∈ r'.head?, isSpace q c = false) → skipSpaces q (raw ++ r') = r' := by
  refine ⟨text.takeWhile (isSpace q), takeWhile_append_dropWhile.symm, ?_, fun r' h => ?_⟩
  · intro c hc
    have := head?_dropWhile_not (isSpace q) text
    rw [skipSpaces] at hc
    rw [mem_def.1 hc] at this
    simpa using this
  · rw [skipSpaces, dropWhile_append_of_pos]
    · cases r' with
      | nil => rfl
      | cons c rest => exact dropWhile_cons_of_neg (by rw [h c rfl]; decide)
    · exact fun c hc => mem_takeWhile_imp hc

/-- The value of `url(` behind the spaces in front of it. -/
def urlValue (q : ReferenceQt) (text : Units) : Option (Units × Units) :=
  match text with
  | c :: rest => if isQuote c then quotedFrom q c rest else some (unquotedFrom q text)
  | [] => some ([], [])

theorem urlFrom_eq (text : Units) :
    urlFrom q text = (urlValue q (skipSpaces q text)).bind fun value =>
      match skipSpaces q value.2 with
      | [] => none
      | c :: rest => if c = 0x29 then some (trimmed q value.1, rest) else none := by
  unfold urlFrom urlValue
  dsimp only
  cases skipSpaces q text with
  | nil => rfl
  | cons c rest =>
    split
    · rename_i h
      rw [h]
      rfl
    · rename_i h
      rw [h]
      rfl

theorem urlValue_local (h : urlValue q text = some (value, r)) :
    ∃ raw, text = raw ++ r ∧ ∀ r', r ≠ [] → r'.head? = r.head? →
      urlValue q (raw ++ r') = some (value, r') := by
  unfold urlValue at h
  split at h
  · rename_i c rest
    split at h
    · rename_i hquote
      obtain ⟨raw, _, htext, hlocal⟩ := quotedFrom_local h
      refine ⟨c :: raw, congrArg (c :: ·) htext, fun r' _ _ => ?_⟩
      rw [cons_append, urlValue]
      simp only [if_pos hquote]
      exact hlocal r'
    · rename_i hquote
      obtain ⟨raw, htext, hlocal⟩ := unquotedFrom_local (q := q) (c :: rest)
      rw [some.inj h] at htext hlocal
      refine ⟨raw, htext, fun r' hr hhead => ?_⟩
      have hsame : (raw ++ r').head? = some c := by
        have := congrArg head? htext
        cases raw with
        | nil =>
          rw [nil_append, hhead]
          exact this.symm
        | cons d raw => exact this.symm
      obtain ⟨tail, hcons⟩ : ∃ tail, raw ++ r' = c :: tail := by
        cases hraw : raw ++ r' with
        | nil =>
          rw [hraw] at hsame
          cases hsame
        | cons d tail =>
          rw [hraw] at hsame
          cases hsame
          exact ⟨tail, rfl⟩
      rw [hcons, urlValue]
      simp only [if_neg hquote]
      rw [← hcons, hlocal r' hhead]
  · cases h
    exact ⟨[], rfl, fun r' hr _ => absurd rfl hr⟩

theorem urlFrom_local (h : urlFrom q text = some (value, r)) :
    ∃ raw, text = raw ++ r ∧ raw ≠ [] ∧ ∀ r', urlFrom q (raw ++ r') = some (value, r') := by
  rw [urlFrom_eq] at h
  obtain ⟨⟨v, t⟩, hvalue, h⟩ := bind_eq_some_iff.1 h
  obtain ⟨raw1, htext1, hhead1, hlocal1⟩ := skipSpaces_local (q := q) text
  obtain ⟨raw2, htext2, hlocal2⟩ := urlValue_local hvalue
  obtain ⟨raw3, htext3, hhead3, hlocal3⟩ := skipSpaces_local (q := q) t
  cases hclose : skipSpaces q t with
  | nil =>
    rw [hclose] at h
    cases h
  | cons c rest =>
    rw [hclose] at h htext3 hhead3
    dsimp only at h
    split at h
    · rename_i hc
      subst hc
      cases h
      refine ⟨raw1 ++ (raw2 ++ (raw3 ++ [0x29])), ?_, by simp, fun r' => ?_⟩
      · rw [htext1, htext2, htext3]
        simp
      · have hbehind : (raw3 ++ 0x29 :: r').head? = t.head? := by
          rw [htext3]
          cases raw3 <;> rfl
        have hne : t ≠ [] := by
          rw [htext3]
          simp
        have hfront : (raw2 ++ (raw3 ++ 0x29 :: r')).head? = (skipSpaces q text).head? := by
          rw [htext2]
          cases raw2 with
          | nil => exact hbehind
          | cons d raw2 => rfl
        have hshape : raw1 ++ (raw2 ++ (raw3 ++ [0x29])) ++ r' =
            raw1 ++ (raw2 ++ (raw3 ++ 0x29 :: r')) := by
          simp
        have hstop : ∀ d ∈ (0x29 :: r').head?, isSpace q d = false := by
          intro d hd
          exact hhead3 d hd
        rw [urlFrom_eq, hshape, hlocal1 _ (by rw [hfront]; exact hhead1), hlocal2 _ hne hbehind,
          bind_some]
        rw [hlocal3 _ hstop]
        rfl
    · cases h

/-- A unit of an encoded path is neither white space nor does it end or escape anything in
quotes. -/
theorem urlUnit_spec (h : urlUnit c) : isSpace q c = false ∧ c ≠ 0x22 ∧ c ≠ 0x5c := by
  obtain ⟨hlo, hhi, hq, hb⟩ := h
  refine ⟨?_, hq, hb⟩
  rw [UInt16.le_iff_toNat_le] at hlo hhi
  have hlo' : 33 ≤ c.toNat := hlo
  have hhi' : c.toNat ≤ 126 := hhi
  have h1 : (c == 0x20) = false := by
    rw [beq_eq_false_iff_ne]
    rintro rfl
    exact absurd hlo' (by decide)
  have h2 : Decidable.decide (c ≤ 0x0d) = false := by
    rw [decide_eq_false_iff_not, UInt16.le_iff_toNat_le]
    exact fun h => absurd (le_trans hlo' h) (by decide)
  have h3 : Decidable.decide (c > 127) = false := by
    rw [decide_eq_false_iff_not, gt_iff_lt, UInt16.lt_iff_toNat_lt]
    exact fun h => absurd (lt_of_lt_of_le h hhi') (by decide)
  simp [isSpace, h1, h2, h3]

theorem quotedFrom_write {w : Units} (h : ∀ c ∈ w, urlUnit c) (r : Units) :
    quotedFrom q 0x22 (w ++ 0x22 :: r) = some (w, r) := by
  induction w with
  | nil => rw [nil_append, quotedFrom, if_pos rfl]
  | cons c w ih =>
    obtain ⟨_, hq, hb⟩ := urlUnit_spec (q := q) (h c mem_cons_self)
    rw [cons_append, quotedFrom, if_neg hq, if_neg hb, ih fun c hc => h c (mem_cons_of_mem _ hc)]
    rfl

theorem dropWhile_isSpace {w : Units} (h : ∀ c ∈ w, urlUnit c) : w.dropWhile (isSpace q) = w := by
  cases w with
  | nil => rfl
  | cons c w =>
    exact dropWhile_cons_of_neg (by rw [(urlUnit_spec (h c mem_cons_self)).1]; decide)

theorem trimmed_eq {w : Units} (h : ∀ c ∈ w, urlUnit c) : trimmed q w = w := by
  rw [trimmed, dropWhile_isSpace h, dropWhile_isSpace fun c hc => h c (mem_reverse.1 hc),
    reverse_reverse]

theorem urlFrom_write {w : Units} (h : ∀ c ∈ w, urlUnit c) (r : Units) :
    urlFrom q (0x22 :: (w ++ 0x22 :: 0x29 :: r)) = some (w, r) := by
  have hquote : skipSpaces q (0x22 :: (w ++ 0x22 :: 0x29 :: r)) =
      0x22 :: (w ++ 0x22 :: 0x29 :: r) :=
    dropWhile_cons_of_neg (by rw [show isSpace q 0x22 = false from rfl]; decide)
  have hclose : skipSpaces q (0x29 :: r) = 0x29 :: r :=
    dropWhile_cons_of_neg (by rw [show isSpace q 0x29 = false from rfl]; decide)
  rw [urlFrom_eq, hquote, urlValue, if_pos (by rfl), quotedFrom_write h, bind_some]
  rw [hclose, trimmed_eq h]
  rfl

end Local

end Hc.Document.Epub
