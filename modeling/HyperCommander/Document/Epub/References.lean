import HyperCommander.Document.Epub.ReferenceReading

/-!
# References in style sheets and in `srcset` (`commonLibs/document/epub/epubEditStructure.cpp`)

`cssReferences` and `srcsetReferences` hand every reference of a text to a map and put its value in
the place of the reference if it is another one. Both read the text in pieces: what lies outside of
references, and references with their spelling.
-/

namespace Hc.Document.Epub

open Option List Unicode

/-! ### Pieces -/

/-- How a reference is written when its value changes. -/
inductive Spelling
  | string
  | url
  | plain
deriving DecidableEq, Repr

/-- A part of a text: outside of references, or a reference with its value. -/
inductive Piece
  | outside (raw : Units)
  | reference (spelling : Spelling) (raw value : Units)
deriving DecidableEq, Repr

def Piece.raw : Piece → Units
  | outside raw => raw
  | reference _ raw _ => raw

/-- The reference that a piece is. -/
def Piece.value? : Piece → Option Units
  | outside _ => none
  | reference _ _ value => some value

/-- A new value in the spelling of its reference. -/
def Spelling.write : Spelling → Units → Units
  | string, value => [0x22] ++ value ++ [0x22]
  | url, value => lit "url(\"" ++ value ++ lit "\")"
  | plain, value => value

/-- `Change`. -/
structure Change where
  first : Nat
  last : Nat
  value : Units
deriving DecidableEq, Repr

/-- The changes of a map, for pieces from a position on. -/
def changesOf (f : Units → Units) : (pos : Nat) → List Piece → List Change
  | _, [] => []
  | pos, .outside raw :: rest => changesOf f (pos + raw.length) rest
  | pos, .reference spelling raw value :: rest =>
    if f value ≠ value then
      { first := pos, last := pos + raw.length, value := spelling.write (f value) } ::
        changesOf f (pos + raw.length) rest
    else changesOf f (pos + raw.length) rest

/-- The last change is made first. -/
def applyChanges (text : Units) (changes : List Change) : Units :=
  changes.foldr (fun c text => text.take c.first ++ c.value ++ text.drop c.last) text

/-! ### `cssReferences` -/

/-- The open functions, the innermost one first, and `Import`. -/
structure CssState where
  functions : List Units := []
  importing : Bool := false
deriving DecidableEq, Repr

/-- The functions whose strings are references. -/
def imageFunctions : List Units :=
  [lit "image-set", lit "-webkit-image-set", lit "image", lit "src"]

/-- One round of the loop: the state and the text behind it, with the value of a reference. A string
behind `@import` is left to the next round, which reads it the same way. -/
def cssRound (q : ReferenceQt) (s : CssState) (c : UInt16) (rest : Units) :
    Option (Option (Spelling × Units) × CssState × Units) :=
  if c = 0x2f ∧ rest.head? = some 0x2a then
    (findText (lit "*/") rest.tail).map fun n => (none, s, rest.tail.drop (n + 2))
  else if isQuote c then
    (quotedFrom q c rest).map fun value =>
      let isReference := s.importing || s.functions.head?.any fun f => imageFunctions.contains f
      (if isReference then some (.string, value.1)
        else none, { s with importing := false }, value.2)
  else if c = 0x40 then
    let name := nameFrom q rest
    if q.toLower name.1 = lit "import" then some (none, { s with importing := true },
      skipSpaces q name.2)
    else some (none, s, name.2)
  else if isName c || c = 0x5c then
    let name := nameFrom q (c :: rest)
    if name.2.head? = some 0x28 then
      if q.toLower name.1 = lit "url" then
        (urlFrom q name.2.tail).map fun value =>
          (some (.url, value.1), { s with importing := false }, value.2)
      else some (none, { s with functions := q.toLower name.1 :: s.functions }, name.2.tail)
    else some (none, s, name.2)
  else
    let s := if c = 0x3b then { s with importing := false } else s
    if c = 0x28 then some (none, { s with functions := [] :: s.functions }, rest)
    else if c = 0x29 then some (none, { s with functions := s.functions.tail }, rest)
    else some (none, s, rest)

section Round

variable {q : ReferenceQt} {s s' : CssState} {c : UInt16} {rest r : Units}
  {reference : Option (Spelling × Units)}

theorem prefix_append_iff {needle a b : Units} (h : needle.length ≤ a.length) :
    needle <+: a ++ b ↔ needle <+: a := by
  constructor
  · intro hp
    exact prefix_of_prefix_length_le hp (prefix_append a b) h
  · exact fun hp => hp.trans (prefix_append a b)

/-- A place that is found does not depend on the text behind it. -/
theorem findText_local {needle text : Units} {n : Nat} (hne : needle ≠ [])
    (h : findText needle text = some n) (r' : Units) :
    findText needle (text.take (n + needle.length) ++ r') = some n := by
  induction text generalizing n with
  | nil => cases h
  | cons c rest ih =>
    rw [findText] at h
    split at h
    · rename_i hp
      cases h
      rw [Nat.zero_add, ← prefix_iff_eq_take.1 hp]
      obtain ⟨d, tail, rfl⟩ := exists_cons_of_ne_nil hne
      rw [cons_append, findText,
        if_pos (show d :: tail <+: d :: (tail ++ r') from prefix_append (d :: tail) r')]
    · rename_i hp
      obtain ⟨k, hk, rfl⟩ := map_eq_some_iff.1 h
      have hle := findText_le hk
      have hlength : needle.length ≤ (c :: rest.take (k + needle.length)).length := by
        rw [length_cons, length_take]
        omega
      have hnot : ¬needle <+: c :: (rest.take (k + needle.length) ++ r') := by
        rw [← cons_append, prefix_append_iff hlength]
        exact fun h => hp (h.trans (cons_prefix_cons.2 ⟨rfl, take_prefix _ _⟩))
      rw [show k + 1 + needle.length = k + needle.length + 1 by omega, take_succ_cons,
        cons_append, findText, if_neg hnot, ih hk]
      rfl

theorem alike_not_space {r r' : Units} (h : Alike r r') (hr : ∀ c ∈ r.head?, isSpace q c = false) :
    ∀ c ∈ r'.head?, isSpace q c = false := by
  intro d hd
  rcases h with h | ⟨_, _, _, h⟩ | ⟨_, _, _, h⟩
  · exact hr d (by rw [← h]; exact hd)
  · rw [h] at hd
    cases hd
    rfl
  · rw [h] at hd
    cases hd
    rfl

/-- A unit that no reference begins with stands behind a piece only where it stood before. -/
theorem alike_head_ne {r r' : Units} (h : Alike r r') {d : UInt16} (hd : d ≠ 0x22 ∧ d ≠ 0x75)
    (hr : r.head? ≠ some d) : r'.head? ≠ some d := by
  rcases h with h | ⟨_, _, _, h⟩ | ⟨_, _, _, h⟩
  · rw [h]
    exact hr
  · rw [h]
    rintro ⟨⟩
    exact hd.1 rfl
  · rw [h]
    rintro ⟨⟩
    exact hd.2 rfl

theorem nameFrom_url (w r : Units) :
    nameFrom q (0x75 :: 0x72 :: 0x6c :: 0x28 :: (w ++ r)) = (lit "url", 0x28 :: (w ++ r)) := by
  have h1 : isName 0x75 = true := rfl
  have h2 : isName 0x72 = true := rfl
  have h3 : isName 0x6c = true := rfl
  have h4 : isName 0x28 = false := rfl
  rw [nameFrom, if_neg (by decide), if_pos h1, nameFrom, if_neg (by decide), if_pos h2, nameFrom,
    if_neg (by decide), if_pos h3, nameFrom, if_neg (by decide), if_neg (by rw [h4]; decide)]
  rfl

theorem name_cases (h : isName c = true ∨ c = 0x5c) : c ≠ 0x2f ∧ isQuote c = false ∧ c ≠ 0x40 := by
  refine ⟨?_, ?_, ?_⟩
  · rintro rfl
    exact absurd h (by decide)
  · by_contra hq
    rcases isQuote_cases (by simpa using hq) with rfl | rfl <;> exact absurd h (by decide)
  · rintro rfl
    exact absurd h (by decide)

/-- The round of a name. -/
theorem cssRound_name (h : isName c = true ∨ c = 0x5c) (rest : Units) :
    cssRound q s c rest =
      if (nameFrom q (c :: rest)).2.head? = some 0x28 then
        if q.toLower (nameFrom q (c :: rest)).1 = lit "url" then
          (urlFrom q (nameFrom q (c :: rest)).2.tail).map fun value =>
            (some (.url, value.1), { s with importing := false }, value.2)
        else
          some (none, { s with functions := q.toLower (nameFrom q (c :: rest)).1 :: s.functions },
            (nameFrom q (c :: rest)).2.tail)
      else some (none, s, (nameFrom q (c :: rest)).2) := by
  obtain ⟨h1, h2, h3⟩ := name_cases h
  rw [cssRound, if_neg (fun h => h1 h.1), if_neg (by rw [h2]; decide), if_neg h3,
    if_pos (by simpa [Bool.or_eq_true] using h)]

/-- What a round takes does not depend on the text behind it, and a reference that is written with
another value is read back by the same round. -/
theorem cssRound_local (h : cssRound q s c rest = some (reference, s', r)) :
    ∃ raw, rest = raw ++ r ∧
      (reference = none → ∀ r', Alike r r' → cssRound q s c (raw ++ r') = some (none, s', r')) ∧
      ∀ spelling value, reference = some (spelling, value) →
        (spelling = .string ∧ isQuote c = true ∨ spelling = .url ∧ (isName c = true ∨ c = 0x5c)) ∧
        (∀ r', cssRound q s c (raw ++ r') = some (reference, s', r')) ∧
        ∀ w, (∀ c ∈ w, urlUnit c) → ∀ r', ∃ d tail, spelling.write w = d :: tail ∧
          cssRound q s d (tail ++ r') = some (some (spelling, w), s', r') := by
  unfold cssRound at h
  split at h
  · -- a comment
    rename_i hc
    obtain ⟨n, hfind, hval⟩ := map_eq_some_iff.1 h
    cases hval
    obtain ⟨tail, rfl⟩ : ∃ tail, rest = 0x2a :: tail := by
      cases rest with
      | nil => cases hc.2
      | cons d tail => exact ⟨tail, by rw [some.inj hc.2]⟩
    rw [tail_cons] at hfind ⊢
    have hlength : (lit "*/").length = 2 := rfl
    refine ⟨0x2a :: tail.take (n + 2), by rw [cons_append, take_append_drop], fun _ r' _ => ?_,
      fun _ _ h => by cases h⟩
    have hfound := findText_local (by decide) hfind r'
    rw [hlength] at hfound
    have hle := findText_le hfind
    rw [hlength] at hle
    rw [cssRound, cons_append, if_pos ⟨hc.1, rfl⟩, tail_cons, hfound, map_some,
      drop_left' (by rw [length_take]; omega)]
  · rename_i hcomment
    split at h
    · -- a string
      rename_i hquote
      obtain ⟨⟨value, r₁⟩, hquoted, hval⟩ := map_eq_some_iff.1 h
      cases hval
      obtain ⟨raw, _, htext, hlocal⟩ := quotedFrom_local hquoted
      have hslash : c ≠ 0x2f := by
        rintro rfl
        cases hquote
      have hround : ∀ r', cssRound q s c (raw ++ r') = some
          (if (s.importing || s.functions.head?.any fun f => imageFunctions.contains f) = true then
            some (.string, value) else none, { s with importing := false }, r') := by
        intro r'
        rw [cssRound, if_neg (fun h => hslash h.1), if_pos hquote, hlocal r']
        rfl
      refine ⟨raw, htext, fun hnone r' _ => ?_, fun spelling v hsome => ?_⟩
      · dsimp only at hnone
        rw [hround, hnone]
      · split at hsome
        · rename_i href
          cases hsome
          refine ⟨.inl ⟨rfl, hquote⟩, fun r' => by rw [hround],
            fun w hw r' => ⟨0x22, w ++ [0x22], rfl, ?_⟩⟩
          have hread : quotedFrom q 0x22 (w ++ [0x22] ++ r') = some (w, r') := by
            rw [append_assoc]
            exact quotedFrom_write hw r'
          rw [cssRound, if_neg (fun h => absurd h.1 (by decide)),
            if_pos (show isQuote 0x22 = true from rfl), hread, map_some]
          dsimp only
          rw [if_pos href]
        · cases hsome
    · rename_i hquote
      split at h
      · -- a rule
        rename_i hat
        subst hat
        obtain ⟨raw1, htext1, _, hlocal1⟩ := nameFrom_local (q := q) rest
        dsimp only at h
        split at h
        · rename_i himport
          cases h
          obtain ⟨raw2, htext2, hhead2, hlocal2⟩ := skipSpaces_local (q := q) (nameFrom q rest).2
          refine ⟨raw1 ++ raw2, by rw [append_assoc, ← htext2, ← htext1], fun _ r' halike => ?_,
            fun _ _ h => by cases h⟩
          have hname : Alike (nameFrom q rest).2 (raw2 ++ r') := by
            rw [htext2]
            exact halike.append raw2
          rw [cssRound, if_neg (fun h => absurd h.1 (by decide)), if_neg (by decide), if_pos rfl,
            append_assoc, hlocal1 _ hname]
          rw [if_pos himport, hlocal2 r' (alike_not_space halike hhead2)]
        · rename_i himport
          cases h
          refine ⟨raw1, htext1, fun _ r' halike => ?_, fun _ _ h => by cases h⟩
          rw [cssRound, if_neg (fun h => absurd h.1 (by decide)), if_neg (by decide), if_pos rfl,
            hlocal1 _ halike]
          rw [if_neg himport]
      · rename_i hat
        split at h
        · -- a name
          rename_i hname
          have hname : isName c = true ∨ c = 0x5c := by simpa [Bool.or_eq_true] using hname
          obtain ⟨raw0, htext0, hend, hlocal0⟩ := nameFrom_local (q := q) (c :: rest)
          -- the name has at least the first unit
          obtain ⟨raw1, rfl⟩ : ∃ raw1, raw0 = c :: raw1 := by
            cases raw0 with
            | nil =>
              rw [nil_append] at htext0
              obtain ⟨h1, h2⟩ := hend c (by rw [← htext0]; rfl)
              rw [h1] at hname
              exact absurd hname (by simp [h2])
            | cons d raw1 => exact ⟨raw1, by rw [(cons.inj htext0).1]⟩
          have htext1 := (cons.inj htext0).2
          have hread : ∀ r', Alike (nameFrom q (c :: rest)).2 r' →
              nameFrom q (c :: (raw1 ++ r')) = ((nameFrom q (c :: rest)).1, r') := hlocal0
          dsimp only at h
          split at h
          · rename_i hopen
            obtain ⟨t, ht⟩ : ∃ t, (nameFrom q (c :: rest)).2 = 0x28 :: t := by
              cases hn : (nameFrom q (c :: rest)).2 with
              | nil =>
                rw [hn] at hopen
                cases hopen
              | cons d t =>
                rw [hn] at hopen
                exact ⟨t, by rw [some.inj hopen]⟩
            have hopened : ∀ r', nameFrom q (c :: (raw1 ++ 0x28 :: r')) =
                ((nameFrom q (c :: rest)).1, 0x28 :: r') :=
                  fun r' => hread _ (.inl (by rw [ht]; rfl))
            rw [ht, tail_cons] at h
            split at h
            · rename_i hurl
              obtain ⟨⟨value, r₁⟩, hvalue, hval⟩ := map_eq_some_iff.1 h
              cases hval
              obtain ⟨raw2, htext2, _, hlocal2⟩ := urlFrom_local hvalue
              refine ⟨raw1 ++ 0x28 :: raw2, ?_, fun h => (by cases h), fun spelling v hsome => ?_⟩
              · rw [append_assoc, cons_append, ← htext2, ← ht]
                exact htext1
              · cases hsome
                refine ⟨.inr ⟨rfl, hname⟩, fun r' => ?_, fun w hw r' => ?_⟩
                · rw [cssRound_name hname, append_assoc, cons_append, hopened]
                  rw [head?_cons, if_pos rfl, if_pos hurl, tail_cons, hlocal2 r']
                  rfl
                · refine ⟨0x75, 0x72 :: 0x6c :: 0x28 :: (0x22 :: (w ++ [0x22, 0x29])), rfl, ?_⟩
                  have hshape : 0x72 :: 0x6c :: 0x28 :: (0x22 :: (w ++ [0x22, 0x29])) ++ r' =
                      0x72 :: 0x6c :: 0x28 :: ((0x22 :: (w ++ [0x22, 0x29])) ++ r') := rfl
                  rw [hshape, cssRound_name (.inl rfl), nameFrom_url]
                  rw [head?_cons, if_pos rfl, if_pos q.toLower_url, tail_cons]
                  have hurl : urlFrom q (0x22 :: (w ++ [0x22, 0x29]) ++ r') = some (w, r') := by
                    rw [cons_append, append_assoc]
                    exact urlFrom_write hw r'
                  rw [hurl]
                  rfl
            · rename_i hurl
              cases h
              refine ⟨raw1 ++ [0x28], ?_, fun _ r' _ => ?_, fun _ _ h => by cases h⟩
              · rw [append_assoc, singleton_append, ← ht]
                exact htext1
              · rw [cssRound_name hname, append_assoc, singleton_append, hopened]
                rw [head?_cons, if_pos rfl, if_neg hurl, tail_cons]
          · rename_i hopen
            cases h
            refine ⟨raw1, htext1, fun _ r' halike => ?_, fun _ _ h => by cases h⟩
            rw [cssRound_name hname, hread r' halike]
            rw [if_neg (alike_head_ne halike (by decide) hopen)]
        · -- any other unit
          rename_i hname
          refine ⟨[], ?_, fun hnone r' halike => ?_, fun spelling value hsome => ?_⟩
          · dsimp only at h
            split_ifs at h <;> cases h <;> rfl
          · have hcomment' : ¬(c = 0x2f ∧ r'.head? = some 0x2a) := by
              have hr : r = rest := by
                split_ifs at h <;> cases h <;> rfl
              rintro ⟨h1, h2⟩
              exact alike_head_ne halike (by decide) (fun h => hcomment ⟨h1, by rw [← hr, h]⟩) h2
            rw [nil_append, cssRound, if_neg hcomment', if_neg hquote, if_neg hat, if_neg hname]
            split_ifs at h ⊢ <;> cases h <;> rfl
          · dsimp only at h
            split_ifs at h <;> cases h <;> cases hsome

theorem cssRound_length (h : cssRound q s c rest = some (reference, s', r)) :
    r.length ≤ rest.length := by
  obtain ⟨raw, rfl, _⟩ := cssRound_local h
  rw [length_append]
  omega

end Round

/-- The piece of a round that leaves `rest` of a text. -/
def pieceOf (text rest : Units) (reference : Option (Spelling × Units)) : Piece :=
  let raw := text.take (text.length - rest.length)
  match reference with
  | none => .outside raw
  | some (spelling, value) => .reference spelling raw value

/-- The loop of `cssReferences`; `none` is a rejected text. -/
def cssScan (q : ReferenceQt) (s : CssState) : Units → Option (List Piece)
  | [] => some []
  | c :: rest =>
    match _h : cssRound q s c rest with
    | none => none
    | some (reference, s, behind) =>
      (cssScan q s behind).map (pieceOf (c :: rest) behind reference :: ·)
termination_by text => text.length
decreasing_by
  have := cssRound_length _h
  simp only [List.length_cons]
  omega

/-- `cssReferences`. -/
def cssReferences (q : ReferenceQt) (f : Units → Units) (text : Units) : Option Units :=
  (cssScan q {} text).map fun pieces => applyChanges text (changesOf f 0 pieces)

/-- The values that `cssReferences` hands to its map. -/
def cssCollected (q : ReferenceQt) (text : Units) : Option (List Units) :=
  (cssScan q {} text).map (List.filterMap Piece.value?)

/-! ### `srcsetReferences` -/

def isSeparator (q : ReferenceQt) (c : UInt16) : Bool := isSpace q c || c == 0x2c

/-- The text behind the descriptors of a candidate. -/
def skipDescriptors : (parentheses : Int) → Units → Units
  | _, [] => []
  | parentheses, c :: rest =>
    if c = 0x28 then skipDescriptors (parentheses + 1) rest
    else if c = 0x29 then skipDescriptors (parentheses - 1) rest
    else if c = 0x2c ∧ parentheses ≤ 0 then rest
    else skipDescriptors parentheses rest

/-- A text without the commas at its end. -/
def chopCommas (word : Units) : Units := (word.reverse.dropWhile (· == 0x2c)).reverse

/-- One candidate: the separators in front of it, its URL, and the text behind it. -/
structure Candidate where
  separators : Units
  value : Units
  behind : Units

/-- One round of the loop. -/
def srcsetRound (q : ReferenceQt) (text : Units) : Candidate :=
  let first := text.dropWhile (isSeparator q)
  let word := first.takeWhile fun c => !isSpace q c
  let at_ := first.dropWhile fun c => !isSpace q c
  let value := chopCommas word
  { separators := text.takeWhile (isSeparator q)
    value
    behind := if value.length ≠ word.length then at_ else skipDescriptors 0 at_ }

/-- The pieces of a candidate. -/
def Candidate.pieces (x : Candidate) (text : Units) : List Piece :=
  let behind := text.drop (x.separators.length + x.value.length)
  [.outside x.separators] ++ (if x.value = [] then [] else [.reference .plain x.value x.value]) ++
    [.outside (behind.take (behind.length - x.behind.length))]

theorem skipDescriptors_local (parentheses : Int) (text : Units) :
    ∃ raw, text = raw ++ skipDescriptors parentheses text ∧
      ∀ r', (skipDescriptors parentheses text = [] → r' = []) →
        skipDescriptors parentheses (raw ++ r') = r' := by
  fun_induction skipDescriptors parentheses text with
  | case1 parentheses =>
    refine ⟨[], rfl, fun r' h => ?_⟩
    rw [h rfl, nil_append, skipDescriptors]
  | case2 parentheses rest ih =>
    obtain ⟨raw, htext, hlocal⟩ := ih
    refine ⟨0x28 :: raw, congrArg (0x28 :: ·) htext, fun r' h => ?_⟩
    rw [cons_append, skipDescriptors, if_pos rfl, hlocal r' h]
  | case3 parentheses rest h1 ih =>
    obtain ⟨raw, htext, hlocal⟩ := ih
    refine ⟨0x29 :: raw, congrArg (0x29 :: ·) htext, fun r' h => ?_⟩
    rw [cons_append, skipDescriptors, if_neg h1, if_pos rfl, hlocal r' h]
  | case4 parentheses c rest h1 h2 h3 =>
    refine ⟨[c], rfl, fun r' _ => ?_⟩
    rw [singleton_append, skipDescriptors, if_neg h1, if_neg h2, if_pos h3]
  | case5 parentheses c rest h1 h2 h3 ih =>
    obtain ⟨raw, htext, hlocal⟩ := ih
    refine ⟨c :: raw, congrArg (c :: ·) htext, fun r' h => ?_⟩
    rw [cons_append, skipDescriptors, if_neg h1, if_neg h2, if_neg h3, hlocal r' h]

theorem skipDescriptors_lt (parentheses : Int) (c : UInt16) (rest : Units) :
    (skipDescriptors parentheses (c :: rest)).length ≤ rest.length := by
  have hle : ∀ parentheses, (skipDescriptors parentheses rest).length ≤ rest.length := by
    intro parentheses
    obtain ⟨raw, htext, _⟩ := skipDescriptors_local parentheses rest
    have := congrArg length htext
    rw [length_append] at this
    omega
  rw [skipDescriptors]
  split_ifs
  · exact hle _
  · exact hle _
  · exact le_rfl
  · exact hle _

theorem srcsetRound_length (q : ReferenceQt) (c : UInt16) (rest : Units) :
    (srcsetRound q (c :: rest)).behind.length < (c :: rest).length := by
  obtain ⟨raw, htext, _⟩ := skipDescriptors_local 0
    (((c :: rest).dropWhile (isSeparator q)).dropWhile fun c => !isSpace q c)
  have hskip := congrArg length htext
  rw [length_append] at hskip
  -- either there is a separator or the first unit belongs to the URL
  have hat : (((c :: rest).dropWhile (isSeparator q)).dropWhile fun c => !isSpace q c).length <
      (c :: rest).length := by
    by_cases hc : isSeparator q c = true
    · rw [dropWhile_cons_of_pos hc]
      have h1 : (rest.dropWhile (isSeparator q)).length ≤ rest.length :=
        (dropWhile_suffix _).length_le
      have h2 :=
        (dropWhile_suffix (l := rest.dropWhile (isSeparator q)) fun c => !isSpace q c).length_le
      simp only [length_cons]
      omega
    · rw [dropWhile_cons_of_neg hc]
      have hspace : (!isSpace q c) = true := by
        cases hs : isSpace q c with
        | false => rfl
        | true => exact absurd (by simp [isSeparator, hs]) hc
      rw [dropWhile_cons_of_pos (p := fun c => !isSpace q c) hspace]
      have := (dropWhile_suffix (l := rest) fun c => !isSpace q c).length_le
      simp only [length_cons]
      omega
  unfold srcsetRound
  dsimp only
  split
  · exact hat
  · omega

/-- The loop of `srcsetReferences`. -/
def srcsetScan (q : ReferenceQt) : Units → List Piece
  | [] => []
  | c :: rest =>
    let x := srcsetRound q (c :: rest)
    x.pieces (c :: rest) ++ srcsetScan q x.behind
termination_by text => text.length
decreasing_by exact srcsetRound_length q c rest

/-- `srcsetReferences`. -/
def srcsetReferences (q : ReferenceQt) (f : Units → Units) (text : Units) : Units :=
  applyChanges text (changesOf f 0 (srcsetScan q text))

/-- The values that `srcsetReferences` hands to its map. -/
def srcsetCollected (q : ReferenceQt) (text : Units) : List Units :=
  (srcsetScan q text).filterMap Piece.value?

/-! ### `relative` -/

/-- The parts that two paths have in common at the front. -/
def commonParts (a b : List Units) : Nat := ((a.zip b).takeWhile fun p => p.1 = p.2).length

/-- `relative`. -/
def relative (q : ReferenceQt) (base target fragment : Units) : Units :=
  let baseParts := (base.splitOn 0x2f).dropLast
  let targetParts := target.splitOn 0x2f
  let common := commonParts baseParts targetParts
  q.encoded ([0x2f].intercalate
    (List.replicate (baseParts.length - common) (lit "..") ++ targetParts.drop common)) fragment

end Hc.Document.Epub
