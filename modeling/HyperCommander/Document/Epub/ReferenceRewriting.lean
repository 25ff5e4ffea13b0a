import HyperCommander.Document.Epub.References

/-!
# Rewriting references (`commonLibs/document/epub/epubEditStructure.cpp`)

* `applyChanges_eq`: changes from the last to the first put the rewritten pieces together.
* `cssScan_rewrite`: the pieces of a rewritten style sheet are the rewritten pieces.
* `srcsetScan_rewrite`: so for `srcset`, as long as no new value begins or ends with a comma.
* `references_homomorphic`: rewriting is a homomorphism of references, for `srcset` exactly under
  that condition.
-/

namespace Hc.Document.Epub

open List Unicode

/-! ### Pieces -/

/-- A piece with the value of the map. -/
def Piece.rewrite (f : Units → Units) : Piece → Piece
  | outside raw => outside raw
  | reference spelling raw value =>
    if f value ≠ value then reference spelling (spelling.write (f value)) (f value)
    else reference spelling raw value

/-- The text of some pieces. -/
def flat (pieces : List Piece) : Units := pieces.flatMap Piece.raw

@[simp] theorem flat_nil : flat [] = [] := rfl

@[simp] theorem flat_cons (p : Piece) (pieces : List Piece) :
    flat (p :: pieces) = p.raw ++ flat pieces := rfl

@[simp] theorem flat_append (a b : List Piece) : flat (a ++ b) = flat a ++ flat b := by
  simp [flat]

/-- The changes put the rewritten pieces together. -/
theorem applyChanges_eq (f : Units → Units) (front : Units) (pieces : List Piece) :
    applyChanges (front ++ flat pieces) (changesOf f front.length pieces) =
      front ++ flat (pieces.map (Piece.rewrite f)) := by
  induction pieces generalizing front with
  | nil => rfl
  | cons p pieces ih =>
    have hrest := ih (front ++ p.raw)
    rw [append_assoc, append_assoc, length_append] at hrest
    cases p with
    | outside raw => exact hrest
    | reference spelling raw value =>
      rw [map_cons, flat_cons, flat_cons, changesOf, Piece.rewrite]
      dsimp only [Piece.raw] at hrest ⊢
      split
      · rw [applyChanges, foldr_cons]
        rw [show foldr (fun c text => text.take c.first ++ c.value ++ text.drop c.last)
          (front ++ (raw ++ flat pieces))
            (changesOf f (front.length + raw.length) pieces) = _ from hrest]
        generalize flat (pieces.map (Piece.rewrite f)) = behind
        have hdrop : (front ++ (raw ++ behind)).drop (front.length + raw.length) = behind := by
          rw [← append_assoc]
          exact drop_left' length_append
        rw [take_left, hdrop, append_assoc]
      · exact hrest

/-- The values of rewritten pieces. -/
theorem value_rewrite (f : Units → Units) (pieces : List Piece) :
    (pieces.map (Piece.rewrite f)).filterMap Piece.value? =
      (pieces.filterMap Piece.value?).map f := by
  induction pieces with
  | nil => rfl
  | cons p pieces ih =>
    cases p with
    | outside raw =>
      exact ih
    | reference spelling raw value =>
      have hvalue : (Piece.rewrite f (.reference spelling raw value)).value? = some (f value) := by
        rw [Piece.rewrite]
        split
        · rfl
        · rename_i h
          rw [not_not.1 h]
          rfl
      rw [map_cons, filterMap_cons_some hvalue, ih]
      rfl

theorem rewrite_id (pieces : List Piece) : pieces.map (Piece.rewrite id) = pieces := by
  induction pieces with
  | nil => rfl
  | cons p pieces ih =>
    rw [map_cons, ih]
    cases p with
    | outside raw => rfl
    | reference spelling raw value => simp [Piece.rewrite]

/-! ### `cssReferences` -/

section Css

variable {q : ReferenceQt} {f : Units → Units} {s s' : CssState} {c : UInt16}
  {rest raw r text : Units} {reference : Option (Spelling × Units)} {pieces : List Piece}

/-- A map whose new values are made of units of URLs. -/
def UrlMap (f : Units → Units) : Prop := ∀ v, f v = v ∨ ∀ c ∈ f v, urlUnit c

theorem cssScan_cons (h : cssRound q s c rest = some (reference, s', r)) :
    cssScan q s (c :: rest) = (cssScan q s' r).map (pieceOf (c :: rest) r reference :: ·) := by
  rw [cssScan]
  split
  · rename_i h'
    rw [h] at h'
    cases h'
  · rename_i h'
    rw [h] at h'
    cases h'
    rfl

theorem pieceOf_eq (raw r : Units) : pieceOf (raw ++ r) r reference =
    match reference with
    | none => .outside raw
    | some (spelling, value) => .reference spelling raw value := by
  cases reference <;> simp [pieceOf]

/-- The pieces of a text put together are the text, and the pieces of the rewritten text are the
rewritten pieces. -/
theorem cssScan_rewrite (hf : UrlMap f) (h : cssScan q s text = some pieces) :
    flat pieces = text ∧ Alike text (flat (pieces.map (Piece.rewrite f))) ∧
      cssScan q s (flat (pieces.map (Piece.rewrite f))) = some (pieces.map (Piece.rewrite f)) := by
  induction hn : text.length using Nat.strongRecOn generalizing s text pieces with
  | ind n ih =>
    cases text with
    | nil =>
      rw [cssScan] at h
      cases h
      exact ⟨rfl, .inl rfl, by rw [map_nil, flat_nil, cssScan]⟩
    | cons c rest =>
      cases hround : cssRound q s c rest with
      | none =>
        rw [cssScan] at h
        split at h
        · cases h
        · rename_i h'
          rw [hround] at h'
          cases h'
      | some done =>
        obtain ⟨reference, s', r⟩ := done
        rw [cssScan_cons hround] at h
        obtain ⟨pieces', hscan, rfl⟩ := Option.map_eq_some_iff.1 h
        have hlt : r.length < n := by
          have := cssRound_length hround
          simp only [length_cons] at hn
          omega
        obtain ⟨hflat, halike, hrest⟩ := ih r.length hlt hscan rfl
        obtain ⟨raw, rfl, houtside, hreference⟩ := cssRound_local hround
        rw [← cons_append, pieceOf_eq]
        cases reference with
        | none =>
          refine ⟨by rw [flat_cons, hflat]; rfl, .inl rfl, ?_⟩
          rw [map_cons, flat_cons]
          dsimp only [Piece.rewrite, Piece.raw]
          rw [cons_append, cssScan_cons (houtside rfl _ halike), hrest, ← cons_append, pieceOf_eq]
          rfl
        | some found =>
          obtain ⟨spelling, value⟩ := found
          obtain ⟨hhead, hsame, hwrite⟩ := hreference spelling value rfl
          refine ⟨by rw [flat_cons, hflat]; rfl, ?_⟩
          rw [map_cons, flat_cons]
          by_cases hv : f value = value
          · have hpiece : Piece.rewrite f (.reference spelling (c :: raw) value) =
                .reference spelling (c :: raw) value := if_neg (not_not.2 hv)
            rw [hpiece]
            refine ⟨.inl rfl, ?_⟩
            dsimp only [Piece.raw]
            rw [cons_append, cssScan_cons (hsame _), hrest, ← cons_append, pieceOf_eq]
            rfl
          · have hpiece : Piece.rewrite f (.reference spelling (c :: raw) value) =
                .reference spelling (spelling.write (f value)) (f value) := if_pos hv
            rw [hpiece]
            dsimp only [Piece.raw]
            obtain ⟨d, tail, hd, hread⟩ := hwrite (f value) ((hf value).resolve_left hv)
              (flat (pieces'.map (Piece.rewrite f)))
            rw [hd]
            refine ⟨?_, ?_⟩
            · rcases hhead with ⟨rfl, hquote⟩ | ⟨rfl, hname⟩
              · cases hd
                exact .inr (.inl ⟨c, rfl, hquote, rfl⟩)
              · cases hd
                exact .inr (.inr ⟨c, rfl, hname, rfl⟩)
            · rw [cons_append, cssScan_cons hread, hrest, ← cons_append, pieceOf_eq]
              rfl

end Css

/-! ### `srcsetReferences` -/

section Srcset

variable {q : ReferenceQt} {f : Units → Units} {text word w commas r' : Units}

/-- A URL of a candidate: not empty, and without a comma at either end. -/
def UrlName (w : Units) : Prop := w ≠ [] ∧ w.head? ≠ some 0x2c ∧ w.getLast? ≠ some 0x2c

instance (w : Units) : Decidable (UrlName w) := inferInstanceAs (Decidable (_ ∧ _ ∧ _))

theorem chopCommas_append (hw : w.getLast? ≠ some 0x2c) (hc : ∀ c ∈ commas, c = 0x2c) :
    chopCommas (w ++ commas) = w := by
  rw [chopCommas, reverse_append, dropWhile_append_of_pos fun c hm => by
    rw [hc c (mem_reverse.1 hm)]
    rfl]
  rw [getLast?_eq_head?_reverse] at hw
  cases hr : w.reverse with
  | nil => rw [reverse_eq_nil_iff.1 hr]; rfl
  | cons c rest =>
    rw [hr] at hw
    have hne : ¬(c == 0x2c) = true := by
      rw [beq_iff_eq]
      rintro rfl
      exact hw rfl
    rw [dropWhile_cons_of_neg (p := (· == 0x2c)) hne, ← hr, reverse_reverse]

theorem chopCommas_spec (word : Units) :
    ∃ commas, word = chopCommas word ++ commas ∧ (∀ c ∈ commas, c = 0x2c) ∧
      (chopCommas word).getLast? ≠ some 0x2c := by
  refine ⟨(word.reverse.takeWhile (· == 0x2c)).reverse, ?_, ?_, ?_⟩
  · rw [chopCommas, ← reverse_append, takeWhile_append_dropWhile, reverse_reverse]
  · intro c hc
    have := mem_takeWhile_imp (mem_reverse.1 hc)
    simpa using this
  · rw [chopCommas, getLast?_eq_head?_reverse, reverse_reverse]
    intro h
    have := head?_dropWhile_not (· == (0x2c : UInt16)) word.reverse
    rw [h] at this
    simp at this

/-- A candidate that is written in front of a text that does not go on with it is read back. -/
theorem srcsetRound_read {separators at_ : Units} (hs : ∀ c ∈ separators, isSeparator q c = true)
    (hw : UrlName w) (hword : ∀ c ∈ w, isSpace q c = false) (hc : ∀ c ∈ commas, c = 0x2c)
    (hat : ∀ c ∈ at_.head?, isSpace q c = true) :
    srcsetRound q (separators ++ (w ++ (commas ++ at_))) =
      { separators, value := w, behind := if commas = [] then skipDescriptors 0 at_ else at_ } := by
  obtain ⟨c, rest, rfl⟩ := exists_cons_of_ne_nil hw.1
  have hfront : ¬isSeparator q c = true := by
    rw [isSeparator, hword c mem_cons_self, Bool.false_or, beq_iff_eq]
    rintro rfl
    exact hw.2.1 rfl
  have hall : ∀ d ∈ (c :: rest) ++ commas, (!isSpace q d) = true := by
    intro d hd
    rcases mem_append.1 hd with hd | hd
    · rw [hword d hd]
      rfl
    · rw [hc d hd]
      rfl
  have htake : (separators ++ ((c :: rest) ++ (commas ++ at_))).takeWhile (isSeparator q) =
      separators := by
    rw [takeWhile_append_of_pos hs, cons_append, takeWhile_cons_of_neg hfront,
      append_nil]
  have hdrop : (separators ++ ((c :: rest) ++ (commas ++ at_))).dropWhile (isSeparator q) =
      ((c :: rest) ++ commas) ++ at_ := by
    rw [dropWhile_append_of_pos hs, cons_append, dropWhile_cons_of_neg hfront,
      ← cons_append, append_assoc]
  have hword' : (((c :: rest) ++ commas) ++ at_).takeWhile (fun d => !isSpace q d) =
      (c :: rest) ++ commas := by
    rw [takeWhile_append_of_pos hall]
    cases at_ with
    | nil => rw [takeWhile_nil, append_nil]
    | cons d at_ =>
      rw [takeWhile_cons_of_neg (by rw [hat d rfl]; decide), append_nil]
  have hat' : (((c :: rest) ++ commas) ++ at_).dropWhile (fun d => !isSpace q d) = at_ := by
    rw [dropWhile_append_of_pos hall]
    cases at_ with
    | nil => rfl
    | cons d at_ => exact dropWhile_cons_of_neg (by rw [hat d rfl]; decide)
  unfold srcsetRound
  dsimp only
  rw [htake, hdrop, hword', hat', chopCommas_append hw.2.2 hc]
  cases commas with
  | nil => simp
  | cons d commas => simp

/-- What a round reads, and that it reads another URL in the same place. -/
theorem srcsetRound_spec (q : ReferenceQt) (text : Units) :
    ∃ tail, text = (srcsetRound q text).separators ++
        ((srcsetRound q text).value ++ (tail ++ (srcsetRound q text).behind)) ∧
      (∀ c ∈ text.head?, isSpace q c = true → (srcsetRound q text).separators.head? = some c) ∧
      (∀ c ∈ (srcsetRound q text).value, isSpace q c = false) ∧
      ((srcsetRound q text).value = [] ∧ tail = [] ∧ (srcsetRound q text).behind = [] ∨
        UrlName (srcsetRound q text).value ∧ ∀ w r', UrlName w → (∀ c ∈ w, isSpace q c = false) →
          ((srcsetRound q text).behind = [] → r' = []) →
          (∀ c ∈ (srcsetRound q text).behind.head?, isSpace q c = true → r'.head? = some c) →
          srcsetRound q ((srcsetRound q text).separators ++ (w ++ (tail ++ r'))) =
            { separators := (srcsetRound q text).separators, value := w, behind := r' }) := by
  obtain ⟨commas, hword, hcommas, hlast⟩ :=
    chopCommas_spec ((text.dropWhile (isSeparator q)).takeWhile fun c => !isSpace q c)
  have hseparators : ∀ c ∈ text.takeWhile (isSeparator q), isSeparator q c = true :=
    fun c hc => mem_takeWhile_imp hc
  have hsplit : text = text.takeWhile (isSeparator q) ++ text.dropWhile (isSeparator q) :=
    takeWhile_append_dropWhile.symm
  have hfirst : text.dropWhile (isSeparator q) =
      ((text.dropWhile (isSeparator q)).takeWhile fun c => !isSpace q c) ++
        (text.dropWhile (isSeparator q)).dropWhile fun c => !isSpace q c :=
    takeWhile_append_dropWhile.symm
  have hnospace : ∀ c ∈ (text.dropWhile (isSeparator q)).takeWhile fun c => !isSpace q c,
      isSpace q c = false := by
    intro c hc
    simpa using mem_takeWhile_imp hc
  have hhead : ∀ c ∈ (text.dropWhile (isSeparator q)).head?, isSeparator q c = false := by
    intro c hc
    have := head?_dropWhile_not (isSeparator q) text
    rw [Option.mem_def.1 hc] at this
    simpa using this
  have hat : ∀ c ∈ ((text.dropWhile (isSeparator q)).dropWhile fun c => !isSpace q c).head?,
      isSpace q c = true := by
    intro c hc
    have := head?_dropWhile_not (fun c => !isSpace q c) (text.dropWhile (isSeparator q))
    rw [Option.mem_def.1 hc] at this
    simpa using this
  have hfront : ∀ c ∈ text.head?, isSpace q c = true →
      (text.takeWhile (isSeparator q)).head? = some c := by
    intro c hc hs
    cases text with
    | nil => cases hc
    | cons d rest =>
      cases hc
      rw [takeWhile_cons_of_pos (by simp [isSeparator, hs])]
      rfl
  have hround : srcsetRound q text = ⟨text.takeWhile (isSeparator q),
    chopCommas ((text.dropWhile (isSeparator q)).takeWhile fun c => !isSpace q c), _⟩ := rfl
  rw [hround]
  generalize text.takeWhile (isSeparator q) = separators at hseparators hsplit hfront ⊢
  generalize text.dropWhile (isSeparator q) =
    first at hword hsplit hfirst hnospace hhead hat hlast ⊢
  generalize (first.dropWhile fun c => !isSpace q c) = at_ at hfirst hat ⊢
  generalize (first.takeWhile fun c => !isSpace q c) = word at hword hfirst hnospace hlast ⊢
  subst hfirst
  have hvalue : ∀ c ∈ chopCommas word, isSpace q c = false := by
    intro c hc
    refine hnospace c ?_
    rw [hword]
    exact mem_append_left _ hc
  by_cases hempty : word = []
  · subst hempty
    have hnone : at_ = [] := by
      cases at_ with
      | nil => rfl
      | cons c at_ =>
        have h1 := hhead c rfl
        rw [isSeparator, hat c rfl] at h1
        cases h1
    subst hnone
    refine ⟨[], ?_, hfront, hvalue, .inl ⟨rfl, rfl, ?_⟩⟩
    · simpa [chopCommas, skipDescriptors] using hsplit
    · simp [chopCommas, skipDescriptors]
  · have hcomma : word.head? ≠ some 0x2c := by
      intro h
      obtain ⟨d, rest, rfl⟩ := exists_cons_of_ne_nil hempty
      cases h
      exact absurd (hhead 0x2c rfl) (by simp [isSeparator])
    have hurl : UrlName (chopCommas word) := by
      refine ⟨fun h => ?_, fun h => ?_, hlast⟩
      · rw [h, nil_append] at hword
        obtain ⟨d, rest, rfl⟩ := exists_cons_of_ne_nil hempty
        exact hcomma (by rw [head?_cons, hcommas d (hword ▸ mem_cons_self)])
      · refine hcomma ?_
        rw [hword]
        cases hv : chopCommas word with
        | nil =>
          rw [hv] at h
          cases h
        | cons d rest =>
          rw [hv] at h
          exact h
    have hlength : (chopCommas word).length ≠ word.length ↔ commas ≠ [] := by
      have := congrArg length hword
      rw [length_append] at this
      rw [← length_pos_iff]
      omega
    simp only [hlength]
    by_cases hc : commas = []
    · subst hc
      obtain ⟨raw, htext, hlocal⟩ := skipDescriptors_local 0 at_
      rw [if_neg (by simp)]
      refine ⟨raw, ?_, hfront, hvalue, .inr ⟨hurl, fun w r' hw hwords hend _ => ?_⟩⟩
      · rw [← htext]
        rw [append_nil] at hword
        rwa [← hword]
      · have hspaces : ∀ c ∈ (raw ++ r').head?, isSpace q c = true := by
          intro c hc
          cases raw with
          | cons d raw =>
            refine hat c ?_
            rw [htext]
            exact hc
          | nil =>
            -- nothing was skipped, so nothing was there
            have hnil : at_ = [] := by
              cases at_ with
              | nil => rfl
              | cons d at_ =>
                have := skipDescriptors_lt 0 d at_
                rw [nil_append] at htext
                rw [← htext] at this
                simp only [length_cons] at this
                omega
            rw [hnil] at hend
            rw [hend rfl] at hc
            cases hc
        have := srcsetRound_read hseparators hw hwords
          (show ∀ c ∈ ([] : Units), c = 0x2c by simp) hspaces
        rw [nil_append] at this
        rw [this, if_pos rfl, hlocal r' hend]
    · rw [if_pos hc]
      refine ⟨commas, ?_, hfront, hvalue, .inr ⟨hurl, fun w r' hw hwords hend hkeep => ?_⟩⟩
      · rw [← append_assoc (chopCommas word), ← hword]
        exact hsplit
      · rw [srcsetRound_read hseparators hw hwords hcommas, if_neg hc]
        intro c hc
        cases at_ with
        | nil =>
          rw [hend rfl] at hc
          cases hc
        | cons d at_ =>
          have hd := hat d rfl
          rw [hkeep d rfl hd] at hc
          cases hc
          exact hd

/-- The reference of a candidate that has one. -/
def candidateReference (value : Units) : List Piece :=
  if value = [] then [] else [.reference .plain value value]

theorem pieces_eq {x : Candidate} {tail : Units}
    (h : text = x.separators ++ (x.value ++ (tail ++ x.behind))) :
    x.pieces text = .outside x.separators :: (candidateReference x.value ++ [.outside tail]) := by
  have hdrop : text.drop (x.separators.length + x.value.length) = tail ++ x.behind := by
    rw [h, ← append_assoc]
    exact drop_left' length_append
  rw [Candidate.pieces, hdrop, length_append, Nat.add_sub_cancel, take_left]
  rfl

theorem srcsetScan_eq (hne : text ≠ []) :
    srcsetScan q text = (srcsetRound q text).pieces text ++
      srcsetScan q (srcsetRound q text).behind := by
  obtain ⟨c, rest, rfl⟩ := exists_cons_of_ne_nil hne
  rw [srcsetScan]

theorem flat_candidateReference (value : Units) : flat (candidateReference value) = value := by
  unfold candidateReference
  split
  · rename_i h
    rw [h]
    rfl
  · simp [Piece.raw]

/-- The values of a candidate and of what is behind it. -/
theorem collected_cons {x : Candidate} {tail : Units} (hne : text ≠ [])
    (hx : srcsetRound q text = x) (h : text = x.separators ++ (x.value ++ (tail ++ x.behind))) :
    srcsetCollected q text =
      (if x.value = [] then [] else [x.value]) ++ srcsetCollected q x.behind := by
  rw [srcsetCollected, srcsetScan_eq hne, hx, pieces_eq h, filterMap_append,
    filterMap_cons_none rfl,
    filterMap_append, candidateReference, srcsetCollected]
  split <;> simp [Piece.value?]

/-- Everything that is collected is a URL of a candidate, without white space. -/
theorem urlName_of_collected (q : ReferenceQt) (text : Units) :
    ∀ v ∈ srcsetCollected q text, UrlName v ∧ ∀ c ∈ v, isSpace q c = false := by
  induction hn : text.length using Nat.strongRecOn generalizing text with
  | ind n ih =>
    by_cases hne : text = []
    · subst hne
      simp [srcsetCollected, srcsetScan]
    · obtain ⟨tail, htext, _, hspace, hread⟩ := srcsetRound_spec q text
      have hlt : (srcsetRound q text).behind.length < n := by
        obtain ⟨c, rest, rfl⟩ := exists_cons_of_ne_nil hne
        have := srcsetRound_length q c rest
        omega
      rw [collected_cons hne rfl htext]
      intro v hv
      rcases mem_append.1 hv with hv | hv
      · split at hv
        · cases hv
        · rename_i hvalue
          rw [mem_singleton] at hv
          subst hv
          rcases hread with ⟨h, _⟩ | ⟨hurl, _⟩
          · exact absurd h hvalue
          · exact ⟨hurl, hspace⟩
      · exact ih _ hlt _ rfl v hv

/-- The pieces of a text put together are the text, and with URLs as new values the pieces of the
rewritten text are the rewritten pieces. -/
theorem srcsetScan_rewrite
    (hf : ∀ v ∈ srcsetCollected q text, UrlName (f v) ∧ ∀ c ∈ f v, isSpace q c = false) :
    flat (srcsetScan q text) = text ∧
      (text = [] → flat ((srcsetScan q text).map (Piece.rewrite f)) = []) ∧
      (∀ c ∈ text.head?, isSpace q c = true →
        (flat ((srcsetScan q text).map (Piece.rewrite f))).head? = some c) ∧
      srcsetScan q (flat ((srcsetScan q text).map (Piece.rewrite f))) =
        (srcsetScan q text).map (Piece.rewrite f) := by
  induction hn : text.length using Nat.strongRecOn generalizing text with
  | ind n ih =>
    by_cases hne : text = []
    · subst hne
      rw [srcsetScan]
      refine ⟨rfl, fun _ => rfl, fun c hc => (by cases hc), ?_⟩
      rw [map_nil, flat_nil, srcsetScan]
    · obtain ⟨tail, htext, hfront, hspace, hread⟩ := srcsetRound_spec q text
      have hlt : (srcsetRound q text).behind.length < n := by
        obtain ⟨c, rest, rfl⟩ := exists_cons_of_ne_nil hne
        have := srcsetRound_length q c rest
        omega
      rw [collected_cons hne rfl htext] at hf
      rw [srcsetScan_eq hne, pieces_eq htext]
      generalize hx : srcsetRound q text = x at htext hfront hspace hread hlt hf ⊢
      obtain ⟨hflat, hnil, hhead, hscan⟩ := ih _ hlt (fun v hv => hf v (mem_append_right _ hv)) rfl
      generalize srcsetScan q x.behind = pieces at hflat hnil hhead hscan ⊢
      -- the candidate with the value of the map
      obtain ⟨w, hw, hwrite⟩ : ∃ w,
        (candidateReference x.value).map (Piece.rewrite f) = candidateReference w ∧
          (x.value = [] ∧ w = [] ∨ x.value ≠ [] ∧ UrlName w ∧ ∀ c ∈ w, isSpace q c = false) := by
        by_cases hv : x.value = []
        · exact ⟨[], by rw [hv]; rfl, .inl ⟨hv, rfl⟩⟩
        · obtain ⟨hurl, hwords⟩ := hf x.value (by simp [hv])
          refine ⟨f x.value, ?_, .inr ⟨hv, hurl, hwords⟩⟩
          rw [candidateReference, candidateReference, if_neg hv, if_neg hurl.1, map_singleton,
            Piece.rewrite]
          split
          · rfl
          · rename_i h
            rw [not_not.1 h]
      have hmap : (Piece.outside x.separators ::
        (candidateReference x.value ++ [.outside tail]) ++ pieces).map
          (Piece.rewrite f) = .outside x.separators :: (candidateReference w ++ [.outside tail]) ++
            pieces.map (Piece.rewrite f) := by
        rw [map_append, map_cons, map_append, hw]
        rfl
      rw [hmap]
      generalize pieces.map (Piece.rewrite f) = pieces' at hnil hhead hscan ⊢
      have hnew : flat (.outside x.separators ::
        (candidateReference w ++ [.outside tail]) ++ pieces') =
          x.separators ++ (w ++ (tail ++ flat pieces')) := by
        simp [flat_candidateReference, Piece.raw]
      rw [hnew]
      refine ⟨?_, fun h => absurd h hne, fun c hc hs => ?_, ?_⟩
      · rw [flat_append, flat_cons, flat_append, flat_candidateReference, hflat]
        conv_rhs => rw [htext]
        simp [Piece.raw]
      · have := hfront c hc hs
        cases hsep : x.separators with
        | nil =>
          rw [hsep] at this
          cases this
        | cons d separators =>
          rw [hsep] at this
          exact this
      · have hround : srcsetRound q (x.separators ++ (w ++ (tail ++ flat pieces'))) =
            { separators := x.separators, value := w, behind := flat pieces' } := by
          rcases hwrite with ⟨hv, rfl⟩ | ⟨hv, hurl, hwords⟩
          · obtain ⟨_, htail, hbehind⟩ := hread.resolve_right fun h => h.1.1 hv
            rw [htail, hnil hbehind]
            rw [hv, htail, hbehind] at htext
            rw [← htext, hx]
            cases x
            dsimp only at hv hbehind ⊢
            rw [hv, hbehind]
          · exact (hread.resolve_left fun h => hv h.1).2 w _ hurl hwords hnil hhead
        have hsome : x.separators ++ (w ++ (tail ++ flat pieces')) ≠ [] := by
          intro h
          rcases hwrite with ⟨hv, rfl⟩ | ⟨_, hurl, _⟩
          · obtain ⟨_, htail, hbehind⟩ := hread.resolve_right fun h => h.1.1 hv
            rw [hv, htail, hbehind, (append_eq_nil_iff.1 h).1] at htext
            exact hne htext
          · exact hurl.1 (append_eq_nil_iff.1 (append_eq_nil_iff.1 h).2).1
        rw [srcsetScan_eq hsome, hround, hscan, pieces_eq rfl]

/-- A reference of a `srcset` is written as its value. -/
theorem plain_of_mem_scan (q : ReferenceQt) (text : Units) :
    ∀ p ∈ srcsetScan q text, (∃ raw, p = .outside raw) ∨ ∃ v, p = .reference .plain v v := by
  fun_induction srcsetScan q text with
  | case1 => simp
  | case2 c rest x ih =>
    intro p hp
    rcases mem_append.1 hp with hp | hp
    · rw [Candidate.pieces] at hp
      simp only [mem_append, mem_singleton] at hp
      rcases hp with (rfl | hp) | rfl
      · exact .inl ⟨_, rfl⟩
      · split at hp
        · cases hp
        · rw [mem_singleton] at hp
          exact .inr ⟨_, hp⟩
      · exact .inl ⟨_, rfl⟩
    · exact ih p hp

/-- Two maps, one after the other, on such pieces. -/
theorem rewrite_rewrite {g : Units → Units} {pieces : List Piece}
    (h : ∀ p ∈ pieces, (∃ raw, p = .outside raw) ∨ ∃ v, p = .reference .plain v v) :
    (pieces.map (Piece.rewrite f)).map (Piece.rewrite g) = pieces.map (Piece.rewrite (g ∘ f)) := by
  have hplain : ∀ (f : Units → Units) (v : Units),
      Piece.rewrite f (.reference .plain v v) = .reference .plain (f v) (f v) := by
    intro f v
    rw [Piece.rewrite]
    split
    · rfl
    · rename_i h
      rw [not_not.1 h]
  rw [map_map]
  refine map_congr_left fun p hp => ?_
  rcases h p hp with ⟨raw, rfl⟩ | ⟨v, rfl⟩
  · rfl
  · rw [Function.comp, hplain, hplain, hplain, Function.comp]

end Srcset

/-! ### Homomorphisms -/

/-- Rewriting with two maps: the identity changes nothing, the references of the rewritten text are
the rewritten references, two maps are one, and everything outside of references stays. -/
structure Homomorphic (rewrite : (Units → Units) → Units → Option Units)
    (collected : Units → Option (List Units)) (text : Units) (f g : Units → Units) : Prop where
  identity : rewrite id text = some text
  mapped : ∃ values text₁, collected text = some values ∧ rewrite f text = some text₁ ∧
    collected text₁ = some (values.map f)
  composed : ∃ text₁ text₂ text₃, rewrite f text = some text₁ ∧ rewrite g text₁ = some text₂ ∧
    rewrite (g ∘ f) text = some text₃ ∧ collected text₂ = collected text₃
  outside : ∃ pieces, flat pieces = text ∧ collected text = some (pieces.filterMap Piece.value?) ∧
    rewrite f text = some (flat (pieces.map (Piece.rewrite f)))

/-- A map whose new values are relative paths. -/
def Produced (q : ReferenceQt) (f : Units → Units) : Prop :=
  ∀ v, f v = v ∨ ∃ base target fragment, f v = relative q base target fragment

section Maps

variable {q : ReferenceQt} {f g : Units → Units} {text : Units}

theorem Produced.urlMap (h : Produced q f) : UrlMap f := by
  intro v
  rcases h v with h | ⟨base, target, fragment, h⟩
  · exact .inl h
  · refine .inr fun c hc => ?_
    rw [h] at hc
    exact q.urlUnit_of_mem _ _ c hc

theorem Produced.comp (hf : Produced q f) (hg : Produced q g) : Produced q (g ∘ f) := by
  intro v
  rcases hg (f v) with h | h
  · rcases hf v with h' | ⟨base, target, fragment, h'⟩
    · exact .inl (by rw [Function.comp, h, h'])
    · exact .inr ⟨base, target, fragment, by rw [Function.comp, h, h']⟩
  · exact .inr h

theorem applyChanges_flat (f : Units → Units) (pieces : List Piece) :
    applyChanges (flat pieces) (changesOf f 0 pieces) = flat (pieces.map (Piece.rewrite f)) := by
  have := applyChanges_eq f [] pieces
  rwa [nil_append, nil_append] at this

/-- A style sheet that is not rejected. -/
theorem css_homomorphic (hf : Produced q f) (hg : Produced q g) (h : (cssCollected q text).isSome) :
    Homomorphic (cssReferences q) (cssCollected q) text f g := by
  obtain ⟨pieces, hscan⟩ : ∃ pieces, cssScan q {} text = some pieces := by
    rw [cssCollected, Option.isSome_map] at h
    exact Option.isSome_iff_exists.1 h
  have hpieces : ∀ {f : Units → Units} {text pieces}, Produced q f →
    cssScan q {} text = some pieces →
      cssReferences q f text = some (flat (pieces.map (Piece.rewrite f))) ∧
        cssScan q {} (flat (pieces.map (Piece.rewrite f))) =
          some (pieces.map (Piece.rewrite f)) := by
    intro f text pieces hf hscan
    obtain ⟨hflat, _, hread⟩ := cssScan_rewrite hf.urlMap hscan
    refine ⟨?_, hread⟩
    rw [cssReferences, hscan, Option.map_some, ← hflat, applyChanges_flat]
  have hcollected : ∀ {text pieces}, cssScan q {} text = some pieces →
      cssCollected q text = some (pieces.filterMap Piece.value?) := by
    intro text pieces h
    rw [cssCollected, h, Option.map_some]
  obtain ⟨hwrite, hread⟩ := hpieces hf hscan
  obtain ⟨hwrite₂, hread₂⟩ := hpieces hg hread
  obtain ⟨hwrite₃, hread₃⟩ := hpieces (hf.comp hg) hscan
  have hflat := (cssScan_rewrite hf.urlMap hscan).1
  refine ⟨?_, ⟨_, _, hcollected hscan, hwrite, ?_⟩, ⟨_, _, _, hwrite, hwrite₂, hwrite₃, ?_⟩,
    ⟨pieces, hflat, hcollected hscan, hwrite⟩⟩
  · obtain ⟨hid, _⟩ := hpieces (f := id) (fun v => .inl rfl) hscan
    rw [hid, rewrite_id, hflat]
  · rw [hcollected hread, value_rewrite]
  · rw [hcollected hread₂, hcollected hread₃, value_rewrite, value_rewrite, value_rewrite, map_map]

/-- A `srcset` whose new values are URLs of candidates. -/
theorem srcset_homomorphic (hf : Produced q f) (g : Units → Units)
    (h : ∀ v ∈ srcsetCollected q text, UrlName (f v)) :
    Homomorphic (fun f text => some (srcsetReferences q f text))
      (fun text => some (srcsetCollected q text))
      text f g := by
  have hspaces : ∀ {f : Units → Units} {text}, Produced q f → ∀ v ∈ srcsetCollected q text,
      ∀ c ∈ f v, isSpace q c = false := by
    intro f text hf v hv c hc
    rcases hf.urlMap v with h | h
    · rw [h] at hc
      exact (urlName_of_collected q text v hv).2 c hc
    · exact (urlUnit_spec (h c hc)).1
  obtain ⟨hflat, _, _, hread⟩ := srcsetScan_rewrite fun v hv => ⟨h v hv, hspaces hf v hv⟩
  have hwrite : ∀ (f : Units → Units) {text : Units}, flat (srcsetScan q text) = text →
      srcsetReferences q f text = flat ((srcsetScan q text).map (Piece.rewrite f)) := by
    intro f text hflat
    have := applyChanges_flat f (srcsetScan q text)
    rwa [hflat] at this
  have hread' : srcsetScan q (srcsetReferences q f text) =
      (srcsetScan q text).map (Piece.rewrite f) := by
    rw [hwrite f hflat]
    exact hread
  have hflat' : flat (srcsetScan q (srcsetReferences q f text)) = srcsetReferences q f text := by
    rw [hread', hwrite f hflat]
  refine ⟨?_, ⟨_, _, rfl, rfl, ?_⟩, ⟨_, _, _, rfl, rfl, rfl, ?_⟩,
    ⟨srcsetScan q text, hflat, rfl, ?_⟩⟩
  · rw [hwrite id hflat, rewrite_id, hflat]
  · rw [srcsetCollected, hread', value_rewrite, srcsetCollected]
  · rw [hwrite g hflat', hread', rewrite_rewrite (plain_of_mem_scan q text), hwrite (g ∘ f) hflat]
  · rw [hwrite f hflat]

end Maps

/-- On every style sheet that is not rejected rewriting is a homomorphism of references; on a
`srcset` it is one exactly if every reference gets a value that is not empty and has no comma at
either end. -/
theorem references_homomorphic (q : ReferenceQt) (f g : Units → Units) (hf : Produced q f)
    (hg : Produced q g) (text : Units) :
    ((cssCollected q text).isSome → Homomorphic (cssReferences q) (cssCollected q) text f g) ∧
      (Homomorphic (fun f text => some (srcsetReferences q f text))
        (fun text => some (srcsetCollected q text)) text f g ↔
          ∀ v ∈ srcsetCollected q text, UrlName (f v)) := by
  refine ⟨css_homomorphic hf hg, fun h v hv => ?_, srcset_homomorphic hf g⟩
  obtain ⟨values, text₁, hvalues, htext₁, hmap⟩ := h.mapped
  cases hvalues
  refine (urlName_of_collected q text₁ (f v) ?_).1
  rw [Option.some.inj hmap]
  exact mem_map_of_mem hv

instance (c : UInt16) : Decidable (urlUnit c) := inferInstanceAs (Decidable (_ ∧ _ ∧ _ ∧ _))

/-- Qt on ASCII; a URL drops what it would have to encode. -/
def asciiQt : ReferenceQt where
  spaceAbove _ := false
  lowerAbove := id
  toLower text := text.map fun c => if 0x41 ≤ c ∧ c ≤ 0x5a then c + 0x20 else c
  toLower_url := by decide
  encoded path fragment :=
    (path ++ if fragment = [] then [] else 0x23 :: fragment).filter (urlUnit ·)
  urlUnit_of_mem path fragment c hc := by simpa using (List.mem_filter.1 hc).2

/-- `a.png` is renamed. -/
def renamed (target : Units) (v : Units) : Units :=
  if v = lit "a.png" then relative asciiQt (lit "c.xhtml") target [] else v

theorem produced_renamed (target : Units) : Produced asciiQt (renamed target) := by
  intro v
  unfold renamed
  split
  · exact .inr ⟨_, _, _, rfl⟩
  · exact .inl rfl

theorem references_homomorphic_png :
    ((cssCollected asciiQt (lit "a.png 1x, b.png 2x")).isSome →
      Homomorphic (cssReferences asciiQt) (cssCollected asciiQt) (lit "a.png 1x, b.png 2x")
        (renamed (lit "d.png")) id) ∧
      (Homomorphic (fun f text => some (srcsetReferences asciiQt f text))
          (fun text => some (srcsetCollected asciiQt text)) (lit "a.png 1x, b.png 2x")
          (renamed (lit "d.png")) id ↔
        ∀ v ∈ srcsetCollected asciiQt (lit "a.png 1x, b.png 2x"),
          UrlName (renamed (lit "d.png") v)) :=
  references_homomorphic asciiQt (renamed (lit "d.png")) id (produced_renamed _) (fun _ => .inl rfl)
    (lit "a.png 1x, b.png 2x")

/-- The name `x,` is written into a `srcset` as it is, and read back without its comma. -/
theorem srcset_comma :
    srcsetReferences asciiQt (renamed (lit "x,")) (lit "a.png 1x") = lit "x, 1x" ∧
      srcsetCollected asciiQt (lit "a.png 1x") = [lit "a.png"] ∧
      srcsetCollected asciiQt (lit "x, 1x") = [lit "x", lit "1x"] ∧
      ¬Homomorphic (fun f text => some (srcsetReferences asciiQt f text))
        (fun text => some (srcsetCollected asciiQt text)) (lit "a.png 1x")
          (renamed (lit "x,")) id := by
  have htext : srcsetReferences asciiQt (renamed (lit "x,")) (lit "a.png 1x") = lit "x, 1x" := by
    decide +kernel
  have hvalues : srcsetCollected asciiQt (lit "x, 1x") = [lit "x", lit "1x"] := by decide +kernel
  refine ⟨htext, by decide +kernel, hvalues, fun h => ?_⟩
  obtain ⟨values, text₁, hold, hnew, hmap⟩ := h.mapped
  have hlength : values.length = 1 := by
    rw [← Option.some.inj hold]
    decide +kernel
  rw [htext] at hnew
  rw [← Option.some.inj hnew, hvalues, Option.some.injEq] at hmap
  have := congrArg length hmap
  rw [length_map, hlength] at this
  exact absurd this (by decide)

end Hc.Document.Epub
