import HyperCommander.Text.FileNameGlobLemmas
import Mathlib.Data.List.Chain

/-!
# The meaning of a compiled glob

* `readTokens_sparse`, `readTokens_plain`: stars are merged, and a pattern without `*`, `?` and `[`
  is compiled to its folded points.
* `cutRuns_tokens`: the runs and the stars between them are the tokens.
* `lastRow_row`: the table follows the tokens.
* `matches_exactly`: a glob matches what its tokens mean, on every name, unless a literal pattern
  has an unpaired surrogate.
-/

namespace Hc.Text

open List Unicode Glob

variable {casing : Casing}

/-- A token in terms of the library. -/
def Token.tok (casing : Casing) (token : Token) : Tok Nat :=
  if token.kind = .star then .many fun p => separator p = false
  else .one fun p => accepts casing token p = true

theorem Casing.Documented.fold_eq (hd : casing.Documented) (p : Nat) :
    fold casing p = casing.toCaseFolded p := by
  unfold fold
  split
  · rw [hd.ascii p ‹_›]
  · rfl

theorem takes_tok (hd : casing.Documented) (token : Token) (part : List Nat) :
    token.Takes casing part ↔ (token.tok casing).Takes part := by
  unfold Token.Takes Token.tok
  cases hk : token.kind <;> simp [Tok.Takes, accepts, hk, hd.fold_eq]

theorem splits_iff (hd : casing.Documented) {tokens : List Token} {name : List Nat} :
    Splits casing tokens name ↔ Glob.Splits (tokens.map (Token.tok casing)) name := by
  refine exists_congr fun parts => and_congr_right fun _ => ?_
  rw [forall₂_map_left_iff]
  have he : Token.Takes casing = fun token part => (token.tok casing).Takes part := by
    funext token part
    exact propext (takes_tok hd token part)
  rw [he]

/-! ### The table -/

section Table

variable {s : List (Tok Nat)} {tokens : List Token} {name : Units} {xs ps : List Nat} {p i : Nat}
  {left : Bool} {previous : List Bool}

theorem firstRow_row (h : left = true ↔ Glob.Splits s []) :
    Row s (tokens.map (Token.tok casing)) [] (firstRow left tokens) := by
  induction tokens generalizing s left with
  | nil => exact row_nil h
  | cons token tokens ih =>
    refine Row.cons h (ih ?_)
    unfold Token.tok
    split
    · rename_i hk
      simp [splits_concat_many_nil, hk, h]
    · rename_i hk
      simp [not_splits_concat_one_nil, hk]

theorem nextRow_row (h : Row s (tokens.map (Token.tok casing)) xs previous)
    (hl : left = true ↔ Glob.Splits s (xs ++ [p])) :
    Row s (tokens.map (Token.tok casing)) (xs ++ [p]) (nextRow casing p left tokens previous) := by
  induction tokens generalizing s left previous with
  | nil => exact row_nil hl
  | cons token tokens ih =>
    obtain ⟨b, row, rfl⟩ := exists_cons_of_ne_nil h.ne_nil
    have ht : Row (s ++ [token.tok casing]) (tokens.map (Token.tok casing)) xs row := h.tail
    obtain ⟨b', row', rfl⟩ := exists_cons_of_ne_nil ht.ne_nil
    refine Row.cons hl (ih ht ?_)
    have hb := h.head
    have hb' := ht.head
    unfold Token.tok at hb' ⊢
    by_cases hk : token.kind = .star
    · rw [if_pos hk] at hb' ⊢
      rw [if_pos hk, splits_concat_many, ← hl, ← hb']
      simp [and_comm]
    · rw [if_neg hk] at hb' ⊢
      rw [if_neg hk, splits_concat_one, ← hb]
      simp [and_comm]

theorem lastRow_row (h : Spans name i name.length ps)
    (hr : Row [] (tokens.map (Token.tok casing)) xs previous) :
    Row [] (tokens.map (Token.tok casing)) (xs ++ ps) (lastRow casing tokens name previous i) := by
  induction ps generalizing i xs previous with
  | nil =>
    rw [lastRow, if_neg (by have := h.eq_of_nil; omega), append_nil]
    exact hr
  | cons p ps ih =>
    obtain ⟨hp, hs⟩ := h.next
    rw [lastRow, if_pos h.lt_of_cons, hp, append_cons]
    refine ih hs (nextRow_row hr ?_)
    simp

/-- The table answers whether the points of the name split among the tokens. -/
theorem lastRow_spec (name : Units) :
    (lastRow casing tokens name (firstRow true tokens) 0).getD tokens.length false = true ↔
      Glob.Splits (tokens.map (Token.tok casing)) (points name) := by
  have hf : Row [] (tokens.map (Token.tok casing)) [] (firstRow true tokens) :=
    firstRow_row (by simp)
  have hr := lastRow_row (spans_whole name) hf
  rw [nil_append] at hr
  rw [← hr.last, length_map, getD_eq_getElem?_getD]
  cases (lastRow casing tokens name (firstRow true tokens) 0)[tokens.length]? <;> simp

end Table

/-! ### Patterns of literals and stars -/

/-- No two stars stand side by side. -/
def Sparse (tokens : List Token) : Prop :=
  tokens.IsChain fun a b => ¬(a.kind = .star ∧ b.kind = .star)

section Runs

variable {tokens : List Token} {run : List Nat}

/-- The tokens of runs with a star between each two. -/
def weave (casing : Casing) : List (List Nat) → List (Tok Nat)
  | [] => []
  | run :: runs =>
    (run.map fun c => .one fun p => fold casing p = c) ++
      runs.flatMap fun run =>
        .many (fun p => separator p = false) :: run.map fun c => .one fun p => fold casing p = c

theorem weave_between (first last : List Nat) (inner : List (List Nat)) :
    weave casing (first :: (inner ++ [last])) =
      (first.map fun c => .one fun p => fold casing p = c) ++
        (between (.many fun p => separator p = false)
          (fun c => .one fun p => fold casing p = c) inner ++
          last.map fun c => .one fun p => fold casing p = c) := by
  have hshift : ∀ runs : List (List Nat),
      (runs.flatMap fun run => Tok.many (fun p => separator p = false) ::
          run.map fun c => Tok.one fun p => fold casing p = c) ++
        [.many fun p => separator p = false] =
      between (.many fun p => separator p = false)
        (fun c => .one fun p => fold casing p = c) runs := by
    intro runs
    induction runs with
    | nil => rfl
    | cons run runs ih =>
      rw [flatMap_cons, append_assoc, ih]
      simp [between]
  rw [weave, flatMap_append, ← hshift]
  simp

theorem cutRuns_ne_nil : cutRuns run tokens ≠ [] := by
  induction tokens generalizing run with
  | nil => simp [cutRuns]
  | cons token tokens ih =>
    rw [cutRuns]
    split
    · simp
    · exact ih

/-- The runs and the stars between them are the tokens. -/
theorem cutRuns_tokens (casing : Casing) (h : ∀ token ∈ tokens, token.plain = true)
    (run : List Nat) :
    weave casing (cutRuns run tokens) =
      (run.map fun c => .one fun p => fold casing p = c) ++ tokens.map (Token.tok casing) := by
  induction tokens generalizing run with
  | nil => simp [cutRuns, weave]
  | cons token tokens ih =>
    have ih' := ih fun token ht => h token (by simp [ht])
    rw [cutRuns]
    split
    · rename_i hk
      rw [weave, map_cons, Token.tok, if_pos hk]
      congr 1
      have h0 := ih' []
      cases hc : cutRuns [] tokens with
      | nil => exact absurd hc cutRuns_ne_nil
      | cons next runs =>
        rw [hc, weave] at h0
        rw [flatMap_cons, cons_append, h0]
        rfl
    · rename_i hk
      have hl : token.kind = .literal := by
        have := h token (by simp)
        simp [Token.plain, hk] at this
        exact this.1
      rw [ih', map_append, append_assoc]
      simp [Token.tok, accepts, hl]

/-- A run that is closed by a star is empty only when it is the first. -/
theorem cutRuns_dropLast (hs : Sparse tokens)
    (h : run ≠ [] ∨ tokens.head?.map Token.kind ≠ some .star) :
    ∀ r ∈ (cutRuns run tokens).dropLast, r ≠ [] := by
  induction tokens generalizing run with
  | nil => simp [cutRuns]
  | cons token tokens ih =>
    have htail : Sparse tokens := hs.tail
    rw [cutRuns]
    split
    · rename_i hk
      rw [dropLast_cons_of_ne_nil cutRuns_ne_nil]
      intro r hr
      rcases mem_cons.1 hr with rfl | hr
      · exact h.resolve_right (by simp [hk])
      · refine ih htail (.inr ?_) r hr
        cases tokens with
        | nil => simp
        | cons next tokens =>
          have := (isChain_cons_cons.1 hs).1
          simpa [hk] using this
    · exact ih htail (.inl (by simp))

theorem cutRuns_tail_dropLast (hs : Sparse tokens) :
    ∀ r ∈ (cutRuns [] tokens).tail.dropLast, r ≠ [] := by
  cases tokens with
  | nil => simp [cutRuns]
  | cons token tokens =>
    rw [cutRuns]
    split
    · rename_i hk
      refine cutRuns_dropLast hs.tail (.inr ?_)
      cases tokens with
      | nil => simp
      | cons next tokens =>
        have := (isChain_cons_cons.1 hs).1
        simpa [hk] using this
    · intro r hr
      rw [← tail_dropLast] at hr
      exact cutRuns_dropLast hs.tail (.inl (by simp)) r (mem_of_mem_tail hr)

/-- With a star there are at least two runs. -/
theorem cutRuns_two (h : ∃ token ∈ tokens, token.kind = .star) (run : List Nat) :
    ∃ first inner last, cutRuns run tokens = first :: (inner ++ [last]) := by
  induction tokens generalizing run with
  | nil => simp at h
  | cons token tokens ih =>
    rw [cutRuns]
    split
    · obtain ⟨inner, last, hc⟩ := (eq_nil_or_concat (cutRuns [] tokens)).resolve_left cutRuns_ne_nil
      exact ⟨run, inner, last, by rw [hc, concat_eq_append]⟩
    · rename_i hk
      obtain ⟨t, ht, hstar⟩ := h
      rcases mem_cons.1 ht with rfl | ht
      · exact absurd hstar hk
      · exact ih ⟨t, ht, hstar⟩ _

theorem fold_separator {p : Nat} (h : separator p = true) : fold casing p = p := by
  obtain rfl | rfl : p = 0x2f ∨ p = 0x5c := by simpa [separator] using h
  · rfl
  · rfl

/-- A plain token that takes one point does not take a separator. -/
theorem separator_of_accepts {token : Token} {q : Nat → Prop} {p : Nat} (hp : token.plain = true)
    (he : token.tok casing = .one q) (hq : q p) : separator p = false := by
  unfold Token.tok at he
  split at he
  · cases he
  · rename_i hk
    cases he
    obtain ⟨hl, hc⟩ : token.kind = .literal ∧ separator token.character = false := by
      simpa [Token.plain, hk] using hp
    have hfold : fold casing p = token.character := by simpa [accepts, hl] using hq
    by_contra hsep
    rw [Bool.not_eq_false] at hsep
    rw [fold_separator hsep] at hfold
    rw [← hfold, hsep] at hc
    cases hc

/-- The run matcher answers whether the points of the name split among the tokens. -/
theorem matchesRuns_tokens (hs : Sparse tokens) (hp : ∀ token ∈ tokens, token.plain = true)
    (hstar : ∃ token ∈ tokens, token.kind = .star) (name : Units) :
    matchesRuns casing (cutRuns [] tokens) name = true ↔
      Glob.Splits (tokens.map (Token.tok casing)) (points name) := by
  obtain ⟨first, inner, last, hc⟩ := cutRuns_two hstar []
  have hinner : ∀ r ∈ inner, r ≠ [] := by
    have := cutRuns_tail_dropLast hs
    rwa [hc, tail_cons, dropLast_concat] at this
  have htok := cutRuns_tokens casing hp []
  rw [map_nil, nil_append, hc, weave_between] at htok
  rw [hc, matchesRuns_spec hinner]
  constructor
  · rintro ⟨hm, hsep⟩
    rw [← htok, splits_runs hsep]
    exact hm
  · intro hsplit
    have hsep : ∀ p ∈ points name, separator p = false := by
      refine hsplit.forall_mem ?_ ?_
      · intro q hq x hx
        obtain ⟨token, ht, he⟩ := mem_map.1 hq
        exact separator_of_accepts (hp token ht) he hx
      · intro q hq x hx
        obtain ⟨token, ht, he⟩ := mem_map.1 hq
        unfold Token.tok at he
        split at he
        · cases he
          exact hx
        · cases he
    rw [← htok, splits_runs hsep] at hsplit
    exact ⟨hsplit, hsep⟩

end Runs

/-! ### What `Compile` makes of a pattern -/

/-- The points that stand for more than themselves. -/
def Special (p : Nat) : Prop := p = 0x2a ∨ p = 0x3f ∨ p = 0x5b

section Compile

variable {tokens out : List Token} {ps : List Nat} {pattern : Units} {glob : FileNameGlob}

theorem Sparse.push {token : Token} (hs : Sparse tokens)
    (h : token.kind = .star → tokens.getLast?.map Token.kind ≠ some .star) :
    Sparse (tokens ++ [token]) := by
  refine isChain_append.2 ⟨hs, isChain_singleton _, ?_⟩
  rintro a ha b hb ⟨hka, hkb⟩
  obtain rfl : token = b := by simpa using hb
  exact h hkb (by rw [Option.mem_def.1 ha]; exact congrArg some hka)

theorem readTokens_sparse (h : readTokens casing tokens ps = .ok out) (hs : Sparse tokens) :
    Sparse out := by
  fun_induction readTokens casing tokens ps with
  | case1 =>
    cases h
    exact hs
  | case2 _ _ _ ih => exact ih h hs
  | case3 _ _ hlast ih => exact ih h (hs.push fun _ => hlast)
  | case4 _ _ _ ih => exact ih h (hs.push nofun)
  | case5 => cases h
  | case6 _ _ _ token _ hm _ _ ih =>
    have hkind : token.kind = .charClass := readClass_kind hm
    exact ih h (hs.push fun hk => by rw [hkind] at hk; cases hk)
  | case7 _ _ _ _ _ _ ih => exact ih h (hs.push nofun)

theorem star_of_last (h : tokens.getLast?.map Token.kind = some .star)
    (hall : ∀ token ∈ tokens, token.kind = .literal) : False := by
  obtain ⟨token, ht, hk⟩ := Option.map_eq_some_iff.1 h
  cases hk.symm.trans (hall token (mem_of_getLast? ht))

/-- Only literals come out when no point is special and only then. -/
theorem readTokens_literal (h : readTokens casing tokens ps = .ok out) :
    (∀ token ∈ out, token.kind = .literal) ↔
      (∀ token ∈ tokens, token.kind = .literal) ∧ ∀ p ∈ ps, ¬Special p := by
  fun_induction readTokens casing tokens ps with
  | case1 =>
    cases h
    simp
  | case2 tokens rest hlast ih =>
    rw [ih h]
    refine iff_of_false ?_ ?_
    · exact fun hall => star_of_last hlast hall.1
    · exact fun hall => star_of_last hlast hall.1
  | case3 _ _ hlast ih =>
    rw [ih h]
    refine iff_of_false ?_ ?_
    · simp
    · simp [Special]
  | case4 _ _ _ ih =>
    rw [ih h]
    refine iff_of_false ?_ ?_
    · simp
    · simp [Special]
  | case5 => cases h
  | case6 _ _ _ token _ hm _ _ ih =>
    have hkind : token.kind = .charClass := readClass_kind hm
    rw [ih h]
    refine iff_of_false ?_ ?_
    · simp [hkind]
    · simp [Special]
  | case7 tokens c rest hc hq hb ih =>
    rw [ih h]
    simp [Special, hc, hq, hb, or_imp, forall_and]

/-- A pattern without special points is compiled to its folded points. -/
theorem readTokens_plain (h : readTokens casing tokens ps = .ok out) (hp : ∀ p ∈ ps, ¬Special p) :
    out = tokens ++ ps.map fun p => { kind := .literal, character := casing.toCaseFolded p } := by
  induction ps generalizing tokens with
  | nil =>
    rw [readTokens] at h
    cases h
    simp
  | cons p ps ih =>
    have hn := hp p (by simp)
    simp only [Special, not_or] at hn
    rw [readTokens, if_neg hn.1, if_neg hn.2.1, if_neg hn.2.2] at h
    rw [ih h fun p hm => hp p (by simp [hm])]
    simp

/-- No unit of the pattern is `*`, `?` or `[`. -/
def LiteralPattern (pattern : Units) : Prop := ∀ u ∈ pattern, ¬(u = 0x2a ∨ u = 0x3f ∨ u = 0x5b)

instance (pattern : Units) : Decidable (LiteralPattern pattern) :=
  List.decidableBAll (fun u => ¬(u = 0x2a ∨ u = 0x3f ∨ u = 0x5b)) pattern

theorem literalPattern_iff : LiteralPattern pattern ↔ ∀ p ∈ toUcs4 pattern, ¬Special p := by
  have hm : ∀ u : UInt16, u.toNat < 0xd800 → (u ∈ pattern ↔ u.toNat ∈ toUcs4 pattern) := by
    intro u hu
    rw [← toNat_mem_points hu, toUcs4, mem_map]
    constructor
    · intro hp
      exact ⟨u.toNat, hp, if_neg fun hs => by have := hs.1; omega⟩
    · rintro ⟨p, hp, he⟩
      split at he
      · omega
      · exact he ▸ hp
  have h1 := hm 0x2a (by decide)
  have h2 := hm 0x3f (by decide)
  have h3 := hm 0x5b (by decide)
  constructor
  · rintro h p hp (rfl | rfl | rfl)
    · exact h _ (h1.2 hp) (.inl rfl)
    · exact h _ (h2.2 hp) (.inr (.inl rfl))
    · exact h _ (h3.2 hp) (.inr (.inr rfl))
  · rintro h u hu (rfl | rfl | rfl)
    · exact h _ (h1.1 hu) (.inl rfl)
    · exact h _ (h2.1 hu) (.inr (.inl rfl))
    · exact h _ (h3.1 hu) (.inr (.inr rfl))

/-- What a compiled glob holds. -/
theorem compile_eq (h : compile casing pattern = .ok glob) :
    readTokens casing [] (toUcs4 pattern) = .ok glob.tokens ∧ Sparse glob.tokens ∧
      (glob.simple = true ↔ LiteralPattern pattern) ∧
      (glob.simple = true → glob.literal = pattern) ∧
      (glob.simple = false → glob.runs ≠ [] →
        glob.runs = cutRuns [] glob.tokens ∧ ∀ token ∈ glob.tokens, token.plain = true) := by
  unfold compile at h
  cases ht : readTokens casing [] (toUcs4 pattern) with
  | error message =>
    rw [ht] at h
    cases h
  | ok tokens =>
    rw [ht] at h
    cases h
    refine ⟨rfl, readTokens_sparse ht (by simp [Sparse]), ?_, ?_, ?_⟩
    · rw [literalPattern_iff]
      simpa using readTokens_literal ht
    · intro hs
      exact if_pos hs
    · dsimp only
      intro hs hr
      split at hr
      · rename_i hp
        rw [if_pos hp]
        rw [Bool.and_eq_true, all_eq_true] at hp
        exact ⟨rfl, hp.2⟩
      · exact absurd rfl hr

end Compile

/-! ### The glob -/

section Matches

variable {pattern : Units} {glob : FileNameGlob}

/-- A glob with `*`, `?` or `[` means its tokens. -/
theorem matches_of_special (hd : casing.Documented) (h : compile casing pattern = .ok glob)
    (hp : ¬LiteralPattern pattern) (name : Units) :
    glob.matches casing name = true ↔ Splits casing glob.tokens (points name) := by
  obtain ⟨ht, hsparse, hsimple, -, hruns⟩ := compile_eq h
  have hs : glob.simple = false := by simpa using fun hs => hp (hsimple.1 hs)
  rw [splits_iff hd, FileNameGlob.matches, if_neg (by simp [hs])]
  by_cases hr : glob.runs = []
  · rw [if_neg (not_not.2 hr), lastRow_spec]
  · obtain ⟨hcut, hplain⟩ := hruns hs hr
    rw [if_pos hr, hcut]
    refine matchesRuns_tokens hsparse hplain ?_ name
    -- a pattern that is not of literals alone, and plain, has a star
    by_contra hno
    refine hp (literalPattern_iff.2 ((readTokens_literal ht).1 fun token hm => ?_).2)
    have := hplain token hm
    by_cases hk : token.kind = .star
    · exact absurd ⟨token, hm, hk⟩ hno
    · simp only [Token.plain, Bool.or_eq_true, Bool.and_eq_true, beq_iff_eq, hk, false_or] at this
      exact this.1

/-- A glob of literals compares folded points; its tokens hold the pattern with every unpaired
surrogate replaced. -/
theorem matches_literal (hd : casing.Documented) (h : compile casing pattern = .ok glob)
    (hp : LiteralPattern pattern) (name : Units) :
    (glob.matches casing name = true ↔
        (points name).map casing.toCaseFolded = (points pattern).map casing.toCaseFolded) ∧
      (Splits casing glob.tokens (points name) ↔
        (points name).map casing.toCaseFolded = (toUcs4 pattern).map casing.toCaseFolded) := by
  obtain ⟨ht, -, hsimple, hliteral, -⟩ := compile_eq h
  have hs := hsimple.2 hp
  constructor
  · rw [FileNameGlob.matches, if_pos hs, hliteral hs, beq_iff_eq]
  · have htok := readTokens_plain ht (literalPattern_iff.1 hp)
    rw [nil_append] at htok
    rw [splits_iff hd, htok, map_map]
    have he :
        (Token.tok casing ∘ fun p => { kind := .literal, character := casing.toCaseFolded p }) =
        fun p => Tok.one fun q => casing.toCaseFolded q = casing.toCaseFolded p := by
      funext p
      simp [Token.tok, accepts, hd.fold_eq]
    rw [he, splits_map_one, ← forall₂_eq_map, forall₂_map_left_iff]

/-- Patterns with `*`, `?` or `[` and patterns that pair their surrogates mean their tokens on every
name; another pattern does not match its tokens. -/
theorem matches_exactly (hd : casing.Documented) (h : compile casing pattern = .ok glob) :
    (∀ name, glob.matches casing name = true ↔ Splits casing glob.tokens (points name)) ↔
      ¬LiteralPattern pattern ∨ ∀ p ∈ points pattern, ¬Surrogate p := by
  by_cases hp : LiteralPattern pattern
  · simp only [hp, not_true_eq_false, false_or]
    constructor
    · intro hall p hm hs
      obtain ⟨hmatch, hsplit⟩ := matches_literal hd h hp pattern
      have he := hsplit.1 ((hall pattern).1 (hmatch.2 rfl))
      -- the point stands against its replacement
      rw [toUcs4, map_map] at he
      have := map_eq_map_iff.1 he p hm
      rw [Function.comp_apply, if_pos hs, hd.surrogate p hs, hd.replacement] at this
      have := hs.2
      omega
    · intro hpaired name
      obtain ⟨hmatch, hsplit⟩ := matches_literal hd h hp name
      have he : toUcs4 pattern = points pattern := by
        rw [toUcs4]
        conv_rhs => rw [← map_id (points pattern)]
        exact map_congr_left fun p hm => if_neg (hpaired p hm)
      rw [hmatch, hsplit, he]
  · simp only [hp, not_false_eq_true, true_or, iff_true]
    exact matches_of_special hd h hp

/-- The case tables of ASCII alone. -/
def asciiCasing : Casing where
  toCaseFolded := asciiFold
  toLower := asciiFold
  toUpper p := if 0x61 ≤ p ∧ p < 0x61 + 26 then p - 32 else p

theorem asciiCasing_documented : asciiCasing.Documented where
  ascii _ _ := rfl
  surrogate p hs := if_neg fun h => by have := hs.1; omega
  replacement := rfl

theorem matches_exactly_star : ∃ glob, compile asciiCasing [0x2a, 0x41] = .ok glob ∧
    ((∀ name, glob.matches asciiCasing name = true ↔ Splits asciiCasing glob.tokens (points name)) ↔
      ¬LiteralPattern [0x2a, 0x41] ∨ ∀ p ∈ points [0x2a, 0x41], ¬Surrogate p) := by
  have h : compile asciiCasing [0x2a, 0x41] = .ok
      { tokens := [{ kind := .star }, { kind := .literal, character := 0x61 }], simple := false
        literal := [], runs := [[], [0x61]] } := by
    simp [compile, toUcs4, points, isHigh, isLow, Surrogate, readTokens, asciiCasing, asciiFold,
      Token.plain, separator, cutRuns, bind, Except.bind, pure, Except.pure]
  exact ⟨_, h, matches_exactly asciiCasing_documented h⟩

/-- The name `\uD800` is matched by the pattern `\uD800`, whose only token is a replacement
character. -/
theorem matches_loneSurrogate : ∃ glob, compile asciiCasing [0xd800] = .ok glob ∧
    glob.matches asciiCasing [0xd800] = true ∧
    ¬Splits asciiCasing glob.tokens (points [0xd800]) := by
  have h : compile asciiCasing [0xd800] = .ok
      { tokens := [{ kind := .literal, character := 0xfffd }], simple := true
        literal := [0xd800], runs := [] } := by
    simp [compile, toUcs4, points, Surrogate, readTokens, asciiCasing, asciiFold,
      bind, Except.bind, pure, Except.pure]
  have hp : LiteralPattern [0xd800] := by decide
  refine ⟨_, h, by decide, fun hs => ?_⟩
  have := (matches_literal asciiCasing_documented h hp [0xd800]).2.1 hs
  revert this
  decide

end Matches

end Hc.Text
