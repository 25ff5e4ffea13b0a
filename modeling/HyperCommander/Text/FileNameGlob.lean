import HyperCommander.Lib.CodePoints
import HyperCommander.Lib.Glob

/-!
# File-name globs (`commonLibs/fileNameGlob.hpp`)

`Compile` turns a pattern into tokens. `Matches` decides by one of three algorithms: a pattern of
literals is compared as a string, a pattern of literals and stars is taken apart into runs, every
other one goes through a table with two rows. A pattern that is refused leaves an invalid glob,
which matches nothing.

The case tables of `QChar` are parameters. Case-insensitive comparison of strings folds each code
point.
-/

namespace Hc.Text

open Unicode

/-- The case tables of `QChar`. -/
structure Casing where
  toCaseFolded : Nat → Nat
  toLower : Nat → Nat
  toUpper : Nat → Nat

/-- The case folding of ASCII. -/
def asciiFold (p : Nat) : Nat := if 0x41 ≤ p ∧ p < 0x41 + 26 then p + 32 else p

/-- What the Unicode tables say about ASCII, surrogates and the replacement character. -/
structure Casing.Documented (casing : Casing) : Prop where
  ascii : ∀ p < 128, casing.toCaseFolded p = asciiFold p
  surrogate : ∀ p, Surrogate p → casing.toCaseFolded p = p
  replacement : casing.toCaseFolded 0xfffd = 0xfffd

/-- `FileNameGlob::Kind`. -/
inductive Kind
  | literal
  | any
  | star
  | charClass
deriving DecidableEq, Repr

/-- `FileNameGlob::Token`. -/
structure Token where
  kind : Kind := .literal
  character : Nat := 0
  negate : Bool := false
  ranges : List (Nat × Nat) := []
  classes : List (Nat × Bool) := []
deriving DecidableEq, Repr

/-- A compiled `FileNameGlob`. -/
structure FileNameGlob where
  tokens : List Token
  simple : Bool
  literal : Units
  runs : List (List Nat)
deriving DecidableEq, Repr

/-- `QString::toUcs4`: an unpaired surrogate becomes the replacement character. -/
def toUcs4 (q : Units) : List Nat := (points q).map fun p => if Surrogate p then 0xfffd else p

/-- `/` and `\`. -/
def separator (p : Nat) : Bool := p == 0x2f || p == 0x5c

/-! ### `Compile` -/

def posixClasses : List (List Nat) :=
  ["alnum", "alpha", "ascii", "blank", "cntrl", "digit", "graph", "lower", "print",
    "punct", "space",
    "upper", "word", "xdigit"].map fun name => name.toList.map Char.toNat

/-- The points before the next `:]`, and those after it. -/
def posixName : List Nat → Option (List Nat × List Nat)
  | [] => none
  | [_] => none
  | c :: d :: rest =>
    if c = 0x3a ∧ d = 0x5d then some ([], rest)
    else (posixName (d :: rest)).map fun found => (c :: found.1, found.2)

theorem posixName_length {ps name rest : List Nat} (h : posixName ps = some (name, rest)) :
    rest.length < ps.length := by
  induction ps using posixName.induct generalizing name with
  | case1 | case2 => cases h
  | case3 c d tail hc =>
    rw [posixName, if_pos hc] at h
    cases h
    simp only [List.length_cons]
    omega
  | case4 c d tail hc ih =>
    rw [posixName, if_neg hc, Option.map_eq_some_iff] at h
    obtain ⟨⟨name, rest⟩, hf, he⟩ := h
    cases he
    exact Nat.lt_succ_of_lt (ih hf)

/-- The points of a `[...]` after `[`, `[!` or `[^`: the token and what follows the `]`. -/
def readClass (token : Token) : List Nat → Except String (Token × List Nat)
  | [] => .error "문자 집합의 닫는 ]가 필요합니다."
  | first :: rest =>
    if first = 0x5d ∧ (token.ranges ≠ [] ∨ token.classes ≠ []) then .ok (token, rest)
    else if first = 0x5b ∧ rest.head? = some 0x3a then
      match _h : posixName rest.tail with
      | none => .error "POSIX 문자 집합이 올바르지 않습니다."
      | some (name, rest') =>
        let negate := name.head? == some 0x5e
        match posixClasses.idxOf? (if negate then name.tail else name) with
        | none => .error "알 수 없는 POSIX 문자 집합입니다."
        | some index => readClass { token with classes := token.classes ++ [(index, negate)] } rest'
    else if 1 < rest.length ∧ rest.head? = some 0x2d ∧ rest.tail.head? ≠ some 0x5d then
      let last := rest.tail.headD 0
      if last < first then .error "문자 범위의 시작이 끝보다 큽니다."
      else readClass { token with ranges := token.ranges ++ [(first, last)] } rest.tail.tail
    else readClass { token with ranges := token.ranges ++ [(first, first)] } rest
termination_by ps => ps.length
decreasing_by
  · have := posixName_length _h
    simp only [List.length_tail] at this
    simp only [List.length_cons]
    omega
  · simp only [List.length_tail, List.length_cons]
    omega
  · simp

theorem readClass_length {token token' : Token} {ps rest : List Nat}
    (h : readClass token ps = .ok (token', rest)) : rest.length < ps.length := by
  fun_induction readClass token ps with
  | case1 => cases h
  | case2 =>
    cases h
    simp
  | case3 | case4 => cases h
  | case5 _ _ _ _ _ _ _ hname _ _ _ ih =>
    have := ih h
    have := posixName_length hname
    simp only [List.length_tail, List.length_cons] at *
    omega
  | case6 => cases h
  | case7 _ _ _ _ _ _ _ _ ih =>
    have := ih h
    simp only [List.length_tail, List.length_cons] at *
    omega
  | case8 _ _ _ _ _ _ ih => exact Nat.lt_succ_of_lt (ih h)

theorem readClass_kind {token token' : Token} {ps rest : List Nat}
    (h : readClass token ps = .ok (token', rest)) : token'.kind = token.kind := by
  fun_induction readClass token ps with
  | case1 => cases h
  | case2 =>
    cases h
    rfl
  | case3 | case4 => cases h
  | case5 _ _ _ _ _ _ _ _ _ _ _ ih => exact ih h
  | case6 => cases h
  | case7 _ _ _ _ _ _ _ _ ih => exact ih h
  | case8 _ _ _ _ _ _ ih => exact ih h

/-- `FileNameGlob::reverseCases`. -/
def reverseCases (casing : Casing) : List (Nat × Nat) :=
  (List.range' 128 (0x10ffff + 1 - 128)).filterMap fun c =>
    let fold := casing.toCaseFolded c
    if c ≠ fold ∧ c ≠ casing.toLower fold ∧ c ≠ casing.toUpper fold then some (c, fold) else none

/-- The ranges of a class with the reverse equivalents of what they hold. -/
def withReverseCases (casing : Casing) (ranges : List (Nat × Nat)) : List (Nat × Nat) :=
  if ranges.any fun r => 128 ≤ r.2 then
    ranges ++ ((reverseCases casing).filter fun pair =>
      ranges.any fun r => r.1 ≤ pair.1 && pair.1 ≤ r.2).map fun pair => (pair.2, pair.2)
  else ranges

/-- The loop of `Compile` over the points of the pattern. -/
def readTokens (casing : Casing) (tokens : List Token) : List Nat → Except String (List Token)
  | [] => .ok tokens
  | c :: rest =>
    if c = 0x2a then
      if tokens.getLast?.map Token.kind = some .star then readTokens casing tokens rest
      else readTokens casing (tokens ++ [{ kind := .star }]) rest
    else if c = 0x3f then readTokens casing (tokens ++ [{ kind := .any }]) rest
    else if c = 0x5b then
      let negate := rest.head? == some 0x21 || rest.head? == some 0x5e
      match h : readClass { kind := .charClass, negate } (if negate then rest.tail else rest) with
      | .error message => .error message
      | .ok (token, rest') =>
        readTokens casing (tokens ++
          [{ token with ranges := withReverseCases casing token.ranges }]) rest'
    else
      readTokens casing (tokens ++ [{ kind := .literal, character := casing.toCaseFolded c }]) rest
termination_by ps => ps.length
decreasing_by
  · simp
  · simp
  · simp
  · have := readClass_length h
    split at this
    · simp only [List.length_tail] at this
      simp only [List.length_cons]
      omega
    · simp only [List.length_cons]
      omega
  · simp

/-- The literals between the stars; `run` is the run that is being read. -/
def cutRuns (run : List Nat) : List Token → List (List Nat)
  | [] => [run]
  | token :: tokens =>
    if token.kind = .star then run :: cutRuns [] tokens
    else cutRuns (run ++ [token.character]) tokens

/-- A token of a pattern whose stars alone decide. -/
def Token.plain (token : Token) : Bool :=
  token.kind == .star || token.kind == .literal && !separator token.character

/-- `FileNameGlob::Compile`: the message of a refused pattern, or the compiled glob. -/
def compile (casing : Casing) (pattern : Units) : Except String FileNameGlob := do
  let tokens ← readTokens casing [] (toUcs4 pattern)
  let simple := tokens.all fun token => token.kind == .literal
  return {
    tokens
    simple
    literal := if simple then pattern else []
    runs := if !simple && tokens.all Token.plain then cutRuns [] tokens else [] }

/-! ### `Matches` -/

/-- `FileNameGlob::fold`. -/
def fold (casing : Casing) (point : Nat) : Nat :=
  if point < 128 then asciiFold point else casing.toCaseFolded point

/-- `FileNameGlob::next`: the point at an offset and the offset after it. -/
def next (name : Units) (offset : Nat) : Nat × Nat :=
  let u := name.getD offset 0
  let v := name.getD (offset + 1) 0
  if isHigh u && offset + 1 < name.length && isLow v then (pairPoint u v, offset + 2)
  else (u.toNat, offset + 1)

/-- `FileNameGlob::previous`: the point before an offset and the offset before it. -/
def previous (name : Units) (offset : Nat) : Nat × Nat :=
  let v := name.getD (offset - 1) 0
  let u := name.getD (offset - 2) 0
  if isLow v && 0 < offset - 1 && isHigh u then (pairPoint u v, offset - 2)
  else (v.toNat, offset - 1)

theorem lt_next (name : Units) (offset : Nat) : offset < (next name offset).2 := by
  unfold next
  dsimp only
  split <;> simp

/-- A POSIX class by its place in the list of names. -/
def classHit (index c : Nat) : Bool :=
  let alpha := 0x61 ≤ c && c ≤ 0x7a || 0x41 ≤ c && c ≤ 0x5a
  let digit := decide (0x30 ≤ c) && decide (c ≤ 0x39)
  match index with
  | 0 => alpha || digit
  | 1 => alpha
  | 2 => c ≤ 127
  | 3 => c == 0x20 || c == 0x09
  | 4 => c < 32 || c == 127
  | 5 => digit
  | 6 => 33 ≤ c && c ≤ 126
  | 7 => alpha
  | 8 => 32 ≤ c && c ≤ 126
  | 9 => 33 ≤ c && c ≤ 126 && !alpha && !digit
  | 10 => c == 0x20 || 0x09 ≤ c && c ≤ 0x0d
  | 11 => alpha
  | 12 => alpha || digit || c == 0x5f
  | 13 => digit || 0x61 ≤ c && c ≤ 0x66 || 0x41 ≤ c && c ≤ 0x46
  | _ => false

/-- `FileNameGlob::accepts`, for a token that is not a star. -/
def accepts (casing : Casing) (token : Token) (point : Nat) : Bool :=
  match token.kind with
  | .literal => fold casing point == token.character
  | .any => !separator point
  | _ =>
    let variants := [point, casing.toLower point, casing.toUpper point, casing.toCaseFolded point,
      casing.toUpper (casing.toCaseFolded point)]
    let hit := token.ranges.any (fun r => variants.any fun value => r.1 ≤ value && value ≤ r.2) ||
      token.classes.any fun posix => classHit posix.1 point != posix.2
    hit != token.negate

/-- A run read forward from `begin_`: where it ends. -/
def takeRun (casing : Casing) (name : Units) (end_ : Nat) : List Nat → Nat → Option Nat
  | [], begin_ => some begin_
  | c :: run, begin_ =>
    if end_ ≤ begin_ then none
    else if fold casing (next name begin_).1 ≠ c then none
    else takeRun casing name end_ run (next name begin_).2

/-- A reversed run read backward from `end_`: where it begins. -/
def takeBack (casing : Casing) (name : Units) (begin_ : Nat) : List Nat → Nat → Option Nat
  | [], end_ => some end_
  | c :: run, end_ =>
    if end_ ≤ begin_ then none
    else if fold casing (previous name end_).1 ≠ c then none
    else takeBack casing name begin_ run (previous name end_).2

/-- The leftmost place of an inner run: where it ends. -/
def seekRun (casing : Casing) (name : Units) (end_ : Nat) (run : List Nat)
    (begin_ : Nat) : Option Nat :=
  if end_ ≤ begin_ then none
  else
    match takeRun casing name end_ run begin_ with
    | some offset => some offset
    | none => seekRun casing name end_ run (next name begin_).2
termination_by end_ - begin_
decreasing_by
  have := lt_next name begin_
  omega

/-- `FileNameGlob::matchesRuns`. -/
def matchesRuns (casing : Casing) (runs : List (List Nat)) (name : Units) : Bool :=
  let placed := do
    let begin_ ← takeRun casing name name.length (runs.headD []) 0
    let end_ ← takeBack casing name begin_ (runs.getLastD []).reverse name.length
    runs.tail.dropLast.foldlM (fun begin_ run => seekRun casing name end_ run begin_) begin_
  placed.isSome && !name.contains 0x2f && !name.contains 0x5c

/-- The first row of the table: the stars at the front. -/
def firstRow (left : Bool) : List Token → List Bool
  | [] => [left]
  | token :: tokens => left :: firstRow (left && token.kind == .star) tokens

/-- The row after one more point; `left` is the value before the first of the tokens. -/
def nextRow (casing : Casing) (point : Nat) (left : Bool) : List Token → List Bool → List Bool
  | [], _ => [left]
  | token :: tokens, previous =>
    let value :=
      if token.kind = .star then left || previous.tail.headD false && !separator point
      else previous.headD false && accepts casing token point
    left :: nextRow casing point value tokens previous.tail

/-- The loop of the table over the points from `offset` on. -/
def lastRow (casing : Casing) (tokens : List Token) (name : Units) (previous : List Bool)
    (offset : Nat) :
    List Bool :=
  if offset < name.length then
    lastRow casing tokens name (nextRow casing (next name offset).1 false tokens previous)
      (next name offset).2
  else previous
termination_by name.length - offset
decreasing_by
  have := lt_next name offset
  omega

/-- `FileNameGlob::Matches` of a glob that is valid. -/
def FileNameGlob.matches (casing : Casing) (glob : FileNameGlob) (name : Units) : Bool :=
  if glob.simple then
    (points name).map casing.toCaseFolded == (points glob.literal).map casing.toCaseFolded
  else if glob.runs ≠ [] then matchesRuns casing glob.runs name
  else (lastRow casing glob.tokens name (firstRow true glob.tokens) 0).getD glob.tokens.length false

/-! ### The meaning of the tokens -/

/-- What one token stands for. -/
def Token.Takes (casing : Casing) (token : Token) (part : List Nat) : Prop :=
  match token.kind with
  | .literal => ∃ p, part = [p] ∧ casing.toCaseFolded p = token.character
  | .any => ∃ p, part = [p] ∧ separator p = false
  | .charClass => ∃ p, part = [p] ∧ accepts casing token p = true
  | .star => ∀ p ∈ part, separator p = false

/-- The points can be split among the tokens in order. -/
def Splits (casing : Casing) (tokens : List Token) (name : List Nat) : Prop :=
  ∃ parts : List (List Nat), parts.flatten = name ∧ List.Forall₂ (Token.Takes casing) tokens parts

end Hc.Text
