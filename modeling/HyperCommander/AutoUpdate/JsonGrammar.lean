import HyperCommander.Lib.Utf8Sequences
import HyperCommander.AutoUpdate.JsonLemmas
import Mathlib.Data.List.TakeWhile

/-!
# The grammar of the updater's JSON

The texts that are JSON, as a relation between a text and the value it stands for. What the reader
takes off the front of a text is related to it here for strings.

* `Forms`: the grammar. Its parameter says which code units an escape may stand for by itself.
* `string_of_chars`, `of_string`: strings are read as the grammar has them.
-/

namespace Hc.Update

open Option Hc.Update.Parser

/-! ## The size of a value -/

mutual

/-- The number of values in a value. -/
def Json.nodes : Json → Nat
  | .array vs => 1 + Json.nodesOf vs
  | .object fs => 1 + Json.nodesOfFields fs
  | _ => 1

def Json.nodesOf : List Json → Nat
  | [] => 0
  | v :: vs => v.nodes + Json.nodesOf vs

def Json.nodesOfFields : List (Text × Json) → Nat
  | [] => 0
  | (_, v) :: fs => v.nodes + Json.nodesOfFields fs

end

mutual

/-- How deep the values in a value are nested. -/
def Json.depth : Json → Nat
  | .array vs => Json.depthOf vs
  | .object fs => Json.depthOfFields fs
  | _ => 0

def Json.depthOf : List Json → Nat
  | [] => 0
  | v :: vs => max (v.depth + 1) (Json.depthOf vs)

def Json.depthOfFields : List (Text × Json) → Nat
  | [] => 0
  | (_, v) :: fs => max (v.depth + 1) (Json.depthOfFields fs)

end

/-! ## The grammar -/

namespace Grammar

/-- White space. -/
def Blank (t : Text) : Prop := ∀ c ∈ t, isSpace c = true

/-- A code unit that is half of a pair. -/
def Surrogate (n : Nat) : Prop := 0xd800 ≤ n ∧ n ≤ 0xdfff

/-- The bytes of a character. -/
def char (n : Nat) : Text := String.utf8EncodeChar (Char.ofNat n)

/-- Four hexadecimal digits. -/
def Hex4 (ds : Text) (n : Nat) : Prop :=
  ∃ a b c d, ds.map hexValue = [some a, some b, some c, some d] ∧
    n = ((a * 16 + b) * 16 + c) * 16 + d

/-- Characters with an escape of their own, and what it stands for. -/
def shortEscapes : List (UInt8 × UInt8) :=
  [(quote, quote), (backslash, backslash), (slash, slash), (98, 8), (102, 12), (110, 10), (114, 13),
    (116, 9)]

/-- A byte or an escape in a string, and what it stands for. -/
inductive Piece (alone : Nat → Prop) : Text → Text → Prop
  | plain {c : UInt8} (hc : ¬ c < 32) (hq : c ≠ quote) (hb : c ≠ backslash) : Piece alone [c] [c]
  | short {c d : UInt8} (h : (c, d) ∈ shortEscapes) : Piece alone [backslash, c] [d]
  | code {ds : Text} {n : Nat} (h : Hex4 ds n) (ha : alone n) :
    Piece alone (backslash :: 117 :: ds) (char n)
  | pair {ds es : Text} {high low : Nat} (hd : Hex4 ds high) (he : Hex4 es low)
    (hh : 0xd800 ≤ high ∧ high ≤ 0xdbff) (hl : 0xdc00 ≤ low ∧ low ≤ 0xdfff) :
    Piece alone (backslash :: 117 :: (ds ++ backslash :: 117 :: es))
      (char (0x10000 + (high - 0xd800) * 0x400 + (low - 0xdc00)))

/-- What stands between the quotes of a string. -/
inductive Chars (alone : Nat → Prop) : Text → Text → Prop
  | nil : Chars alone [] []
  | cons {a x t v : Text} (h : Piece alone a x) (ht : Chars alone t v) :
    Chars alone (a ++ t) (x ++ v)

/-- A number without sign, fraction, exponent and leading zeros, in 64 bits. -/
structure Numeral (t : Text) (n : Nat) : Prop where
  ne : t ≠ []
  digits : ∀ c ∈ t, isDigit c = true
  leading : t.head? = some zero → t.length = 1
  value : n = t.foldl (fun n c => n * 10 + (c.toNat - 48)) 0
  fits : n ≤ 18446744073709551615

/-- A key with the space around it. -/
def Label (alone : Nat → Prop) (t key : Text) : Prop :=
  ∃ a k b, t = a ++ quote :: (k ++ quote :: b) ∧ Blank a ∧ Chars alone k key ∧ Blank b

/-- What a part of a text stands for: a value, a value with the space around it, the values of an
array or the fields of an object, one at least. -/
inductive Part
  | value (v : Json)
  | padded (v : Json)
  | elements (vs : List Json)
  | members (fs : List (Text × Json))

/-- The texts of JSON. -/
inductive Forms (alone : Nat → Prop) : Text → Part → Prop
  | null : Forms alone (ascii "null") (.value .null)
  | boolean (b : Bool) : Forms alone (booleanText b) (.value (.boolean b))
  | number {t : Text} {n : Nat} (h : Numeral t n) : Forms alone t (.value (.number n))
  | string {t v : Text} (h : Chars alone t v) :
    Forms alone (quote :: (t ++ [quote])) (.value (.string v))
  | emptyArray {a : Text} (h : Blank a) :
    Forms alone (openBracket :: (a ++ [closeBracket])) (.value (.array []))
  | array {t : Text} {vs : List Json} (h : Forms alone t (.elements vs)) :
    Forms alone (openBracket :: (t ++ [closeBracket])) (.value (.array vs))
  | emptyObject {a : Text} (h : Blank a) :
    Forms alone (openBrace :: (a ++ [closeBrace])) (.value (.object []))
  | object {t : Text} {fs : List (Text × Json)} (h : Forms alone t (.members fs))
    (hk : (fs.map Prod.fst).Nodup) :
    Forms alone (openBrace :: (t ++ [closeBrace])) (.value (.object fs))
  | padded {a t b : Text} {v : Json} (ha : Blank a) (h : Forms alone t (.value v)) (hb : Blank b) :
    Forms alone (a ++ (t ++ b)) (.padded v)
  | lastElement {t : Text} {v : Json} (h : Forms alone t (.padded v)) :
    Forms alone t (.elements [v])
  | element {t ts : Text} {v : Json} {vs : List Json} (h : Forms alone t (.padded v))
    (hs : Forms alone ts (.elements vs)) : Forms alone (t ++ comma :: ts) (.elements (v :: vs))
  | lastMember {l t key : Text} {v : Json} (hl : Label alone l key)
      (h : Forms alone t (.padded v)) :
    Forms alone (l ++ colon :: t) (.members [(key, v)])
  | member {l t ts key : Text} {v : Json} {fs : List (Text × Json)} (hl : Label alone l key)
    (h : Forms alone t (.padded v)) (hs : Forms alone ts (.members fs)) :
    Forms alone (l ++ colon :: (t ++ comma :: ts)) (.members ((key, v) :: fs))

/-! ## Space -/

theorem Blank.nil : Blank [] := fun _ h => by cases h

variable {a t rest ds bytes x v : Text} {c : UInt8} {n fuel : Nat}

theorem Blank.append {b : Text} (ha : Blank a) (hb : Blank b) : Blank (a ++ b) := fun c hc =>
  (List.mem_append.mp hc).elim (ha c) (hb c)

theorem space_append (ha : Blank a) (t : Text) : space (a ++ t) = space t := by
  induction a with
  | nil => rfl
  | cons c a ih =>
    have hc : isSpace c = true := ha c List.mem_cons_self
    rw [List.cons_append, space, List.dropWhile_cons_of_pos hc]
    exact ih fun d hd => ha d (List.mem_cons_of_mem _ hd)

theorem space_blank (ha : Blank a) : space a = [] := by
  have := space_append ha []
  rwa [List.append_nil] at this

theorem exists_blank (t : Text) : ∃ a, t = a ++ space t ∧ Blank a :=
  ⟨t.takeWhile isSpace, (List.takeWhile_append_dropWhile).symm, fun _ h => List.mem_takeWhile_imp h⟩

theorem blank_of_space (h : space t = []) : Blank t := by
  obtain ⟨a, ht, ha⟩ := exists_blank t
  rw [ht, h, List.append_nil]
  exact ha

theorem take_append (ha : Blank a) (c : UInt8) (t : Text) : take c (a ++ t) = take c t := by
  rw [take, take, space_append ha]

theorem of_take_true (h : take c t = (true, rest)) :
    ∃ a, t = a ++ c :: rest ∧ Blank a := by
  obtain ⟨a, ht, ha⟩ := exists_blank t
  unfold take at h
  split at h
  · cases h
  · rename_i d rest' hs
    split at h
    · rename_i hd
      cases h
      exact ⟨a, by rw [← hd, ← hs]; exact ht, ha⟩
    · cases h

theorem of_take_false (h : take c t = (false, rest)) :
    ∃ a, t = a ++ rest ∧ Blank a := by
  obtain ⟨a, ht, ha⟩ := exists_blank t
  unfold take at h
  split at h
  · rename_i hs
    cases h
    exact ⟨a, by rw [← hs]; exact ht, ha⟩
  · rename_i d rest' hs
    split at h
    · cases h
    · cases h
      exact ⟨a, by rw [← hs]; exact ht, ha⟩

/-! ## Strings -/

/-- The code units that the reader takes by themselves. -/
def Unpaired (n : Nat) : Prop := ¬ Surrogate n

theorem hexValue_lt (h : hexValue c = some n) : n < 16 := by
  unfold hexValue at h
  simp only [UInt8.le_iff_toNat_le] at h
  have h57 : (57 : UInt8).toNat = 57 := rfl
  have h102 : (102 : UInt8).toNat = 102 := rfl
  have h70 : (70 : UInt8).toNat = 70 := rfl
  split at h
  · cases h
    omega
  split at h
  · cases h
    omega
  split at h
  · cases h
    omega
  · cases h

theorem Hex4.lt (h : Hex4 ds n) : n < 65536 := by
  obtain ⟨a, b, c, d, hds, rfl⟩ := h
  have hall : ∀ v ∈ [a, b, c, d], v < 16 := fun v hv => by
    have : some v ∈ ds.map hexValue := by
      rw [hds]
      exact List.mem_map_of_mem (f := some) hv
    obtain ⟨e, -, he⟩ := List.mem_map.mp this
    exact hexValue_lt he
  have ha := hall a (by simp)
  have hb := hall b (by simp)
  have hc := hall c (by simp)
  have hd := hall d (by simp)
  omega

theorem hex_iff :
    hex bytes = some (n, rest) ↔ ∃ ds, bytes = ds ++ rest ∧ Hex4 ds n := by
  constructor
  · intro h
    unfold hex at h
    split at h
    · rename_i a b c d rest'
      simp only [bind_eq_bind, bind_eq_some_iff] at h
      obtain ⟨va, ha, vb, hb, vc, hc, vd, hd, he⟩ := h
      cases he
      exact ⟨[a, b, c, d], rfl, va, vb, vc, vd, by simp [ha, hb, hc, hd], rfl⟩
    · cases h
  · rintro ⟨ds, rfl, va, vb, vc, vd, hds, rfl⟩
    have hlen := congrArg List.length hds
    rw [List.length_map] at hlen
    obtain ⟨a, b, c, d, rfl⟩ := List.length_eq_four.mp hlen
    simp only [List.map_cons, List.map_nil, List.cons.injEq, and_true] at hds
    obtain ⟨ha, hb, hc, hd⟩ := hds
    simp [hex, ha, hb, hc, hd]

theorem utf8_eq (h : n < 0xd800 ∨ 0xdfff < n ∧ n < 0x110000) : utf8 n = char n := by
  rw [char, Utf8.utf8EncodeChar_ofNat h, utf8]
  rcases Nat.lt_or_ge n 0x80 with h1 | h1
  · rw [if_pos h1, if_pos (by omega)]
    rfl
  rw [if_neg (by omega), if_neg (show ¬ n ≤ 0x7f by omega)]
  rcases Nat.lt_or_ge n 0x800 with h2 | h2
  · rw [if_pos h2, if_pos (by omega), show n / 64 % 32 = n / 64 by omega, Nat.add_comm (n / 64),
      Nat.add_comm (n % 64)]
    rfl
  rw [if_neg (by omega), if_neg (show ¬ n ≤ 0x7ff by omega)]
  rcases Nat.lt_or_ge n 0x10000 with h3 | h3
  · rw [if_pos h3, if_pos (by omega), show n / 4096 % 16 = n / 4096 by omega,
      Nat.add_comm (n / 4096), Nat.add_comm (n / 64 % 64), Nat.add_comm (n % 64)]
    rfl
  · rw [if_neg (by omega), if_neg (by omega), show n / 262144 % 8 = n / 262144 by omega,
      Nat.add_comm (n / 262144), Nat.add_comm (n / 4096 % 64), Nat.add_comm (n / 64 % 64),
      Nat.add_comm (n % 64)]
    rfl

theorem of_unicode (h : unicode bytes = some (x, rest)) :
    ∃ t, bytes = t ++ rest ∧ Piece Unpaired (backslash :: 117 :: t) x := by
  simp only [unicode, bind_eq_bind, bind_eq_some_iff] at h
  obtain ⟨⟨code, behind⟩, hhex, h⟩ := h
  obtain ⟨ds, rfl, hds⟩ := hex_iff.mp hhex
  have hlt := hds.lt
  dsimp only at h
  split at h
  · rename_i hhigh
    split at h
    · rename_i behind'
      simp only [bind_eq_some_iff] at h
      obtain ⟨⟨low, behind''⟩, hhex', h⟩ := h
      obtain ⟨es, rfl, hes⟩ := hex_iff.mp hhex'
      split at h
      · cases h
      · rename_i hlow
        simp only [some.injEq, Prod.mk.injEq] at h
        obtain ⟨rfl, rfl⟩ := h
        refine ⟨ds ++ 92 :: 117 :: es, by simp, ?_⟩
        rw [show 0x10000 + (code - 0xd800) * 1024 + low - 0xdc00 =
          0x10000 + (code - 0xd800) * 0x400 + (low - 0xdc00) by omega, utf8_eq (by omega)]
        exact .pair hds hes hhigh (by omega)
    · cases h
  · rename_i hhigh
    split at h
    · cases h
    · rename_i hlow
      cases h
      rw [utf8_eq (by omega)]
      exact ⟨ds, rfl, .code hds fun hs => by unfold Surrogate at hs; omega⟩

theorem unicode_code (h : Hex4 ds n) (ha : Unpaired n) :
    unicode (ds ++ rest) = some (char n, rest) := by
  have hlt := h.lt
  have hn : ¬ (0xd800 ≤ n ∧ n ≤ 0xdfff) := ha
  have hhex : hex (ds ++ rest) = some (n, rest) := hex_iff.mpr ⟨ds, rfl, h⟩
  simp only [unicode, hhex, bind_eq_bind, bind_some]
  rw [if_neg (by omega), if_neg (by omega), utf8_eq (by omega)]

theorem unicode_pair {es : Text} {high low : Nat} (hd : Hex4 ds high) (he : Hex4 es low)
    (hh : 0xd800 ≤ high ∧ high ≤ 0xdbff) (hl : 0xdc00 ≤ low ∧ low ≤ 0xdfff) :
    unicode (ds ++ backslash :: 117 :: (es ++ rest)) =
      some (char (0x10000 + (high - 0xd800) * 0x400 + (low - 0xdc00)), rest) := by
  have hhex : hex (ds ++ backslash :: 117 :: (es ++ rest)) =
      some (high, backslash :: 117 :: (es ++ rest)) := hex_iff.mpr ⟨ds, rfl, hd⟩
  have hhex' : hex (es ++ rest) = some (low, rest) := hex_iff.mpr ⟨es, rfl, he⟩
  simp only [unicode, hhex, bind_eq_bind, bind_some]
  rw [if_pos hh, hhex']
  simp only [bind_some]
  rw [if_neg (by omega), show 0x10000 + (high - 0xd800) * 1024 + low - 0xdc00 =
    0x10000 + (high - 0xd800) * 0x400 + (low - 0xdc00) by omega, utf8_eq (by omega)]

theorem of_escape (h : escape bytes = some (x, rest)) :
    ∃ t, bytes = t ++ rest ∧ Piece Unpaired (backslash :: t) x := by
  cases bytes with
  | nil => cases h
  | cons c bytes =>
    have hshort : ∀ d, (c, d) ∈ shortEscapes → some (([d] : Text), bytes) = some (x, rest) →
        ∃ t, c :: bytes = t ++ rest ∧ Piece Unpaired (backslash :: t) x := by
      intro d hd he
      cases he
      exact ⟨[c], rfl, .short hd⟩
    rw [escape] at h
    split at h
    · rename_i hc
      refine hshort c ?_ h
      rcases hc with rfl | rfl | rfl <;> decide
    split at h
    · rename_i hc
      exact hshort 8 (by rw [hc]; decide) h
    split at h
    · rename_i hc
      exact hshort 12 (by rw [hc]; decide) h
    split at h
    · rename_i hc
      exact hshort 10 (by rw [hc]; decide) h
    split at h
    · rename_i hc
      exact hshort 13 (by rw [hc]; decide) h
    split at h
    · rename_i hc
      exact hshort 9 (by rw [hc]; decide) h
    split at h
    · rename_i hc
      obtain ⟨t, rfl, ht⟩ := of_unicode h
      exact ⟨c :: t, rfl, hc ▸ ht⟩
    · cases h

theorem escape_short {d : UInt8} (h : (c, d) ∈ shortEscapes) (rest : Text) :
    escape (c :: rest) = some ([d], rest) := by
  simp only [shortEscapes, List.mem_cons, Prod.mk.injEq, List.not_mem_nil, or_false] at h
  rcases h with ⟨rfl, rfl⟩ | ⟨rfl, rfl⟩ | ⟨rfl, rfl⟩ | ⟨rfl, rfl⟩ | ⟨rfl, rfl⟩ | ⟨rfl, rfl⟩ |
    ⟨rfl, rfl⟩ | ⟨rfl, rfl⟩ <;> rfl

theorem escape_of_piece (h : Piece Unpaired (backslash :: t) x) (rest : Text) :
    escape (t ++ rest) = some (x, rest) := by
  have hu : ∀ bytes, escape (117 :: bytes) = unicode bytes := fun _ => rfl
  generalize ht : backslash :: t = text at h
  cases h with
  | plain hc hq hb =>
    cases ht
    exact absurd rfl hb
  | short hd =>
    cases ht
    exact escape_short hd rest
  | code hn ha =>
    cases ht
    rw [List.cons_append, hu]
    exact unicode_code hn ha
  | pair hd he hh hl =>
    cases ht
    rw [List.cons_append, hu, List.append_assoc, List.cons_append, List.cons_append]
    exact unicode_pair hd he hh hl

theorem of_stringRest (h : stringRest fuel bytes = some (v, rest)) :
    ∃ t, bytes = t ++ quote :: rest ∧ Chars Unpaired t v := by
  induction fuel generalizing bytes v with
  | zero => cases h
  | succ fuel ih =>
    cases bytes with
    | nil => cases h
    | cons c bytes =>
      unfold stringRest at h
      split at h
      · rename_i hq
        cases h
        exact ⟨[], by rw [hq]; rfl, .nil⟩
      rename_i hq
      split at h
      · cases h
      rename_i hlt
      split at h
      · rename_i hb
        simp only [bind_eq_bind, bind_eq_some_iff] at h
        obtain ⟨⟨piece, behind⟩, hpiece, ⟨text, behind'⟩, htext, he⟩ := h
        cases he
        obtain ⟨a, rfl, ha⟩ := of_escape hpiece
        obtain ⟨t, rfl, ht⟩ := ih htext
        exact ⟨c :: a ++ t, by simp, .cons (hb ▸ ha) ht⟩
      · rename_i hb
        simp only [bind_eq_bind, bind_eq_some_iff] at h
        obtain ⟨⟨text, behind⟩, htext, he⟩ := h
        cases he
        obtain ⟨t, rfl, ht⟩ := ih htext
        exact ⟨[c] ++ t, rfl, .cons (.plain hlt hq hb) ht⟩

theorem Piece.ne_nil {alone : Nat → Prop} (h : Piece alone a x) : 0 < a.length := by
  cases h <;> simp

theorem stringRest_of_chars (h : Chars Unpaired t v) (hf : t.length < fuel) (rest : Text) :
    stringRest fuel (t ++ quote :: rest) = some (v, rest) := by
  induction h generalizing fuel with
  | nil =>
    obtain ⟨fuel, rfl⟩ := Nat.exists_eq_add_of_lt hf
    simp [stringRest]
  | @cons a x t v hp ht ih =>
    obtain ⟨fuel, rfl⟩ : ∃ k, fuel = k + 1 := ⟨fuel - 1, by omega⟩
    have hpos := hp.ne_nil
    rw [List.length_append] at hf
    have hrest := @ih fuel (by omega)
    have hescape : ∀ b, a = backslash :: b →
        stringRest (fuel + 1) (a ++ t ++ quote :: rest) = some (x ++ v, rest) := by
      rintro b rfl
      rw [List.append_assoc, List.cons_append, stringRest, if_neg (by decide), if_neg (by decide),
        if_pos rfl, escape_of_piece hp]
      simp [hrest]
    cases hp with
    | @plain c hc hq hb =>
      show stringRest (fuel + 1) (c :: (t ++ quote :: rest)) = _
      rw [stringRest, if_neg hq, if_neg hc, if_neg hb, hrest]
      rfl
    | short hd => exact hescape _ rfl
    | code hn ha => exact hescape _ rfl
    | pair hd he hh hl => exact hescape _ rfl

/-- A string is read off the front of a text. -/
theorem string_of_chars (h : Chars Unpaired t v) (ha : Blank a)
    (rest : Text) : string (a ++ quote :: (t ++ quote :: rest)) = some (v, rest) := by
  rw [string, take_append ha, take_cons_self (by decide)]
  exact stringRest_of_chars h (by rw [List.length_append]; omega) rest

theorem of_string (h : string bytes = some (v, rest)) :
    ∃ a t, bytes = a ++ quote :: (t ++ quote :: rest) ∧ Blank a ∧ Chars Unpaired t v := by
  unfold string at h
  split at h
  · rename_i behind htake
    obtain ⟨a, rfl, ha⟩ := of_take_true htake
    obtain ⟨t, rfl, ht⟩ := of_stringRest h
    exact ⟨a, t, rfl, ha, ht⟩
  · cases h

end Grammar

end Hc.Update
