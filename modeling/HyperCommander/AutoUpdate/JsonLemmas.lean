import HyperCommander.AutoUpdate.Json

/-!
# Texts that are read as what they were written for

- **Strings and numbers**: `stringRest_escaped` and `number_decimal` read them back off the front of
  a text.
- **Values**: `Reads depth text value count` says that the text is read as the value wherever it
  stands, and counts as so many values. It holds of what `quoteJson` and `decimal` write
  (`reads_string`, `reads_number`), and of arrays and objects of such texts (`reads_array`,
  `reads_object`).
- **Main result**: `parseJson_of_reads`.
-/

open List Outcome

namespace Hc.Update

namespace Parser

variable {c : UInt8} {rest : Text}

theorem space_cons (h : isSpace c = false) : space (c :: rest) = c :: rest := by
  simp [space, h]

theorem take_cons_self (h : isSpace c = false) : take c (c :: rest) = (true, rest) := by
  simp [take, space_cons h]

theorem take_cons_of_ne {d : UInt8} (h : isSpace d = false) (hne : d ≠ c) :
    take c (d :: rest) = (false, d :: rest) := by
  simp [take, space_cons h, hne]

/-! ## Strings -/

theorem hexValue_hexDigit {n : Nat} (h : n < 16) : hexValue (hexDigit n) = some n := by
  have hall : ∀ n < 16, hexValue (hexDigit n) = some n := by decide +kernel
  exact hall n h

theorem escape_control (h : c < 32) :
    escape (117 :: zero :: zero :: hexDigit (c.toNat / 16) :: hexDigit (c.toNat % 16) :: rest) =
      some ([c], rest) := by
  have hlt : c.toNat < 32 := UInt8.lt_iff_toNat_lt.1 h
  have hzero : hexValue zero = some 0 := by decide
  have hcode : ((0 * 16 + 0) * 16 + c.toNat / 16) * 16 + c.toNat % 16 = c.toNat := by omega
  have hchar : utf8 c.toNat = [c] := by
    rw [utf8, if_pos (by omega), map_cons, UInt8.ofNat_toNat, map_nil]
  rw [escape, if_neg (by decide), if_neg (by decide), if_neg (by decide), if_neg (by decide),
    if_neg (by decide), if_neg (by decide), if_pos rfl]
  simp only [unicode, hex, hzero, hexValue_hexDigit (show c.toNat / 16 < 16 by omega),
    hexValue_hexDigit (show c.toNat % 16 < 16 by omega), Option.bind_eq_bind, Option.bind_some,
    hcode]
  rw [if_neg (by omega), if_neg (by omega), hchar]

/-- One character of a string, as it was written. -/
theorem stringRest_escaped_cons {fuel : Nat} :
    stringRest (fuel + 1) (escaped c ++ rest) =
      (stringRest fuel rest).map fun p => (c :: p.1, p.2) := by
  unfold escaped
  split
  · rename_i h
    have hq : backslash ≠ quote := by decide
    rw [cons_append, cons_append, nil_append, stringRest, if_neg hq,
      if_neg (by decide), if_pos rfl, escape, if_pos (by tauto)]
    simp only [Option.bind_eq_bind, Option.bind_some]
    cases stringRest fuel rest <;> rfl
  split
  · rename_i hlt
    rw [cons_append, stringRest, if_neg (by decide), if_neg (by decide), if_pos rfl]
    simp only [cons_append, nil_append, escape_control hlt, Option.bind_eq_bind,
      Option.bind_some]
    cases stringRest fuel rest <;> rfl
  · rename_i hne hlt
    rw [not_or] at hne
    rw [cons_append, nil_append, stringRest, if_neg hne.1, if_neg hlt, if_neg hne.2]
    cases stringRest fuel rest <;> rfl

theorem stringRest_escaped {fuel : Nat} {text : Text} (h : text.length < fuel) :
    stringRest fuel (text.flatMap escaped ++ quote :: rest) = some (text, rest) := by
  induction text generalizing fuel with
  | nil =>
    obtain ⟨fuel, rfl⟩ := Nat.exists_eq_add_of_lt h
    simp [stringRest]
  | cons c text ih =>
    obtain ⟨fuel, rfl⟩ : ∃ k, fuel = k + 1 := ⟨fuel - 1, by omega⟩
    rw [length_cons] at h
    rw [flatMap_cons, append_assoc, stringRest_escaped_cons, ih (by omega)]
    rfl

theorem length_le_flatMap_escaped (text : Text) : text.length ≤ (text.flatMap escaped).length := by
  induction text with
  | nil => exact Nat.le_refl _
  | cons c text ih =>
    have hc : 1 ≤ (escaped c).length := by
      unfold escaped
      split
      · simp
      split <;> simp
    rw [length_cons, flatMap_cons, length_append]
    omega

theorem string_quoteJson (text : Text) : string (quoteJson text ++ rest) = some (text, rest) := by
  have hlen := length_le_flatMap_escaped text
  rw [quoteJson, cons_append, cons_append, string, take_cons_self (by decide)]
  simp only [append_assoc, cons_append, nil_append]
  refine stringRest_escaped ?_
  rw [length_append]
  omega

/-! ## Numbers -/

/-- What follows a value does not go on with its digits. -/
def Stops (rest : Text) : Prop := ∀ c ∈ rest.head?, isDigit c = false

theorem stops_cons (h : isDigit c = false) : Stops (c :: rest) := by
  simpa [Stops] using h

theorem digits_of_stops (h : Stops rest) (leading : Bool) (n : Nat) :
    digits leading n rest = some (n, rest) := by
  cases rest with
  | nil => rfl
  | cons c rest =>
    have hc : isDigit c = false := h c rfl
    rw [digits, hc]
    rfl

theorem digit_spec {d : Nat} (h : d < 10) :
    isDigit (UInt8.ofNat (48 + d)) = true ∧ (UInt8.ofNat (48 + d)).toNat - 48 = d := by
  have hall : ∀ d < 10, isDigit (UInt8.ofNat (48 + d)) = true ∧
      (UInt8.ofNat (48 + d)).toNat - 48 = d := by decide +kernel
  exact hall d h

theorem digits_cons {n d : Nat} (hd : d < 10) (hn : n * 10 + d ≤ 18446744073709551615) :
    digits false n (UInt8.ofNat (48 + d) :: rest) = digits false (n * 10 + d) rest := by
  obtain ⟨hdigit, hvalue⟩ := digit_spec hd
  rw [digits, hdigit, hvalue, if_pos rfl, if_neg (by simp), if_neg (by omega)]

/-- A written number behind the digits of another one. -/
theorem digits_go {fuel n m : Nat} {tail : Text} (hf : n ≤ fuel) :
    ∃ k, n < 10 ^ k ∧ (m * 10 ^ k + n ≤ 18446744073709551615 →
      digits false m (decimal.go fuel n ++ tail) = digits false (m * 10 ^ k + n) tail) := by
  induction fuel generalizing n m tail with
  | zero =>
    obtain rfl : n = 0 := by omega
    refine ⟨1, by decide, fun h => ?_⟩
    exact digits_cons (by decide) (by omega)
  | succ fuel ih =>
    unfold decimal.go
    split
    · refine ⟨1, by omega, fun h => ?_⟩
      exact digits_cons (by omega) (by omega)
    · rename_i hn
      obtain ⟨k, hk, ih⟩ := @ih (n / 10) m (UInt8.ofNat (48 + n % 10) :: tail) (by omega)
      refine ⟨k + 1, by omega, fun h => ?_⟩
      have hsum : (m * 10 ^ k + n / 10) * 10 + n % 10 = m * 10 ^ (k + 1) + n := by
        rw [Nat.pow_succ, ← Nat.mul_assoc]
        omega
      rw [append_assoc, singleton_append, ih (by omega), digits_cons (by omega) (by omega),
        hsum]

theorem go_head {fuel n : Nat} (hf : n ≤ fuel) (hn : 0 < n) :
    ∃ d tail, 0 < d ∧ d < 10 ∧ decimal.go fuel n = UInt8.ofNat (48 + d) :: tail := by
  induction fuel generalizing n with
  | zero => omega
  | succ fuel ih =>
    unfold decimal.go
    split
    · rename_i h
      exact ⟨n, [], hn, h, rfl⟩
    · obtain ⟨d, tail, hd, hd', ht⟩ := ih (n := n / 10) (by omega) (by omega)
      exact ⟨d, tail ++ [UInt8.ofNat (48 + n % 10)], hd, hd', by rw [ht]; rfl⟩

theorem number_decimal {n : Nat} (hn : n ≤ 18446744073709551615) (h : Stops rest) :
    number (decimal n ++ rest) = some (n, rest) := by
  rcases Nat.eq_zero_or_pos n with rfl | hpos
  · exact digits_of_stops h _ _
  · obtain ⟨k, -, hgo⟩ := @digits_go n n 0 rest (Nat.le_refl n)
    rw [Nat.zero_mul, Nat.zero_add] at hgo
    obtain ⟨d, tail, hd, hd', ht⟩ := go_head (Nat.le_refl n) hpos
    obtain ⟨hdigit, hvalue⟩ := digit_spec hd'
    have hzero : UInt8.ofNat (48 + d) ≠ zero := by
      intro he
      rw [he] at hvalue
      have hz : zero.toNat - 48 = 0 := rfl
      omega
    have hfirst := @digits_cons (tail ++ rest) 0 d hd' (by omega)
    have hall := hgo hn
    rw [ht, cons_append, hfirst, Nat.zero_mul, Nat.zero_add, digits_of_stops h] at hall
    rw [decimal, ht, cons_append, number, hdigit, if_pos rfl, hvalue, decide_eq_false hzero]
    exact hall

theorem decimal_head (n : Nat) :
    ∃ c tail, decimal n = c :: tail ∧ isDigit c = true := by
  rcases Nat.eq_zero_or_pos n with rfl | hpos
  · exact ⟨_, _, rfl, rfl⟩
  · obtain ⟨d, tail, -, hd, ht⟩ := go_head (Nat.le_refl n) hpos
    exact ⟨_, tail, ht, (digit_spec hd).1⟩

end Parser

/-! ## Values -/

open Hc.Update.Parser

/-- The text is read as the value wherever it stands, and counts as `count` values. -/
structure Reads (depth : Nat) (text : Text) (value : Json) (count : Nat) : Prop where
  head : ∃ c rest, text = c :: rest ∧ isSpace c = false ∧ c ≠ closeBracket
  read : ∀ fuel rest nodes, text.length ≤ fuel → nodes + count ≤ 40000 → Stops rest →
    Parser.read fuel depth (text ++ rest) nodes = some (value, rest, nodes + count)

theorem read_cons {c : UInt8} {rest : Text} {fuel depth nodes : Nat} (h : isSpace c = false) :
    Parser.read (fuel + 1) depth (c :: rest) nodes =
      if depth > 24 ∨ nodes + 1 > 40000 then none
      else if c = openBrace then
        match take closeBrace rest with
        | (true, rest) => some (.object [], rest, nodes + 1)
        | (false, rest) => members fuel depth rest (nodes + 1) []
      else if c = openBracket then
        match take closeBracket rest with
        | (true, rest) => some (.array [], rest, nodes + 1)
        | (false, rest) => elements fuel depth rest (nodes + 1) []
      else if c = quote then
        (string (c :: rest)).bind fun p => some (.string p.1, p.2, nodes + 1)
      else
        match word (c :: rest) with
        | some (value, rest) => some (value, rest, nodes + 1)
        | none => (number (c :: rest)).bind fun p => some (.number p.1, p.2, nodes + 1) := by
  rw [Parser.read, space_cons h]
  rfl

variable {depth : Nat}

theorem reads_string (hd : depth ≤ 24) (text : Text) :
    Reads depth (quoteJson text) (.string text) 1 where
  head := ⟨quote, _, rfl, by decide, by decide⟩
  read fuel rest nodes hf hn _ := by
    obtain ⟨fuel, rfl⟩ : ∃ k, fuel = k + 1 := ⟨fuel - 1, by
      have hpos : 0 < (quoteJson text).length := by simp [quoteJson]
      omega⟩
    have hs := @string_quoteJson rest text
    rw [quoteJson, cons_append, cons_append] at hs ⊢
    rw [read_cons (by decide), if_neg (by omega), if_neg (by decide), if_neg (by decide),
      if_pos rfl, hs]
    rfl

theorem word_eq_none {c : UInt8} {rest : Text} (h1 : c ≠ 116) (h2 : c ≠ 102) (h3 : c ≠ 110) :
    word (c :: rest) = none := by
  have htrue : ascii "true" = [116, 114, 117, 101] := rfl
  have hfalse : ascii "false" = [102, 97, 108, 115, 101] := rfl
  have hnull : ascii "null" = [110, 117, 108, 108] := rfl
  simp [word, htrue, hfalse, hnull, h1, h2, h3]

theorem reads_number (hd : depth ≤ 24) {n : Nat} (h : n ≤ 18446744073709551615) :
    Reads depth (decimal n) (.number n) 1 := by
  obtain ⟨c, tail, ht, hc⟩ := decimal_head n
  have hrange : 48 ≤ c.toNat ∧ c.toNat ≤ 57 := by
    simpa [isDigit, UInt8.le_iff_toNat_le] using hc
  have hne : ∀ d : UInt8, d.toNat < 48 ∨ 57 < d.toNat → c ≠ d := by
    rintro d hd rfl
    omega
  have hspace : isSpace c = false := by
    simp [isSpace, hne 32 (by decide), hne 13 (by decide), hne 10 (by decide), hne 9 (by decide)]
  refine ⟨⟨c, tail, ht, hspace, hne _ (by decide)⟩, fun fuel rest nodes hf hn hr => ?_⟩
  obtain ⟨fuel, rfl⟩ : ∃ k, fuel = k + 1 := ⟨fuel - 1, by
    rw [ht, length_cons] at hf
    omega⟩
  have hword : word (c :: (tail ++ rest)) = none :=
    word_eq_none (hne _ (by decide)) (hne _ (by decide)) (hne _ (by decide))
  have hnumber := number_decimal h hr
  rw [ht, cons_append] at hnumber ⊢
  rw [read_cons hspace, if_neg (by omega), if_neg (hne _ (by decide)), if_neg (hne _ (by decide)),
    if_neg (hne _ (by decide)), hword, hnumber]
  rfl

/-- `true` or `false`. -/
def booleanText (b : Bool) : Text := if b then ascii "true" else ascii "false"

theorem reads_boolean (hd : depth ≤ 24) (b : Bool) :
    Reads depth (booleanText b) (.boolean b) 1 := by
  cases b
  · refine ⟨⟨102, [97, 108, 115, 101], rfl, by decide, by decide⟩,
      fun fuel rest nodes hf hn _ => ?_⟩
    obtain ⟨fuel, rfl⟩ : ∃ k, fuel = k + 1 := ⟨fuel - 1, by
      have hlen : (booleanText false).length = 5 := rfl
      omega⟩
    have ht : booleanText false ++ rest = 102 :: 97 :: 108 :: 115 :: 101 :: rest := rfl
    have hword : word (102 :: 97 :: 108 :: 115 :: 101 :: rest) = some (.boolean false, rest) := rfl
    rw [ht, read_cons (by decide), if_neg (by omega), if_neg (by decide), if_neg (by decide),
      if_neg (by decide), hword]
  · refine ⟨⟨116, [114, 117, 101], rfl, by decide, by decide⟩, fun fuel rest nodes hf hn _ => ?_⟩
    obtain ⟨fuel, rfl⟩ : ∃ k, fuel = k + 1 := ⟨fuel - 1, by
      have hlen : (booleanText true).length = 4 := rfl
      omega⟩
    have ht : booleanText true ++ rest = 116 :: 114 :: 117 :: 101 :: rest := rfl
    have hword : word (116 :: 114 :: 117 :: 101 :: rest) = some (.boolean true, rest) := rfl
    rw [ht, read_cons (by decide), if_neg (by omega), if_neg (by decide), if_neg (by decide),
      if_neg (by decide), hword]

/-! ## Arrays and objects -/

/-- A text with the value that it is read as. -/
structure Item (depth : Nat) where
  text : Text
  value : Json
  count : Nat
  reads : Reads depth text value count

theorem commas_cons_cons (t u : Text) (ts : List Text) :
    commas (t :: u :: ts) = t ++ comma :: commas (u :: ts) := rfl

def arrayText (texts : List Text) : Text := openBracket :: commas texts ++ [closeBracket]

def memberText (key text : Text) : Text := quoteJson key ++ colon :: text

def objectText (members : List (Text × Text)) : Text :=
  openBrace :: commas (members.map fun m => memberText m.1 m.2) ++ [closeBrace]

def countOf {depth : Nat} (items : List (Item depth)) : Nat := (items.map Item.count).sum

theorem elements_commas {item : Item (depth + 1)} {items : List (Item (depth + 1))}
    {fuel nodes : Nat} {rest : Text} {values : List Json}
    (hf : (commas ((item :: items).map Item.text)).length < fuel)
    (hn : nodes + countOf (item :: items) ≤ 40000) :
    elements fuel depth (commas ((item :: items).map Item.text) ++ closeBracket :: rest) nodes
        values =
      some (.array (values ++ (item :: items).map Item.value), rest,
        nodes + countOf (item :: items)) := by
  induction items generalizing item fuel nodes values with
  | nil =>
    obtain ⟨fuel, rfl⟩ : ∃ k, fuel = k + 1 := ⟨fuel - 1, by omega⟩
    have hlen : (commas ([item].map Item.text)).length = item.text.length := rfl
    have hcount : countOf [item] = item.count := by simp [countOf]
    have hread := item.reads.read fuel (closeBracket :: rest) nodes
      (by omega) (by omega) (stops_cons (by decide))
    rw [hcount, elements]
    simp only [map_cons, map_nil, commas, hread, Option.bind_eq_bind, Option.bind_some,
      take_cons_of_ne (show isSpace closeBracket = false by decide)
        (show closeBracket ≠ comma by decide),
      take_cons_self (show isSpace closeBracket = false by decide)]
  | cons next items ih =>
    obtain ⟨fuel, rfl⟩ : ∃ k, fuel = k + 1 := ⟨fuel - 1, by omega⟩
    have htext : commas ((item :: next :: items).map Item.text) =
        item.text ++ comma :: commas ((next :: items).map Item.text) := rfl
    have hcount : countOf (item :: next :: items) = item.count + countOf (next :: items) := by
      simp [countOf]
    rw [htext, length_append, length_cons] at hf
    have hread := item.reads.read fuel
      (comma :: (commas ((next :: items).map Item.text) ++ closeBracket :: rest))
      nodes (by omega) (by omega) (stops_cons (by decide))
    rw [htext, hcount, elements, append_assoc, cons_append]
    simp only [hread, Option.bind_eq_bind, Option.bind_some,
      take_cons_self (show isSpace comma = false by decide)]
    rw [ih (by omega) (by omega)]
    simp [Nat.add_assoc]

theorem reads_array (hd : depth ≤ 24) (items : List (Item (depth + 1))) :
    Reads depth (arrayText (items.map Item.text)) (.array (items.map Item.value))
      (1 + countOf items) where
  head := ⟨openBracket, _, rfl, by decide, by decide⟩
  read fuel rest nodes hf hn _ := by
    obtain ⟨fuel, rfl⟩ : ∃ k, fuel = k + 1 := ⟨fuel - 1, by
      rw [arrayText, cons_append, length_cons] at hf
      omega⟩
    have htext : arrayText (items.map Item.text) ++ rest =
        openBracket :: (commas (items.map Item.text) ++ closeBracket :: rest) := by
      simp [arrayText]
    rw [htext, read_cons (by decide), if_neg (by omega), if_neg (by decide), if_pos rfl]
    cases items with
    | nil =>
      have hzero : countOf ([] : List (Item (depth + 1))) = 0 := rfl
      simp [commas, take_cons_self (show isSpace closeBracket = false by decide), hzero]
    | cons item items =>
      obtain ⟨c, tail, hc, hspace, hne⟩ := item.reads.head
      have hfirst : ∃ tail, commas ((item :: items).map Item.text) ++ closeBracket :: rest =
          c :: tail := by
        cases items with
        | nil => exact ⟨tail ++ closeBracket :: rest, by simp [commas, hc]⟩
        | cons next items => exact ⟨_, by rw [map_cons, map_cons, commas_cons_cons, hc]; rfl⟩
      obtain ⟨tail', ht⟩ := hfirst
      have htake : take closeBracket (commas ((item :: items).map Item.text) ++
          closeBracket :: rest) =
          (false, commas ((item :: items).map Item.text) ++ closeBracket :: rest) := by
        rw [ht]
        exact take_cons_of_ne hspace hne
      rw [arrayText, length_append, length_cons, length_singleton] at hf
      simp only [htake]
      rw [elements_commas (by omega) (by omega), nil_append, Nat.add_assoc]

theorem string_memberText (key text rest : Text) :
    string (memberText key text ++ rest) = some (key, colon :: (text ++ rest)) := by
  rw [memberText, append_assoc, cons_append, string_quoteJson]

theorem length_memberText (key text : Text) :
    (memberText key text).length = (quoteJson key).length + (text.length + 1) := by
  simp [memberText]

theorem members_commas {field : Text × Item (depth + 1)} {fields : List (Text × Item (depth + 1))}
    {fuel nodes : Nat} {rest : Text} {done : List (Text × Json)}
    (hk : (done.map Prod.fst ++ (field :: fields).map Prod.fst).Nodup)
    (hf : (commas ((field :: fields).map fun f => memberText f.1 f.2.text)).length < fuel)
    (hn : nodes + countOf ((field :: fields).map Prod.snd) ≤ 40000) :
    members fuel depth
        (commas ((field :: fields).map fun f => memberText f.1 f.2.text) ++ closeBrace :: rest)
        nodes done =
      some (.object (done ++ (field :: fields).map fun f => (f.1, f.2.value)), rest,
        nodes + countOf ((field :: fields).map Prod.snd)) := by
  induction fields generalizing field fuel nodes done with
  | nil =>
    obtain ⟨fuel, rfl⟩ : ∃ k, fuel = k + 1 := ⟨fuel - 1, by omega⟩
    have hlen : (commas ([field].map fun f => memberText f.1 f.2.text)).length =
        (quoteJson field.1).length + (field.2.text.length + 1) := length_memberText ..
    have hcount : countOf ([field].map Prod.snd) = field.2.count := by simp [countOf]
    have hread := field.2.reads.read fuel (closeBrace :: rest) nodes
      (by omega) (by omega) (stops_cons (by decide))
    have hnew : field.1 ∉ done.map Prod.fst := fun hm =>
      (nodup_append.1 hk).2.2 _ hm _ mem_cons_self rfl
    rw [hcount, members]
    simp only [map_cons, map_nil, commas, string_memberText, hread,
      Option.bind_eq_bind, Option.bind_some, if_neg hnew,
      take_cons_self (show isSpace colon = false by decide),
      take_cons_of_ne (show isSpace closeBrace = false by decide)
        (show closeBrace ≠ comma by decide),
      take_cons_self (show isSpace closeBrace = false by decide)]
  | cons next fields ih =>
    obtain ⟨fuel, rfl⟩ : ∃ k, fuel = k + 1 := ⟨fuel - 1, by omega⟩
    have htext : commas ((field :: next :: fields).map fun f => memberText f.1 f.2.text) =
        memberText field.1 field.2.text ++
          comma :: commas ((next :: fields).map fun f => memberText f.1 f.2.text) := rfl
    have hcount : countOf ((field :: next :: fields).map Prod.snd) =
        field.2.count + countOf ((next :: fields).map Prod.snd) := by simp [countOf]
    rw [htext, length_append, length_cons, length_memberText] at hf
    have hread := field.2.reads.read fuel
      (comma :: (commas ((next :: fields).map fun f => memberText f.1 f.2.text) ++
        closeBrace :: rest)) nodes (by omega) (by omega) (stops_cons (by decide))
    have hnew : field.1 ∉ done.map Prod.fst := fun hm =>
      (nodup_append.1 hk).2.2 _ hm _ mem_cons_self rfl
    rw [htext, hcount, members, append_assoc, cons_append]
    simp only [string_memberText, Option.bind_eq_bind, Option.bind_some, hread, if_neg hnew,
      take_cons_self (show isSpace colon = false by decide),
      take_cons_self (show isSpace comma = false by decide)]
    rw [ih (by simpa using hk) (by omega) (by omega)]
    simp [Nat.add_assoc]

theorem reads_object (hd : depth ≤ 24) (fields : List (Text × Item (depth + 1)))
    (hk : (fields.map Prod.fst).Nodup) :
    Reads depth (objectText (fields.map fun f => (f.1, f.2.text)))
      (.object (fields.map fun f => (f.1, f.2.value))) (1 + countOf (fields.map Prod.snd)) where
  head := ⟨openBrace, _, rfl, by decide, by decide⟩
  read fuel rest nodes hf hn _ := by
    obtain ⟨fuel, rfl⟩ : ∃ k, fuel = k + 1 := ⟨fuel - 1, by
      rw [objectText, cons_append, length_cons] at hf
      omega⟩
    have hmap : (fields.map fun f => (f.1, f.2.text)).map (fun m => memberText m.1 m.2) =
        fields.map fun f => memberText f.1 f.2.text := by
      rw [map_map]
      rfl
    have htext : objectText (fields.map fun f => (f.1, f.2.text)) ++ rest =
        openBrace :: (commas (fields.map fun f => memberText f.1 f.2.text) ++
          closeBrace :: rest) := by
      simp [objectText, hmap]
    rw [htext, read_cons (by decide), if_neg (by omega), if_pos rfl]
    cases fields with
    | nil =>
      have hzero : countOf ([] : List (Item (depth + 1))) = 0 := rfl
      simp [commas, take_cons_self (show isSpace closeBrace = false by decide), hzero]
    | cons field fields =>
      have hfirst : ∃ tail, commas ((field :: fields).map fun f => memberText f.1 f.2.text) ++
          closeBrace :: rest = quote :: tail := by
        cases fields with
        | nil => exact ⟨_, rfl⟩
        | cons next fields => exact ⟨_, rfl⟩
      obtain ⟨tail, ht⟩ := hfirst
      have htake : take closeBrace
        (commas ((field :: fields).map fun f => memberText f.1 f.2.text) ++
          closeBrace :: rest) =
          (false, commas ((field :: fields).map fun f => memberText f.1 f.2.text) ++
            closeBrace :: rest) := by
        rw [ht]
        exact take_cons_of_ne (by decide) (by decide)
      rw [objectText, length_append, length_cons, length_singleton, hmap] at hf
      simp only [htake]
      rw [members_commas (by simpa using hk) (by omega) (by omega), nil_append, Nat.add_assoc]

/-- A text that is read as a value is parsed as it, if it is not too long and UTF-8. -/
theorem parseJson_of_reads {text : Text} {value : Json} {count : Nat}
    (h : Reads 0 text value count) (hn : count ≤ 40000) (hlen : text.length ≤ 1048576)
    (hu : ValidUtf8 text) : parseJson text = .ok value := by
  obtain ⟨c, tail, ht, -⟩ := h.head
  have hread := h.read (text.length + 1) [] 0 (by omega) (by omega)
    (by simp [Stops])
  rw [append_nil] at hread
  have hne : text ≠ [] := fun h => by rw [h] at ht; cases ht
  rw [parseJson, require, failIf_of_not (by simp only [not_not]; exact ⟨hne, hlen, hu⟩),
    ok_bind, hread]
  rfl

/-- A text in ASCII is UTF-8. -/
theorem validUtf8_of_ascii {text : Text} (h : ∀ c ∈ text, c < 128) : ValidUtf8 text := by
  have hchar : ∀ n < 128, String.utf8EncodeChar (Char.ofNat n) = [UInt8.ofNat n] := by
    decide +kernel
  have hencode : text.toByteArray = (text.map fun c => Char.ofNat c.toNat).utf8Encode := by
    induction text with
    | nil => rfl
    | cons c text ih =>
      have hc := hchar c.toNat (UInt8.lt_iff_toNat_lt.1 (h c mem_cons_self))
      rw [UInt8.ofNat_toNat] at hc
      rw [map_cons, utf8Encode_cons, utf8Encode_singleton, hc,
        ← ih fun d hd => h d (mem_cons_of_mem _ hd), ← toByteArray_append]
      rfl
  rw [ValidUtf8, hencode]
  exact ByteArray.isValidUTF8_utf8Encode

theorem bounds_of_parseJson {text : Text} {value : Json} (h : parseJson text = .ok value) :
    text.length ≤ 1048576 ∧ ValidUtf8 text := by
  simp only [parseJson, bind_eq_ok, require_eq_ok] at h
  obtain ⟨-, ⟨-, hlen, hu⟩, -⟩ := h
  exact ⟨hlen, hu⟩

end Hc.Update
