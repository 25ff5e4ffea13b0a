import HyperCommander.AutoUpdate.JsonGrammar

/-!
# The updater's JSON reader accepts its grammar

- **Reading what the grammar forms**: `Forms.parsed`, by induction on the derivation.
- **The grammar forms what is read**: `sound`, by induction on the fuel; `read_step`,
  `elements_step` and `members_step` are its steps.
- **Main results**: `parseJson_eq_ok_iff`, `parseJson_quoteJson`.
-/

open Option Outcome

namespace Hc.Update.Grammar

open Hc.Update.Parser

/-! ## Numbers -/

/-- The value of the digits behind a number. -/
def digitsFrom (n : Nat) (t : Text) : Nat := t.foldl (fun n c => n * 10 + (c.toNat - 48)) n

theorem digitsFrom_cons (n : Nat) (c : UInt8) (t : Text) :
    digitsFrom n (c :: t) = digitsFrom (n * 10 + (c.toNat - 48)) t := by
  rw [digitsFrom, digitsFrom, List.foldl_cons]

theorem le_digitsFrom (n : Nat) (t : Text) : n ≤ digitsFrom n t := by
  induction t generalizing n with
  | nil => exact Nat.le_refl n
  | cons c t ih =>
    have := ih (n * 10 + (c.toNat - 48))
    rw [digitsFrom_cons]
    omega

variable {c b : UInt8} {n fuel depth nodes : Nat} {bytes rest t a l key ts : Text} {v j : Json}
  {vs : List Json} {fs : List (Text × Json)}

theorem isDigit_iff : isDigit c = true ↔ 48 ≤ c.toNat ∧ c.toNat ≤ 57 := by
  simp [isDigit, UInt8.le_iff_toNat_le]

theorem of_digits {leading : Bool} {m : Nat}
    (h : digits leading n bytes = some (m, rest)) : ∃ t, bytes = t ++ rest ∧
      (∀ c ∈ t, isDigit c = true) ∧ m = digitsFrom n t ∧ (leading = true → t = []) ∧
      (n ≤ 18446744073709551615 → m ≤ 18446744073709551615) := by
  induction bytes generalizing leading n with
  | nil =>
    cases h
    exact ⟨[], rfl, fun _ hc => (by cases hc), rfl, fun _ => rfl, id⟩
  | cons c bytes ih =>
    rw [digits] at h
    split at h
    · rename_i hc
      split at h
      · cases h
      rename_i hlead
      split at h
      · cases h
      rename_i hfits
      obtain ⟨t, rfl, hall, rfl, -, hle⟩ := ih h
      refine ⟨c :: t, rfl, List.forall_mem_cons.mpr ⟨hc, hall⟩, rfl,
        fun hl => absurd hl hlead, fun _ => hle ?_⟩
      have := isDigit_iff.mp hc
      omega
    · cases h
      exact ⟨[], rfl, fun _ hc => (by cases hc), rfl, fun _ => rfl, id⟩

theorem digits_of {leading : Bool} (hall : ∀ c ∈ t, isDigit c = true)
    (hlead : leading = true → t = []) (hfits : digitsFrom n t ≤ 18446744073709551615)
    (hs : Stops rest) : digits leading n (t ++ rest) = some (digitsFrom n t, rest) := by
  induction t generalizing leading n with
  | nil => exact digits_of_stops hs leading n
  | cons c t ih =>
    obtain ⟨hc, hall⟩ := List.forall_mem_cons.mp hall
    rw [digitsFrom_cons] at hfits ⊢
    have hle := le_digitsFrom (n * 10 + (c.toNat - 48)) t
    rw [List.cons_append, digits, if_pos hc, if_neg (fun hl => by cases hlead hl),
      if_neg (by omega)]
    exact ih hall (fun hl => by cases hl) hfits

theorem number_of_numeral (h : Numeral t n) (hs : Stops rest) :
    number (t ++ rest) = some (n, rest) := by
  obtain ⟨hne, hall, hlead, hvalue, hfits⟩ := h
  cases t with
  | nil => exact absurd rfl hne
  | cons c t =>
    obtain ⟨hc, hall⟩ := List.forall_mem_cons.mp hall
    have hn : n = digitsFrom (c.toNat - 48) t := by
      rw [hvalue, List.foldl_cons, Nat.zero_mul, Nat.zero_add, digitsFrom]
    rw [List.cons_append, number, if_pos hc, hn]
    refine digits_of hall (fun hl => ?_) (hn ▸ hfits) hs
    have hzero : c = zero := by simpa using hl
    have := hlead (by rw [hzero]; rfl)
    exact List.eq_nil_of_length_eq_zero (by simpa using this)

theorem numeral_of_number (h : number bytes = some (n, rest)) :
    ∃ t, bytes = t ++ rest ∧ Numeral t n := by
  cases bytes with
  | nil => cases h
  | cons c bytes =>
    rw [number] at h
    split at h
    · rename_i hc
      have hrange := isDigit_iff.mp hc
      obtain ⟨t, rfl, hall, hvalue, hlead, hle⟩ := of_digits h
      refine ⟨c :: t, rfl, List.cons_ne_nil _ _, List.forall_mem_cons.mpr ⟨hc, hall⟩,
        fun hz => ?_, ?_, hle (by omega)⟩
      · cases hz
        rw [hlead (by decide)]
        rfl
      · rw [hvalue, List.foldl_cons, Nat.zero_mul, Nat.zero_add, digitsFrom]
    · cases h

/-! ## Words -/

theorem of_word {alone : Nat → Prop} (h : word bytes = some (v, rest)) :
    ∃ t, bytes = t ++ rest ∧ Forms alone t (.value v) ∧ v.nodes = 1 ∧ v.depth = 0 := by
  unfold word at h
  split at h
  · rename_i ht
    cases h
    exact ⟨ascii "true", by rw [← ht, List.take_append_drop], .boolean true, rfl, rfl⟩
  split at h
  · rename_i ht
    cases h
    exact ⟨ascii "false", by rw [← ht, List.take_append_drop], .boolean false, rfl, rfl⟩
  split at h
  · rename_i ht
    cases h
    exact ⟨ascii "null", by rw [← ht, List.take_append_drop], .null, rfl, rfl⟩
  · cases h

/-! ## Reading what the grammar forms -/

theorem space_space (bytes : Text) : space (space bytes) = space bytes := by
  obtain ⟨a, ht, ha⟩ := exists_blank bytes
  calc space (space bytes) = space (a ++ space bytes) := (space_append ha _).symm
    _ = space bytes := by rw [← ht]

theorem read_space (fuel depth : Nat) (bytes : Text) (nodes : Nat) :
    Parser.read fuel depth (space bytes) nodes = Parser.read fuel depth bytes nodes := by
  cases fuel with
  | zero => rw [Parser.read, Parser.read]
  | succ fuel => rw [Parser.read, Parser.read, space_space]

theorem read_blank (ha : Blank a) (fuel depth : Nat) (bytes : Text) (nodes : Nat) :
    Parser.read fuel depth (a ++ bytes) nodes = Parser.read fuel depth bytes nodes := by
  rw [← read_space, space_append ha, read_space]

theorem elements_space (fuel depth : Nat) (bytes : Text) (nodes : Nat) (acc : List Json) :
    elements fuel depth (space bytes) nodes acc = elements fuel depth bytes nodes acc := by
  cases fuel with
  | zero => rw [elements, elements]
  | succ fuel => rw [elements, elements, read_space]

theorem string_space (bytes : Text) : string (space bytes) = string bytes := by
  rw [string, string, take, take, space_space]

theorem members_space (fuel depth : Nat) (bytes : Text) (nodes : Nat) (acc : List (Text × Json)) :
    members fuel depth (space bytes) nodes acc = members fuel depth bytes nodes acc := by
  cases fuel with
  | zero => rw [members, members]
  | succ fuel => rw [members, members, string_space]

variable {alone : Nat → Prop}

/-- A part begins with a character that closes nothing. -/
theorem Forms.head {t : Text} {p : Part} (h : Forms alone t p) :
    ∃ a c s, t = a ++ c :: s ∧ Blank a ∧ isSpace c = false ∧ c ≠ closeBracket ∧ c ≠ closeBrace := by
  have hquote : isSpace quote = false ∧ quote ≠ closeBracket ∧ quote ≠ closeBrace := by decide
  induction h with
  | null => exact ⟨[], 110, _, rfl, .nil, by decide⟩
  | boolean b => cases b <;> exact ⟨[], _, _, rfl, .nil, by decide⟩
  | @number t n h =>
    cases t with
    | nil => exact absurd rfl h.ne
    | cons c t =>
      have hc := isDigit_iff.mp (h.digits c List.mem_cons_self)
      have hne : ∀ d : UInt8, d.toNat < 48 ∨ 57 < d.toNat → c ≠ d := by
        rintro d hd rfl
        omega
      refine ⟨[], c, t, rfl, .nil, ?_, hne _ (by decide), hne _ (by decide)⟩
      simp [isSpace, hne 32 (by decide), hne 13 (by decide), hne 10 (by decide), hne 9 (by decide)]
  | string h => exact ⟨[], quote, _, rfl, .nil, hquote⟩
  | emptyArray h => exact ⟨[], openBracket, _, rfl, .nil, by decide⟩
  | array h ih => exact ⟨[], openBracket, _, rfl, .nil, by decide⟩
  | emptyObject h => exact ⟨[], openBrace, _, rfl, .nil, by decide⟩
  | object h hk ih => exact ⟨[], openBrace, _, rfl, .nil, by decide⟩
  | @padded a t b v ha h hb ih =>
    obtain ⟨a', c, s, rfl, ha', hc⟩ := ih
    exact ⟨a ++ a', c, s ++ b, by simp, ha.append ha', hc⟩
  | lastElement h ih => exact ih
  | @element t ts v vs h hs ih _ =>
    obtain ⟨a, c, s, rfl, ha, hc⟩ := ih
    exact ⟨a, c, s ++ comma :: ts, by simp, ha, hc⟩
  | lastMember hl h ih =>
    obtain ⟨a, k, b, rfl, ha, -, -⟩ := hl
    exact ⟨a, quote, _, by rw [List.append_assoc]; rfl, ha, hquote⟩
  | member hl h hs ih _ =>
    obtain ⟨a, k, b, rfl, ha, -, -⟩ := hl
    exact ⟨a, quote, _, by rw [List.append_assoc]; rfl, ha, hquote⟩

/-- Before a part nothing is closed. -/
theorem Forms.take_close {p : Part} (h : Forms alone t p) (rest : Text) :
    take closeBracket (t ++ rest) = (false, space (t ++ rest)) ∧
      take closeBrace (t ++ rest) = (false, space (t ++ rest)) := by
  obtain ⟨a, c, s, rfl, ha, hspace, h1, h2⟩ := h.head
  rw [List.append_assoc, take_append ha, take_append ha, space_append ha, List.cons_append,
    take_cons_of_ne hspace h1, take_cons_of_ne hspace h2, space_cons hspace]
  exact ⟨rfl, rfl⟩

theorem stops_blank {b : Text} (hb : Blank b) (hs : Stops rest) : Stops (b ++ rest) := by
  cases b with
  | nil => exact hs
  | cons c b =>
    refine stops_cons ?_
    have hc := hb c List.mem_cons_self
    cases hd : isDigit c with
    | false => rfl
    | true =>
      simp only [isSpace, Bool.or_eq_true, decide_eq_true_eq] at hc
      rcases hc with ((rfl | rfl) | rfl) | rfl <;> exact absurd hd (by decide)

/-- What the reader does with the text of a part, whatever follows it. -/
def Parsed : Text → Part → Prop
  | t, .value v => ∀ fuel depth rest nodes, t.length ≤ fuel → depth + v.depth ≤ 24 →
      nodes + v.nodes ≤ 40000 → Stops rest →
      Parser.read fuel depth (t ++ rest) nodes = some (v, rest, nodes + v.nodes)
  | t, .padded v => ∀ fuel depth rest nodes, t.length ≤ fuel → depth + v.depth ≤ 24 →
      nodes + v.nodes ≤ 40000 → Stops rest → ∃ b, Blank b ∧
        Parser.read fuel depth (t ++ rest) nodes = some (v, b ++ rest, nodes + v.nodes)
  | t, .elements vs => ∀ fuel depth rest nodes acc, t.length < fuel →
      depth + Json.depthOf vs ≤ 24 → nodes + Json.nodesOf vs ≤ 40000 →
      elements fuel depth (t ++ closeBracket :: rest) nodes acc =
        some (.array (acc ++ vs), rest, nodes + Json.nodesOf vs)
  | t, .members fs => ∀ fuel depth rest nodes acc, t.length < fuel →
      depth + Json.depthOfFields fs ≤ 24 → nodes + Json.nodesOfFields fs ≤ 40000 →
      (acc.map Prod.fst ++ fs.map Prod.fst).Nodup →
      members fuel depth (t ++ closeBrace :: rest) nodes acc =
        some (.object (acc ++ fs), rest, nodes + Json.nodesOfFields fs)

theorem string_of_label (h : Label Unpaired l key) (rest : Text) :
    ∃ b, Blank b ∧ string (l ++ rest) = some (key, b ++ rest) := by
  obtain ⟨a, k, b, rfl, ha, hk, hb⟩ := h
  refine ⟨b, hb, ?_⟩
  have := string_of_chars hk ha (b ++ rest)
  simpa using this

theorem parsed_word {w : Text} {s : Text} (hw : w = c :: s)
    (hc : isSpace c = false) (h1 : c ≠ openBrace) (h2 : c ≠ openBracket) (h3 : c ≠ quote)
    (hv : ∀ rest, word (w ++ rest) = some (v, rest)) (hn : v.nodes = 1) :
    Parsed w (.value v) := by
  intro fuel depth rest nodes hf hd hnodes _
  obtain ⟨fuel, rfl⟩ : ∃ k, fuel = k + 1 := ⟨fuel - 1, by
    rw [hw, List.length_cons] at hf
    omega⟩
  have hword := hv rest
  rw [hw, List.cons_append] at hword ⊢
  rw [read_cons hc, if_neg (by omega), if_neg h1, if_neg h2, if_neg h3, hword, hn]

theorem parsed_number (h : Numeral t n) : Parsed t (.value (.number n)) := by
  intro fuel depth rest nodes hf hd hnodes hs
  have hnumber := number_of_numeral h hs
  have hone : (Json.number n).nodes = 1 := by simp [Json.nodes]
  cases t with
  | nil => exact absurd rfl h.ne
  | cons c t =>
    obtain ⟨fuel, rfl⟩ : ∃ k, fuel = k + 1 := ⟨fuel - 1, by
      rw [List.length_cons] at hf
      omega⟩
    have hc := isDigit_iff.mp (h.digits c List.mem_cons_self)
    have hne : ∀ d : UInt8, d.toNat < 48 ∨ 57 < d.toNat → c ≠ d := by
      rintro d hd rfl
      omega
    have hspace : isSpace c = false := by
      simp [isSpace, hne 32 (by decide), hne 13 (by decide), hne 10 (by decide), hne 9 (by decide)]
    rw [List.cons_append] at hnumber ⊢
    rw [read_cons hspace, if_neg (by omega), if_neg (hne _ (by decide)), if_neg (hne _ (by decide)),
      if_neg (hne _ (by decide)), word_eq_none (hne _ (by decide)) (hne _ (by decide))
      (hne _ (by decide)), hnumber, hone]
    rfl

theorem parsed_string {v : Text} (h : Chars Unpaired t v) :
    Parsed (quote :: (t ++ [quote])) (.value (.string v)) := by
  intro fuel depth rest nodes hf hd hnodes _
  obtain ⟨fuel, rfl⟩ : ∃ k, fuel = k + 1 := ⟨fuel - 1, by
    rw [List.length_cons] at hf
    omega⟩
  have hstring := string_of_chars h .nil rest
  have htext : quote :: (t ++ [quote]) ++ rest = quote :: (t ++ quote :: rest) := by simp
  have hone : (Json.string v).nodes = 1 := by simp [Json.nodes]
  rw [List.nil_append] at hstring
  rw [htext, read_cons (by decide), if_neg (by omega), if_neg (by decide), if_neg (by decide),
    if_pos rfl, hstring, hone]
  rfl

theorem parsed_array (h : Forms Unpaired t (.elements vs)) (ih : Parsed t (.elements vs)) :
    Parsed (openBracket :: (t ++ [closeBracket])) (.value (.array vs)) := by
  intro fuel depth rest nodes hf hd hnodes _
  simp only [List.length_cons, List.length_append, List.length_nil] at hf
  obtain ⟨fuel, rfl⟩ : ∃ k, fuel = k + 1 := ⟨fuel - 1, by omega⟩
  have htext : openBracket :: (t ++ [closeBracket]) ++ rest =
      openBracket :: (t ++ closeBracket :: rest) := by simp
  rw [Json.depth] at hd
  rw [Json.nodes] at hnodes ⊢
  rw [htext, read_cons (by decide), if_neg (by omega), if_neg (by decide), if_pos rfl,
    (h.take_close _).1]
  show elements fuel depth (space (t ++ closeBracket :: rest)) (nodes + 1) [] = _
  rw [elements_space, ih fuel depth rest (nodes + 1) [] (by omega) hd (by omega), List.nil_append,
    Nat.add_assoc]

theorem parsed_object (h : Forms Unpaired t (.members fs))
    (hk : (fs.map Prod.fst).Nodup) (ih : Parsed t (.members fs)) :
    Parsed (openBrace :: (t ++ [closeBrace])) (.value (.object fs)) := by
  intro fuel depth rest nodes hf hd hnodes _
  simp only [List.length_cons, List.length_append, List.length_nil] at hf
  obtain ⟨fuel, rfl⟩ : ∃ k, fuel = k + 1 := ⟨fuel - 1, by omega⟩
  have htext : openBrace :: (t ++ [closeBrace]) ++ rest =
      openBrace :: (t ++ closeBrace :: rest) := by simp
  rw [Json.depth] at hd
  rw [Json.nodes] at hnodes ⊢
  rw [htext, read_cons (by decide), if_neg (by omega), if_pos rfl, (h.take_close _).2]
  show members fuel depth (space (t ++ closeBrace :: rest)) (nodes + 1) [] = _
  rw [members_space, ih fuel depth rest (nodes + 1) [] (by omega) hd (by omega) hk, List.nil_append,
    Nat.add_assoc]

theorem parsed_element (ih : Parsed t (.padded v))
    (ihs : Parsed ts (.elements vs)) : Parsed (t ++ comma :: ts) (.elements (v :: vs)) := by
  intro fuel depth rest nodes acc hf hd hnodes
  rw [List.length_append, List.length_cons] at hf
  obtain ⟨fuel, rfl⟩ : ∃ k, fuel = k + 1 := ⟨fuel - 1, by omega⟩
  rw [Json.depthOf] at hd
  rw [Json.nodesOf] at hnodes ⊢
  obtain ⟨b, hb, hread⟩ := ih fuel (depth + 1) (comma :: (ts ++ closeBracket :: rest)) nodes
    (by omega) (by omega) (by omega) (stops_cons (by decide))
  rw [elements, List.append_assoc, List.cons_append, hread]
  simp only [bind_eq_bind, bind_some, take_append hb,
    take_cons_self (show isSpace comma = false by decide)]
  rw [ihs fuel depth rest (nodes + v.nodes) (acc ++ [v]) (by omega) (by omega) (by omega),
    List.append_assoc, Nat.add_assoc]
  rfl

theorem parsed_lastElement (ih : Parsed t (.padded v)) :
    Parsed t (.elements [v]) := by
  intro fuel depth rest nodes acc hf hd hnodes
  obtain ⟨fuel, rfl⟩ : ∃ k, fuel = k + 1 := ⟨fuel - 1, by omega⟩
  simp only [Json.depthOf, Json.nodesOf, Nat.add_zero] at hd hnodes ⊢
  obtain ⟨b, hb, hread⟩ := ih fuel (depth + 1) (closeBracket :: rest) nodes
    (by omega) (by omega) (by omega) (stops_cons (by decide))
  rw [elements, hread]
  simp only [bind_eq_bind, bind_some, take_append hb,
    take_cons_of_ne (show isSpace closeBracket = false by decide)
      (show closeBracket ≠ comma by decide),
    take_cons_self (show isSpace closeBracket = false by decide)]

theorem parsed_member
    (hl : Label Unpaired l key) (ih : Parsed t (.padded v)) (ihs : Parsed ts (.members fs)) :
    Parsed (l ++ colon :: (t ++ comma :: ts)) (.members ((key, v) :: fs)) := by
  intro fuel depth rest nodes acc hf hd hnodes hk
  simp only [List.length_append, List.length_cons] at hf
  obtain ⟨fuel, rfl⟩ : ∃ k, fuel = k + 1 := ⟨fuel - 1, by omega⟩
  rw [Json.depthOfFields] at hd
  rw [Json.nodesOfFields] at hnodes ⊢
  obtain ⟨b, hb, hread⟩ := ih fuel (depth + 1) (comma :: (ts ++ closeBrace :: rest)) nodes
    (by omega) (by omega) (by omega) (stops_cons (by decide))
  obtain ⟨b', hb', hstring⟩ :=
    string_of_label hl (colon :: (t ++ comma :: (ts ++ closeBrace :: rest)))
  have hnew : key ∉ acc.map Prod.fst := fun hm =>
    (List.nodup_append.mp hk).2.2 key hm key List.mem_cons_self rfl
  have htext : l ++ colon :: (t ++ comma :: ts) ++ closeBrace :: rest =
      l ++ colon :: (t ++ comma :: (ts ++ closeBrace :: rest)) := by simp
  rw [members, htext, hstring]
  simp only [bind_eq_bind, bind_some, take_append hb', hread, if_neg hnew,
    take_cons_self (show isSpace colon = false by decide), take_append hb,
    take_cons_self (show isSpace comma = false by decide)]
  rw [ihs fuel depth rest (nodes + v.nodes) (acc ++ [(key, v)]) (by omega) (by omega) (by omega)
    (by simpa using hk), List.append_assoc, Nat.add_assoc]
  rfl

theorem parsed_lastMember (hl : Label Unpaired l key)
    (ih : Parsed t (.padded v)) : Parsed (l ++ colon :: t) (.members [(key, v)]) := by
  intro fuel depth rest nodes acc hf hd hnodes hk
  simp only [List.length_append, List.length_cons] at hf
  obtain ⟨fuel, rfl⟩ : ∃ k, fuel = k + 1 := ⟨fuel - 1, by omega⟩
  simp only [Json.depthOfFields, Json.nodesOfFields, Nat.add_zero] at hd hnodes ⊢
  obtain ⟨b, hb, hread⟩ := ih fuel (depth + 1) (closeBrace :: rest) nodes
    (by omega) (by omega) (by omega) (stops_cons (by decide))
  obtain ⟨b', hb', hstring⟩ := string_of_label hl (colon :: (t ++ closeBrace :: rest))
  have hnew : key ∉ acc.map Prod.fst := fun hm =>
    (List.nodup_append.mp hk).2.2 key hm key List.mem_cons_self rfl
  have htext : l ++ colon :: t ++ closeBrace :: rest = l ++ colon :: (t ++ closeBrace :: rest) := by
    simp
  rw [members, htext, hstring]
  simp only [bind_eq_bind, bind_some, take_append hb', hread, if_neg hnew,
    take_cons_self (show isSpace colon = false by decide), take_append hb,
    take_cons_of_ne (show isSpace closeBrace = false by decide) (show closeBrace ≠ comma by decide),
    take_cons_self (show isSpace closeBrace = false by decide)]

/-- The reader reads what the grammar forms. -/
theorem Forms.parsed {p : Part} (h : Forms Unpaired t p) : Parsed t p := by
  induction h with
  | null =>
    exact parsed_word rfl (by decide) (by decide) (by decide) (by decide) (fun _ => rfl)
      (by simp [Json.nodes])
  | boolean b =>
    cases b <;> exact parsed_word rfl (by decide) (by decide) (by decide) (by decide)
      (fun _ => rfl) (by simp [Json.nodes])
  | number h => exact parsed_number h
  | string h => exact parsed_string h
  | @emptyArray a h =>
    intro fuel depth rest nodes hf hd hnodes _
    obtain ⟨fuel, rfl⟩ : ∃ k, fuel = k + 1 := ⟨fuel - 1, by
      rw [List.length_cons] at hf
      omega⟩
    have htext : openBracket :: (a ++ [closeBracket]) ++ rest =
        openBracket :: (a ++ closeBracket :: rest) := by simp
    simp only [Json.nodes, Json.nodesOf, Nat.add_zero] at hnodes ⊢
    rw [htext, read_cons (by decide), if_neg (by omega), if_neg (by decide), if_pos rfl,
      take_append h, take_cons_self (by decide)]
  | array h ih => exact parsed_array h ih
  | @emptyObject a h =>
    intro fuel depth rest nodes hf hd hnodes _
    obtain ⟨fuel, rfl⟩ : ∃ k, fuel = k + 1 := ⟨fuel - 1, by
      rw [List.length_cons] at hf
      omega⟩
    have htext : openBrace :: (a ++ [closeBrace]) ++ rest =
        openBrace :: (a ++ closeBrace :: rest) := by simp
    simp only [Json.nodes, Json.nodesOfFields, Nat.add_zero] at hnodes ⊢
    rw [htext, read_cons (by decide), if_neg (by omega), if_pos rfl, take_append h,
      take_cons_self (by decide)]
  | object h hk ih => exact parsed_object h hk ih
  | @padded a t b v ha h hb ih =>
    intro fuel depth rest nodes hf hd hnodes hs
    simp only [List.length_append] at hf
    refine ⟨b, hb, ?_⟩
    rw [List.append_assoc, read_blank ha, List.append_assoc]
    exact ih fuel depth (b ++ rest) nodes (by omega) hd hnodes (stops_blank hb hs)
  | lastElement h ih => exact parsed_lastElement ih
  | element h hs ih ihs => exact parsed_element ih ihs
  | lastMember hl h ih => exact parsed_lastMember hl ih
  | member hl h hs ih ihs => exact parsed_member hl ih ihs

/-! ## The grammar forms what is read -/

theorem Forms.pad (ha : Blank a) (h : Forms alone t (.elements vs)) :
    Forms alone (a ++ t) (.elements vs) := by
  have hpad : ∀ {t v}, Forms alone t (.padded v) → Forms alone (a ++ t) (.padded v) := by
    rintro t v (_ | _ | _ | _ | _ | _ | _ | _ | @⟨a', t, b, _, ha', h, hb⟩)
    rw [← List.append_assoc]
    exact .padded (ha.append ha') h hb
  cases h with
  | lastElement h => exact .lastElement (hpad h)
  | element h hs =>
    rw [← List.append_assoc]
    exact .element (hpad h) hs

theorem Label.pad (ha : Blank a) (h : Label alone l key) :
    Label alone (a ++ l) key := by
  obtain ⟨a', k, b, rfl, ha', hk, hb⟩ := h
  exact ⟨a ++ a', k, b, (List.append_assoc ..).symm, ha.append ha', hk, hb⟩

theorem Forms.pad_members (ha : Blank a)
    (h : Forms alone t (.members fs)) : Forms alone (a ++ t) (.members fs) := by
  cases h with
  | lastMember hl h =>
    rw [← List.append_assoc]
    exact .lastMember (hl.pad ha) h
  | member hl h hs =>
    rw [← List.append_assoc]
    exact .member (hl.pad ha) h hs

/-- A value at the front of what is read. -/
def ReadFrom (depth nodes : Nat) (bytes : Text) (v : Json) (rest : Text) (n : Nat) : Prop :=
  ∃ a t, bytes = a ++ (t ++ rest) ∧ Blank a ∧ Forms Unpaired t (.value v) ∧ n = nodes + v.nodes ∧
    depth + v.depth ≤ 24 ∧ n ≤ 40000

/-- Values at the front of what is read, up to the end of their array. -/
def ElementsFrom (depth nodes : Nat) (bytes : Text) (acc : List Json) (j : Json) (rest : Text)
    (n : Nat) : Prop :=
  ∃ t vs, bytes = t ++ closeBracket :: rest ∧ Forms Unpaired t (.elements vs) ∧
    j = .array (acc ++ vs) ∧ n = nodes + Json.nodesOf vs ∧ depth + Json.depthOf vs ≤ 24 ∧ n ≤ 40000

/-- Fields at the front of what is read, up to the end of their object. -/
def MembersFrom (depth nodes : Nat) (bytes : Text) (acc : List (Text × Json)) (j : Json)
    (rest : Text) (n : Nat) : Prop :=
  ∃ t fs, bytes = t ++ closeBrace :: rest ∧ Forms Unpaired t (.members fs) ∧
    j = .object (acc ++ fs) ∧ n = nodes + Json.nodesOfFields fs ∧
    depth + Json.depthOfFields fs ≤ 24 ∧ n ≤ 40000 ∧
    ((acc.map Prod.fst).Nodup → (acc.map Prod.fst ++ fs.map Prod.fst).Nodup)

theorem elements_step {acc : List Json}
    (ih : ∀ {depth bytes nodes v rest n}, Parser.read fuel depth bytes nodes = some (v, rest, n) →
      ReadFrom depth nodes bytes v rest n)
    (ihs : ∀ {bytes nodes acc j rest n}, elements fuel depth bytes nodes acc = some (j, rest, n) →
      ElementsFrom depth nodes bytes acc j rest n)
    (h : elements (fuel + 1) depth bytes nodes acc = some (j, rest, n)) :
    ElementsFrom depth nodes bytes acc j rest n := by
  rw [elements] at h
  simp only [bind_eq_bind, bind_eq_some_iff] at h
  obtain ⟨⟨v, behind, m⟩, hread, h⟩ := h
  obtain ⟨a, t, rfl, ha, ht, rfl, hdv, hm⟩ := ih hread
  split at h
  · rename_i behind' htake
    obtain ⟨b, rfl, hb⟩ := of_take_true htake
    obtain ⟨ts, vs, rfl, hts, rfl, rfl, hds, hn⟩ := ihs h
    refine ⟨a ++ (t ++ b) ++ comma :: ts, v :: vs, by simp, .element (.padded ha ht hb) hts,
      by simp, ?_, ?_, hn⟩
    · rw [Json.nodesOf, Nat.add_assoc]
    · rw [Json.depthOf]
      omega
  · rename_i behind' htake
    obtain ⟨b, rfl, hb⟩ := of_take_false htake
    split at h
    · rename_i behind'' htake'
      obtain ⟨b', rfl, hb'⟩ := of_take_true htake'
      cases h
      refine ⟨a ++ (t ++ (b ++ b')), [v], by simp,
        .lastElement (.padded ha ht (hb.append hb')), rfl,
        ?_, ?_, hm⟩
      · rw [Json.nodesOf, Json.nodesOf, Nat.add_zero]
      · rw [Json.depthOf, Json.depthOf]
        omega
    · cases h

theorem members_step {acc : List (Text × Json)}
    (ih : ∀ {depth bytes nodes v rest n}, Parser.read fuel depth bytes nodes = some (v, rest, n) →
      ReadFrom depth nodes bytes v rest n)
    (ihs : ∀ {bytes nodes acc j rest n}, members fuel depth bytes nodes acc = some (j, rest, n) →
      MembersFrom depth nodes bytes acc j rest n)
    (h : members (fuel + 1) depth bytes nodes acc = some (j, rest, n)) :
    MembersFrom depth nodes bytes acc j rest n := by
  rw [members] at h
  simp only [bind_eq_bind, bind_eq_some_iff] at h
  obtain ⟨⟨key, behind⟩, hstring, h⟩ := h
  obtain ⟨a, k, rfl, ha, hk⟩ := of_string hstring
  split at h
  · cases h
  rename_i behind' hcolon
  obtain ⟨b, rfl, hb⟩ := of_take_true hcolon
  have hlabel : Label Unpaired (a ++ quote :: (k ++ quote :: b)) key := ⟨a, k, b, rfl, ha, hk, hb⟩
  simp only [bind_eq_some_iff] at h
  obtain ⟨⟨v, behind'', m⟩, hread, h⟩ := h
  obtain ⟨c, t, rfl, hc, ht, rfl, hdv, hm⟩ := ih hread
  split at h
  · cases h
  rename_i hnew
  split at h
  · rename_i behind₃ htake
    obtain ⟨d, rfl, hd⟩ := of_take_true htake
    obtain ⟨ts, fs, rfl, hts, rfl, rfl, hds, hn, hnodup⟩ := ihs h
    refine ⟨a ++ quote :: (k ++ quote :: b) ++ colon :: (c ++ (t ++ d) ++ comma :: ts),
      (key, v) :: fs,
      by simp, .member hlabel (.padded hc ht hd) hts, by simp, ?_, ?_, hn, fun hacc => ?_⟩
    · rw [Json.nodesOfFields, Nat.add_assoc]
    · rw [Json.depthOfFields]
      omega
    · have := hnodup (by
        rw [List.map_append, List.nodup_append]
        refine ⟨hacc, by simp, fun x hx y hy hxy => ?_⟩
        rw [List.map_singleton, List.mem_singleton] at hy
        rw [hxy, hy] at hx
        exact hnew hx)
      simpa using this
  · rename_i behind₃ htake
    obtain ⟨d, rfl, hd⟩ := of_take_false htake
    split at h
    · rename_i behind₄ htake'
      obtain ⟨d', rfl, hd'⟩ := of_take_true htake'
      cases h
      refine ⟨a ++ quote :: (k ++ quote :: b) ++ colon :: (c ++ (t ++ (d ++ d'))),
        [(key, v)], by simp,
        .lastMember hlabel (.padded hc ht (hd.append hd')), rfl, ?_, ?_, hm, fun hacc => ?_⟩
      · rw [Json.nodesOfFields, Json.nodesOfFields, Nat.add_zero]
      · rw [Json.depthOfFields, Json.depthOfFields]
        omega
      · rw [List.nodup_append]
        refine ⟨hacc, by simp, fun x hx y hy hxy => ?_⟩
        rw [List.map_singleton, List.mem_singleton] at hy
        rw [hxy, hy] at hx
        exact hnew hx
    · cases h

theorem read_step
    (ihe : ∀ {bytes nodes acc j rest n}, elements fuel depth bytes nodes acc = some (j, rest, n) →
      ElementsFrom depth nodes bytes acc j rest n)
    (ihm : ∀ {bytes nodes acc j rest n}, members fuel depth bytes nodes acc = some (j, rest, n) →
      MembersFrom depth nodes bytes acc j rest n)
    (h : Parser.read (fuel + 1) depth bytes nodes = some (v, rest, n)) :
    ReadFrom depth nodes bytes v rest n := by
  obtain ⟨a, hbytes, ha⟩ := exists_blank bytes
  rw [Parser.read] at h
  split at h
  · cases h
  rename_i c behind hspace
  rw [hspace] at hbytes
  split at h
  · cases h
  rename_i hlimits
  split at h
  · rename_i hc
    subst hc
    split at h
    · rename_i behind' htake
      cases h
      obtain ⟨b, rfl, hb⟩ := of_take_true htake
      exact ⟨a, openBrace :: (b ++ [closeBrace]), by simpa using hbytes, ha, .emptyObject hb,
        by simp [Json.nodes, Json.nodesOfFields], by simp [Json.depth, Json.depthOfFields]; omega,
        by omega⟩
    · rename_i behind' htake
      obtain ⟨b, rfl, hb⟩ := of_take_false htake
      obtain ⟨t, fs, rfl, ht, rfl, rfl, hd, hn, hk⟩ := ihm h
      refine ⟨a, openBrace :: (b ++ t ++ [closeBrace]), by simpa using hbytes, ha,
        .object (ht.pad_members hb) (hk .nil), ?_, ?_, hn⟩
      · rw [List.nil_append, Json.nodes, Nat.add_assoc]
      · rw [List.nil_append, Json.depth]
        exact hd
  split at h
  · rename_i hc
    subst hc
    split at h
    · rename_i behind' htake
      cases h
      obtain ⟨b, rfl, hb⟩ := of_take_true htake
      exact ⟨a, openBracket :: (b ++ [closeBracket]), by simpa using hbytes, ha, .emptyArray hb,
        by simp [Json.nodes, Json.nodesOf], by simp [Json.depth, Json.depthOf]; omega, by omega⟩
    · rename_i behind' htake
      obtain ⟨b, rfl, hb⟩ := of_take_false htake
      obtain ⟨t, vs, rfl, ht, rfl, rfl, hd, hn⟩ := ihe h
      refine ⟨a, openBracket :: (b ++ t ++ [closeBracket]), by simpa using hbytes, ha,
        .array (ht.pad hb), ?_, ?_, hn⟩
      · rw [List.nil_append, Json.nodes, Nat.add_assoc]
      · rw [List.nil_append, Json.depth]
        exact hd
  split at h
  · rename_i hc
    subst hc
    simp only [bind_eq_bind, bind_eq_some_iff] at h
    obtain ⟨⟨text, behind'⟩, hstring, he⟩ := h
    cases he
    rw [string, take_cons_self (by decide)] at hstring
    obtain ⟨t, rfl, ht⟩ := of_stringRest hstring
    exact ⟨a, quote :: (t ++ [quote]), by simpa using hbytes, ha, .string ht,
      by simp [Json.nodes], by simp [Json.depth]; omega, by omega⟩
  split at h
  · rename_i v' behind' hword
    cases h
    obtain ⟨t, ht, hforms, hnodes, hdepth⟩ := of_word hword
    exact ⟨a, t, by rw [hbytes, ht], ha, hforms, by rw [hnodes], by omega, by omega⟩
  · simp only [bind_eq_bind, bind_eq_some_iff] at h
    obtain ⟨⟨value, behind'⟩, hnumber, he⟩ := h
    cases he
    obtain ⟨t, ht, hnum⟩ := numeral_of_number hnumber
    exact ⟨a, t, by rw [hbytes, ht], ha, .number hnum, by simp [Json.nodes],
      by simp [Json.depth]; omega, by omega⟩

theorem sound (fuel : Nat) :
    (∀ {depth bytes nodes v rest n}, Parser.read fuel depth bytes nodes = some (v, rest, n) →
      ReadFrom depth nodes bytes v rest n) ∧
    (∀ {depth bytes nodes acc j rest n}, elements fuel depth bytes nodes acc = some (j, rest, n) →
      ElementsFrom depth nodes bytes acc j rest n) ∧
    ∀ {depth bytes nodes acc j rest n}, members fuel depth bytes nodes acc = some (j, rest, n) →
      MembersFrom depth nodes bytes acc j rest n := by
  induction fuel with
  | zero =>
    refine ⟨fun h => ?_, fun h => ?_, fun h => ?_⟩
    · rw [Parser.read] at h
      cases h
    · rw [elements] at h
      cases h
    · rw [members] at h
      cases h
  | succ fuel ih =>
    obtain ⟨ihr, ihe, ihm⟩ := ih
    exact ⟨read_step ihe ihm, elements_step ihr ihe, members_step ihr ihm⟩

/-! ## The reader and the writer -/

/-- A text is parsed as a value if and only if it is UTF-8, the grammar forms the value from it, and
it keeps to the limits. -/
theorem parseJson_eq_ok_iff : parseJson bytes = .ok v ↔
    bytes.length ≤ 1048576 ∧ v.depth ≤ 24 ∧ v.nodes ≤ 40000 ∧ ValidUtf8 bytes ∧
      Forms Unpaired bytes (.padded v) := by
  constructor
  · intro h
    obtain ⟨hlen, hutf⟩ := bounds_of_parseJson h
    simp only [parseJson, bind_eq_ok] at h
    obtain ⟨-, -, h⟩ := h
    split at h
    · rename_i v' rest n hread
      simp only [bind_eq_ok, require_eq_ok] at h
      obtain ⟨-, hrest, hv⟩ := h
      cases hv
      obtain ⟨a, t, rfl, ha, ht, rfl, hd, hn⟩ := (sound _).1 hread
      exact ⟨hlen, by omega, by omega, hutf, .padded ha ht (blank_of_space hrest)⟩
    · cases h
  · rintro ⟨hlen, hd, hn, hutf, hforms⟩
    have hne : bytes ≠ [] := by
      obtain ⟨a, c, s, rfl, -⟩ := hforms.head
      simp
    obtain ⟨b, hb, hread⟩ := hforms.parsed (bytes.length + 1) 0 [] 0 (by omega) (by omega)
      (by omega) (by simp [Stops])
    rw [List.append_nil, List.append_nil] at hread
    rw [parseJson, require_of ⟨hne, hlen, hutf⟩, ok_bind, hread]
    show (require (space b = []) "update-json-invalid" >>= fun _ => pure v) = _
    rw [require_of (space_blank hb)]
    rfl

theorem validUtf8_iff : ValidUtf8 t ↔ Utf8.Valid t := by
  constructor
  · rintro ⟨cs, hcs⟩
    refine ⟨cs, ?_⟩
    have h : t.toByteArray = (Unicode.utf8 cs).toByteArray := hcs
    have := congrArg (fun b => b.data.toList) h
    simpa using this.symm
  · rintro ⟨cs, rfl⟩
    exact ⟨cs, rfl⟩

theorem le_of_mem_encode {c : Char} (h : 128 ≤ c.toNat)
    (hb : b ∈ String.utf8EncodeChar c) : 128 ≤ b.toNat := by
  have hv : c.val.toNat = c.toNat := rfl
  have hlow : ∀ k n, 128 ≤ k → k + n < 256 → 128 ≤ (UInt8.ofNat (n + k)).toNat :=
    fun k n hk hn => by
    rw [Utf8.toNat_ofNat_lt (by omega)]
    omega
  unfold String.utf8EncodeChar at hb
  rw [hv] at hb
  dsimp only at hb
  split at hb
  · omega
  split at hb
  · simp only [List.mem_cons, List.not_mem_nil, or_false] at hb
    rcases hb with rfl | rfl <;> exact hlow _ _ (by omega) (by omega)
  split at hb
  · simp only [List.mem_cons, List.not_mem_nil, or_false] at hb
    rcases hb with rfl | rfl | rfl <;> exact hlow _ _ (by omega) (by omega)
  · simp only [List.mem_cons, List.not_mem_nil, or_false] at hb
    rcases hb with rfl | rfl | rfl | rfl <;> exact hlow _ _ (by omega) (by omega)

theorem escaped_of_le (h : 128 ≤ b.toNat) : escaped b = [b] := by
  have hne : ∀ d : UInt8, d.toNat < 128 → b ≠ d := by
    rintro d hd rfl
    omega
  have hlt : ¬ b < 32 := by
    rw [UInt8.lt_iff_toNat_lt]
    have : (32 : UInt8).toNat = 32 := rfl
    omega
  rw [escaped, if_neg (by simp [hne quote (by decide), hne backslash (by decide)]), if_neg hlt]

/-- A character that is quoted is UTF-8. -/
theorem valid_escaped (c : Char) :
    Utf8.Valid ((String.utf8EncodeChar c).flatMap escaped) := by
  rcases Nat.lt_or_ge c.toNat 128 with h | h
  · have hall : ∀ n < 128,
        ((String.utf8EncodeChar (Char.ofNat n)).flatMap escaped).all (· < 128) = true := by
      decide +kernel
    have hc := hall c.toNat h
    rw [Char.ofNat_toNat] at hc
    exact validUtf8_iff.mp
      (validUtf8_of_ascii fun b hb => of_decide_eq_true (List.all_eq_true.mp hc b hb))
  · refine ⟨[c], ?_⟩
    have hid : (String.utf8EncodeChar c).flatMap escaped = String.utf8EncodeChar c := by
      have hall : ∀ t : Text, (∀ b ∈ t, 128 ≤ b.toNat) → t.flatMap escaped = t := by
        intro t ht
        induction t with
        | nil => rfl
        | cons b t ih =>
          obtain ⟨hb, ht⟩ := List.forall_mem_cons.mp ht
          rw [List.flatMap_cons, escaped_of_le hb, ih ht]
          rfl
      exact hall _ fun b hb => le_of_mem_encode h hb
    rw [hid]
    simp [Unicode.utf8]

theorem validUtf8_quoteJson (h : ValidUtf8 t) : ValidUtf8 (quoteJson t) := by
  obtain ⟨cs, rfl⟩ := validUtf8_iff.mp h
  have hquote : Utf8.Valid [quote] := ⟨['"'], by decide⟩
  have hall : Utf8.Valid ((Unicode.utf8 cs).flatMap escaped) := by
    induction cs with
    | nil => exact .nil
    | cons c cs ih =>
      rw [Utf8.utf8_cons, List.flatMap_append]
      exact (valid_escaped c).append (ih (validUtf8_iff.mpr ⟨cs, rfl⟩))
  rw [validUtf8_iff, quoteJson]
  exact (hquote.append hall).append hquote

theorem parseJson_quoteJson {t : Text} (h : ValidUtf8 t) (hlen : (quoteJson t).length ≤ 1048576) :
    parseJson (quoteJson t) = .ok (.string t) :=
  parseJson_of_reads (reads_string (by decide) t) (by decide) hlen (validUtf8_quoteJson h)

/-- The reader accepts its grammar: a text within the limits is parsed as a value if and only if it
is UTF-8 and the grammar forms the value from it, with numbers of 64 bits, distinct keys and pairs
of surrogates. A quoted text that is not too long is read back. -/
theorem parseJson_exact : (∀ bytes v, parseJson bytes = .ok v ↔
    bytes.length ≤ 1048576 ∧ v.depth ≤ 24 ∧ v.nodes ≤ 40000 ∧ ValidUtf8 bytes ∧
      Forms Unpaired bytes (.padded v)) ∧
    ∀ t, ValidUtf8 t → (quoteJson t).length ≤ 1048576 → parseJson (quoteJson t) = .ok (.string t) :=
  ⟨fun _ _ => parseJson_eq_ok_iff, fun _ => parseJson_quoteJson⟩

/-- A string of half a pair of surrogates. -/
def loneSurrogate : Text := ascii "\"\\ud800\""

theorem loneSurrogate_chars (alone : Nat → Prop) (h : alone 0xd800) :
    Forms alone loneSurrogate (.padded (.string (char 0xd800))) := by
  have hpiece : Piece alone [92, 117, 100, 56, 48, 48] (char 0xd800) :=
    @Piece.code alone [100, 56, 48, 48] _ ⟨13, 8, 0, 0, by decide, by decide⟩ h
  have hforms := Forms.padded .nil (.string (.cons hpiece .nil)) .nil
  rw [List.append_nil, List.append_nil, List.append_nil] at hforms
  exact hforms

theorem parseJson_quoteJson_of_long (h : 1048575 ≤ t.length) :
    parseJson (quoteJson t) ≠ .ok (.string t) := by
  intro hparse
  have hle := (bounds_of_parseJson hparse).1
  have hlen := length_le_flatMap_escaped t
  rw [quoteJson, List.length_append, List.length_cons, List.length_singleton] at hle
  omega

theorem exists_long (n : Nat) : ∃ t : Text, n ≤ t.length ∧ ValidUtf8 t := by
  refine ⟨List.replicate n 97, by rw [List.length_replicate], validUtf8_of_ascii fun c hc => ?_⟩
  rw [List.eq_of_mem_replicate hc]
  decide

/-- JSON has strings that the reader refuses, and quoted texts that are too long for it. -/
theorem parseJson_loneSurrogate :
    (Forms (fun _ => True) loneSurrogate (.padded (.string (char 0xd800))) ∧
      ValidUtf8 loneSurrogate ∧
      parseJson loneSurrogate = .error { code := "update-json-invalid" }) ∧
    ∃ t, ValidUtf8 t ∧ parseJson (quoteJson t) ≠ .ok (.string t) := by
  have hall : loneSurrogate.all (· < 128) = true := by decide +kernel
  have hutf : ValidUtf8 loneSurrogate := validUtf8_of_ascii (by simpa using hall)
  obtain ⟨t, hlen, ht⟩ := exists_long 1048575
  refine ⟨⟨loneSurrogate_chars _ trivial, hutf, ?_⟩, t, ht, parseJson_quoteJson_of_long hlen⟩
  have htext : loneSurrogate = quote :: [92, 117, 100, 56, 48, 48, quote] := rfl
  have hstring : string (quote :: [92, 117, 100, 56, 48, 48, quote]) = none := rfl
  have hread : Parser.read (loneSurrogate.length + 1) 0 loneSurrogate 0 = none := by
    rw [htext, read_cons (by decide), if_neg (by decide), if_neg (by decide), if_neg (by decide),
      if_pos rfl, hstring]
    rfl
  rw [parseJson, require_of ⟨by decide, by decide, hutf⟩, ok_bind, hread]

end Hc.Update.Grammar
