import HyperCommander.Lib.Slice
import HyperCommander.Lib.Unicode

/-!
# Where the characters of a UTF-8 text begin

A character is a lead byte, which tells its width, and continuation bytes. A text may be cut in
front of every byte that is not a continuation byte, and the parts are UTF-8 again.

* `utf8EncodeChar_shape`: the bytes of a character.
* `Valid.cut`, `Valid.slice`: texts that are cut between characters.
-/

namespace Utf8

open List Unicode Slice

/-- A byte inside of a character. -/
def isContinuation (b : UInt8) : Bool := b &&& 0xc0 == 0x80

/-- The bytes of the character that a byte leads; 1 for a byte that leads none. -/
def width (lead : UInt8) : Nat :=
  if lead < 0x80 then 1
  else if 0xc2 ≤ lead ∧ lead ≤ 0xdf then 2
  else if 0xe0 ≤ lead ∧ lead ≤ 0xef then 3
  else if 0xf0 ≤ lead ∧ lead ≤ 0xf4 then 4
  else 1

/-- The bytes are those of a string of characters. -/
def Valid (bytes : List UInt8) : Prop := ∃ cs, utf8 cs = bytes

/-- A byte at `i`, if there is one, begins a character. -/
def Boundary (bytes : List UInt8) (i : Nat) : Prop :=
  ∀ b, bytes[i]? = some b → isContinuation b = false

theorem isContinuation_ofNat :
    ∀ n < 256, isContinuation (UInt8.ofNat n) = decide (128 ≤ n ∧ n < 192) := by
  decide +kernel

theorem isContinuation_of_lt {n : Nat} (h : n < 64) :
    isContinuation (UInt8.ofNat (n + 0x80)) = true := by
  rw [isContinuation_ofNat _ (by omega)]
  exact decide_eq_true (by omega)

theorem lead_of_lt {n : Nat} (h : n < 128 ∨ 192 ≤ n) (hn : n < 256) :
    isContinuation (UInt8.ofNat n) = false := by
  rw [isContinuation_ofNat _ hn]
  exact decide_eq_false (by omega)

theorem width_ofNat {n : Nat} (h : n < 256) : width (UInt8.ofNat n) =
    if n < 0x80 then 1 else if 0xc2 ≤ n ∧ n ≤ 0xdf then 2 else if 0xe0 ≤ n ∧ n ≤ 0xef then 3
      else if 0xf0 ≤ n ∧ n ≤ 0xf4 then 4 else 1 := by
  have hn : (UInt8.ofNat n).toNat = n := UInt8.toNat_ofNat_of_lt' h
  unfold width
  simp only [UInt8.lt_iff_toNat_lt, UInt8.le_iff_toNat_le, hn]
  rfl

/-- The bytes of a character. -/
theorem utf8EncodeChar_shape (c : Char) : ∃ lead tail, String.utf8EncodeChar c = lead :: tail ∧
    isContinuation lead = false ∧ (∀ b ∈ tail, isContinuation b = true) ∧
    tail.length + 1 = width lead := by
  have hmax : c.val.toNat < 0x110000 := by
    have hv : c.toNat < 0xd800 ∨ 0xdfff < c.toNat ∧ c.toNat < 0x110000 := c.valid
    have : c.toNat = c.val.toNat := rfl
    omega
  unfold String.utf8EncodeChar
  generalize c.val.toNat = v at hmax
  dsimp only
  split
  · refine ⟨_, [], rfl, lead_of_lt (.inl (by omega)) (by omega), (fun b hb => by cases hb), ?_⟩
    rw [width_ofNat (by omega), if_pos (by omega)]
    rfl
  split
  · refine ⟨_, _, rfl, lead_of_lt (.inr (by omega)) (by omega), fun b hb => ?_, ?_⟩
    · rw [mem_singleton.mp hb]
      exact isContinuation_of_lt (by omega)
    · rw [width_ofNat (by omega), if_neg (by omega), if_pos (by omega)]
      rfl
  split
  · refine ⟨_, _, rfl, lead_of_lt (.inr (by omega)) (by omega), fun b hb => ?_, ?_⟩
    · simp only [mem_cons, not_mem_nil, or_false] at hb
      rcases hb with rfl | rfl
      · exact isContinuation_of_lt (by omega)
      · exact isContinuation_of_lt (by omega)
    · rw [width_ofNat (by omega), if_neg (by omega), if_neg (by omega), if_pos (by omega)]
      rfl
  · refine ⟨_, _, rfl, lead_of_lt (.inr (by omega)) (by omega), fun b hb => ?_, ?_⟩
    · simp only [mem_cons, not_mem_nil, or_false] at hb
      rcases hb with rfl | rfl | rfl
      · exact isContinuation_of_lt (by omega)
      · exact isContinuation_of_lt (by omega)
      · exact isContinuation_of_lt (by omega)
    · rw [width_ofNat (by omega), if_neg (by omega), if_neg (by omega), if_neg (by omega),
        if_pos (by omega)]
      rfl

theorem utf8_cons (c : Char) (cs : List Char) :
    utf8 (c :: cs) = String.utf8EncodeChar c ++ utf8 cs :=
  flatMap_cons

theorem utf8_append (cs ds : List Char) : utf8 (cs ++ ds) = utf8 cs ++ utf8 ds := flatMap_append

/-- A text is cut between two characters. -/
theorem exists_cut {cs : List Char} {i : Nat} (hi : i ≤ (utf8 cs).length)
    (h : Boundary (utf8 cs) i) : ∃ ds es, cs = ds ++ es ∧ utf8 ds = (utf8 cs).take i ∧
      utf8 es = (utf8 cs).drop i := by
  induction cs generalizing i with
  | nil => exact ⟨[], [], rfl, by simp [utf8], by simp [utf8]⟩
  | cons c cs ih =>
    obtain ⟨lead, tail, hc, -, htail, -⟩ := utf8EncodeChar_shape c
    rw [utf8_cons] at hi h ⊢
    by_cases h0 : i = 0
    · subst h0
      exact ⟨[], c :: cs, rfl, rfl, utf8_cons c cs⟩
    -- Inside of the first character there are continuation bytes only.
    have hle : (String.utf8EncodeChar c).length ≤ i := by
      by_contra hlt
      obtain ⟨j, rfl⟩ : ∃ j, i = j + 1 := ⟨i - 1, by omega⟩
      rw [hc, length_cons] at hlt
      have hj : j < tail.length := by omega
      have hat : (String.utf8EncodeChar c ++ utf8 cs)[j + 1]? = some tail[j] := by
        rw [hc, cons_append, getElem?_cons_succ, getElem?_append_left hj,
          getElem?_eq_getElem hj]
      have hb := h _ hat
      rw [htail _ (getElem_mem hj)] at hb
      cases hb
    rw [length_append] at hi
    have hrest : Boundary (utf8 cs) (i - (String.utf8EncodeChar c).length) := by
      intro b hb
      refine h b ?_
      rw [getElem?_append_right hle]
      exact hb
    obtain ⟨ds, es, rfl, hd, he⟩ := ih (by omega) hrest
    refine ⟨c :: ds, es, rfl, ?_, ?_⟩
    · rw [utf8_cons, hd, take_append, take_of_length_le hle]
    · rw [he, drop_append, drop_eq_nil_of_le hle, nil_append]

namespace Valid

variable {s t : List UInt8} {i j : Nat}

theorem nil : Valid [] := ⟨[], rfl⟩

theorem append (hs : Valid s) (ht : Valid t) : Valid (s ++ t) := by
  obtain ⟨cs, rfl⟩ := hs
  obtain ⟨ds, rfl⟩ := ht
  exact ⟨cs ++ ds, utf8_append cs ds⟩

theorem cut (h : Valid s) (hi : i ≤ s.length) (hb : Boundary s i) :
    Valid (s.take i) ∧ Valid (s.drop i) := by
  obtain ⟨cs, rfl⟩ := h
  obtain ⟨ds, es, -, hd, he⟩ := exists_cut hi hb
  exact ⟨⟨ds, hd⟩, es, he⟩

/-- A range between two characters. -/
theorem slice (h : Valid s) (hij : i ≤ j) (hj : j ≤ s.length) (hbi : Boundary s i)
    (hbj : Boundary s j) : Valid (Slice.slice s i j) := by
  have hdrop := (h.cut (hij.trans hj) hbi).2
  refine (hdrop.cut (by rw [length_drop]; omega) fun b hb => hbj b ?_).1
  rwa [getElem?_drop, Nat.add_sub_cancel' hij] at hb

theorem boundary_zero (h : Valid s) : Boundary s 0 := by
  obtain ⟨cs, rfl⟩ := h
  intro b hb
  cases cs with
  | nil => cases hb
  | cons c cs =>
    obtain ⟨lead, tail, hc, hlead, -⟩ := utf8EncodeChar_shape c
    rw [utf8_cons, hc, cons_append, getElem?_cons_zero] at hb
    exact Option.some.inj hb ▸ hlead

/-- Behind a character of one byte the next one begins. -/
theorem boundary_succ (h : Valid s) {b : UInt8} (hb : s[i]? = some b) (hlt : b < 0x80) :
    Boundary s (i + 1) := by
  obtain ⟨cs, rfl⟩ := h
  induction cs generalizing i with
  | nil => cases hb
  | cons c cs ih =>
    obtain ⟨lead, tail, hc, -, htail, hwidth⟩ := utf8EncodeChar_shape c
    rw [utf8_cons, hc] at hb ⊢
    by_cases hi : i < (lead :: tail).length
    · rw [getElem?_append_left hi] at hb
      cases i with
      | zero =>
        obtain rfl := Option.some.inj hb
        rw [width, if_pos hlt] at hwidth
        obtain rfl := length_eq_zero_iff.mp (Nat.succ_injective hwidth)
        exact fun b hb => boundary_zero ⟨cs, rfl⟩ b hb
      | succ i =>
        -- No byte behind the lead is below 0x80.
        have hcont := htail b (mem_of_getElem? hb)
        have hn := isContinuation_ofNat b.toNat (UInt8.toNat_lt b)
        rw [UInt8.ofNat_toNat, hcont] at hn
        have := of_decide_eq_true hn.symm
        have : b.toNat < 128 := UInt8.lt_iff_toNat_lt.mp hlt
        omega
    · rw [getElem?_append_right (by omega)] at hb
      intro x hx
      rw [getElem?_append_right (by omega)] at hx
      refine ih hb x ?_
      rw [← hx]
      congr 1
      omega

end Valid

end Utf8
