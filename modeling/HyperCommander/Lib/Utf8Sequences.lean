import HyperCommander.Lib.Utf8

/-!
# The byte sequences of UTF-8 characters

The table of well-formed sequences: how many bytes a lead byte asks for, and in which range the
second one has to be so that the form is the shortest one, no surrogate and at most U+10FFFF.

* `valid_cons_iff`: a text is read from its first byte on.
-/

namespace Utf8

open Unicode

/-- A byte behind the second one. -/
def IsTail (b : UInt8) : Prop := 0x80 ≤ b ∧ b ≤ 0xbf

/-- The least second byte. -/
def secondLow (lead : UInt8) : UInt8 :=
  if lead = 0xe0 then 0xa0 else if lead = 0xf0 then 0x90 else 0x80

/-- The greatest second byte. -/
def secondHigh (lead : UInt8) : UInt8 :=
  if lead = 0xed then 0x9f else if lead = 0xf4 then 0x8f else 0xbf

/-- The range of the second byte. -/
def IsSecond (lead b : UInt8) : Prop := secondLow lead ≤ b ∧ b ≤ secondHigh lead

/-- The rows of the table. -/
inductive Sequence : List UInt8 → Prop
  | one {a : UInt8} (ha : a < 0x80) : Sequence [a]
  | two {a b : UInt8} (ha : 0xc2 ≤ a ∧ a ≤ 0xdf) (hb : IsTail b) : Sequence [a, b]
  | three {a b c : UInt8} (ha : 0xe0 ≤ a ∧ a ≤ 0xef) (hb : IsSecond a b) (hc : IsTail c) :
      Sequence [a, b, c]
  | four {a b c d : UInt8} (ha : 0xf0 ≤ a ∧ a ≤ 0xf4) (hb : IsSecond a b) (hc : IsTail c)
      (hd : IsTail d) : Sequence [a, b, c, d]

section Numbers

variable {lead b : UInt8}

theorem isTail_iff : IsTail b ↔ 128 ≤ b.toNat ∧ b.toNat ≤ 191 := by
  rw [IsTail, UInt8.le_iff_toNat_le, UInt8.le_iff_toNat_le]
  rfl

theorem isSecond_iff : IsSecond lead b ↔ 128 ≤ b.toNat ∧ b.toNat ≤ 191 ∧
    (lead.toNat = 224 → 160 ≤ b.toNat) ∧ (lead.toNat = 240 → 144 ≤ b.toNat) ∧
    (lead.toNat = 237 → b.toNat ≤ 159) ∧ (lead.toNat = 244 → b.toNat ≤ 143) := by
  have heq : ∀ x : UInt8, lead = x ↔ lead.toNat = x.toNat := fun x => UInt8.toNat_inj.symm
  have hlow : secondLow lead ≤ b ↔ (if lead.toNat = 224 then 160 else
      if lead.toNat = 240 then 144 else 128) ≤ b.toNat := by
    rw [secondLow, UInt8.le_iff_toNat_le]
    simp only [heq, apply_ite UInt8.toNat]
    rfl
  have hhigh : b ≤ secondHigh lead ↔ b.toNat ≤ (if lead.toNat = 237 then 159 else
      if lead.toNat = 244 then 143 else 191) := by
    rw [secondHigh, UInt8.le_iff_toNat_le]
    simp only [heq, apply_ite UInt8.toNat]
    rfl
  rw [IsSecond, hlow, hhigh]
  split_ifs <;> omega

theorem toNat_ofNat_lt {n : Nat} (h : n < 256) : (UInt8.ofNat n).toNat = n :=
  UInt8.toNat_ofNat_of_lt' h

theorem ofNat_eq {n : Nat} (h : n = b.toNat) : UInt8.ofNat n = b := by
  rw [h, UInt8.ofNat_toNat]

end Numbers

/-- The encoding of a number that is a character. -/
theorem utf8EncodeChar_ofNat {n : Nat} (h : n < 0xd800 ∨ 0xdfff < n ∧ n < 0x110000) :
    String.utf8EncodeChar (Char.ofNat n) =
      if n ≤ 0x7f then [UInt8.ofNat n]
      else if n ≤ 0x7ff then [UInt8.ofNat (n / 64 % 32 + 192), UInt8.ofNat (n % 64 + 128)]
      else if n ≤ 0xffff then
        [UInt8.ofNat (n / 4096 % 16 + 224), UInt8.ofNat (n / 64 % 64 + 128),
          UInt8.ofNat (n % 64 + 128)]
      else
        [UInt8.ofNat (n / 262144 % 8 + 240), UInt8.ofNat (n / 4096 % 64 + 128),
          UInt8.ofNat (n / 64 % 64 + 128), UInt8.ofNat (n % 64 + 128)] := by
  have hval : (Char.ofNat n).val.toNat = n := toNat_ofNat h
  unfold String.utf8EncodeChar
  rw [hval]

theorem Sequence.exists_char {bs : List UInt8} (h : Sequence bs) :
    ∃ c, String.utf8EncodeChar c = bs := by
  cases h with
  | one ha =>
    rename_i a
    have ha : a.toNat < 128 := UInt8.lt_iff_toNat_lt.mp ha
    refine ⟨Char.ofNat a.toNat, ?_⟩
    rw [utf8EncodeChar_ofNat (by omega), if_pos (by omega), UInt8.ofNat_toNat]
  | two ha hb =>
    rename_i a b
    have ha1 : 194 ≤ a.toNat := UInt8.le_iff_toNat_le.mp ha.1
    have ha2 : a.toNat ≤ 223 := UInt8.le_iff_toNat_le.mp ha.2
    have hb := isTail_iff.mp hb
    refine ⟨Char.ofNat ((a.toNat - 192) * 64 + (b.toNat - 128)), ?_⟩
    rw [utf8EncodeChar_ofNat (by omega), if_neg (by omega), if_pos (by omega),
      @ofNat_eq a _ (by omega), @ofNat_eq b _ (by omega)]
  | three ha hb hc =>
    rename_i a b c
    have ha1 : 224 ≤ a.toNat := UInt8.le_iff_toNat_le.mp ha.1
    have ha2 : a.toNat ≤ 239 := UInt8.le_iff_toNat_le.mp ha.2
    have hb := isSecond_iff.mp hb
    have hc := isTail_iff.mp hc
    refine ⟨Char.ofNat ((a.toNat - 224) * 4096 + (b.toNat - 128) * 64 + (c.toNat - 128)), ?_⟩
    rw [utf8EncodeChar_ofNat (by omega), if_neg (by omega), if_neg (by omega), if_pos (by omega),
      @ofNat_eq a _ (by omega), @ofNat_eq b _ (by omega), @ofNat_eq c _ (by omega)]
  | four ha hb hc hd =>
    rename_i a b c d
    have ha1 : 240 ≤ a.toNat := UInt8.le_iff_toNat_le.mp ha.1
    have ha2 : a.toNat ≤ 244 := UInt8.le_iff_toNat_le.mp ha.2
    have hb := isSecond_iff.mp hb
    have hc := isTail_iff.mp hc
    have hd := isTail_iff.mp hd
    refine ⟨Char.ofNat ((a.toNat - 240) * 262144 + (b.toNat - 128) * 4096 + (c.toNat - 128) * 64 +
      (d.toNat - 128)), ?_⟩
    rw [utf8EncodeChar_ofNat (by omega), if_neg (by omega), if_neg (by omega), if_neg (by omega),
      @ofNat_eq a _ (by omega), @ofNat_eq b _ (by omega), @ofNat_eq c _ (by omega),
      @ofNat_eq d _ (by omega)]

theorem sequence_encode (c : Char) : Sequence (String.utf8EncodeChar c) := by
  have hv : c.val.toNat < 0xd800 ∨ 0xdfff < c.val.toNat ∧ c.val.toNat < 0x110000 := c.valid
  unfold String.utf8EncodeChar
  generalize c.val.toNat = v at hv
  have hle : ∀ {x : UInt8} {n : Nat}, n < 256 → x.toNat ≤ n → x ≤ UInt8.ofNat n := by
    intro x n hn h
    rw [UInt8.le_iff_toNat_le, toNat_ofNat_lt hn]
    exact h
  have hge : ∀ {x : UInt8} {n : Nat}, n < 256 → n ≤ x.toNat → UInt8.ofNat n ≤ x := by
    intro x n hn h
    rw [UInt8.le_iff_toNat_le, toNat_ofNat_lt hn]
    exact h
  have htail : ∀ n < 64, IsTail (UInt8.ofNat (n + 128)) := by
    intro n hn
    rw [isTail_iff, toNat_ofNat_lt (by omega)]
    omega
  dsimp only
  split
  · refine .one ?_
    rw [UInt8.lt_iff_toNat_lt, toNat_ofNat_lt (by omega)]
    show v < 128
    omega
  split
  · refine .two ⟨hle (by omega) ?_, hge (by omega) ?_⟩ (htail _ (by omega))
    · show 194 ≤ v / 64 % 32 + 192
      omega
    · show v / 64 % 32 + 192 ≤ 223
      omega
  split
  · refine .three ⟨hle (by omega) ?_, hge (by omega) ?_⟩ ?_ (htail _ (by omega))
    · show 224 ≤ v / 4096 % 16 + 224
      omega
    · show v / 4096 % 16 + 224 ≤ 239
      omega
    · rw [isSecond_iff, toNat_ofNat_lt (by omega), toNat_ofNat_lt (by omega)]
      omega
  · refine .four ⟨hle (by omega) ?_, hge (by omega) ?_⟩ ?_ (htail _ (by omega)) (htail _ (by omega))
    · show 240 ≤ v / 262144 % 8 + 240
      omega
    · show v / 262144 % 8 + 240 ≤ 244
      omega
    · rw [isSecond_iff, toNat_ofNat_lt (by omega), toNat_ofNat_lt (by omega)]
      omega

theorem Sequence.valid_append {bs rest : List UInt8} (h : Sequence bs) (hr : Valid rest) :
    Valid (bs ++ rest) := by
  obtain ⟨c, rfl⟩ := h.exists_char
  obtain ⟨cs, rfl⟩ := hr
  exact ⟨c :: cs, utf8_cons c cs⟩

theorem Valid.uncons {b : UInt8} {bs : List UInt8} (h : Valid (b :: bs)) :
    ∃ seq rest, b :: bs = seq ++ rest ∧ Sequence seq ∧ Valid rest := by
  obtain ⟨cs, hcs⟩ := h
  cases cs with
  | nil => cases hcs
  | cons c cs =>
    rw [utf8_cons] at hcs
    exact ⟨_, _, hcs.symm, sequence_encode c, cs, rfl⟩

/-- `n` bytes behind the second one, and a text. -/
def Tails : (n : Nat) → List UInt8 → Prop
  | 0, bs => Valid bs
  | n + 1, bs => ∃ b rest, bs = b :: rest ∧ IsTail b ∧ Tails n rest

/-- A text from its first byte on. -/
theorem valid_cons_iff {a : UInt8} {bs : List UInt8} : Valid (a :: bs) ↔
    (a < 0x80 ∧ Valid bs) ∨ ((0xc2 ≤ a ∧ a ≤ 0xdf) ∧ Tails 1 bs) ∨
    ((0xe0 ≤ a ∧ a ≤ 0xef) ∧ ∃ b rest, bs = b :: rest ∧ IsSecond a b ∧ Tails 1 rest) ∨
    ((0xf0 ≤ a ∧ a ≤ 0xf4) ∧ ∃ b rest, bs = b :: rest ∧ IsSecond a b ∧ Tails 2 rest) := by
  constructor
  · intro h
    obtain ⟨seq, rest, heq, hseq, hrest⟩ := h.uncons
    cases hseq with
    | one ha =>
      cases heq
      exact .inl ⟨ha, hrest⟩
    | two ha hb =>
      cases heq
      exact .inr (.inl ⟨ha, _, _, rfl, hb, hrest⟩)
    | three ha hb hc =>
      cases heq
      exact .inr (.inr (.inl ⟨ha, _, _, rfl, hb, _, _, rfl, hc, hrest⟩))
    | four ha hb hc hd =>
      cases heq
      exact .inr (.inr (.inr ⟨ha, _, _, rfl, hb, _, _, rfl, hc, _, _, rfl, hd, hrest⟩))
  · rintro (⟨ha, h⟩ | ⟨ha, b, rest, rfl, hb, h⟩ | ⟨ha, b, _, rfl, hb, c, rest, rfl, hc, h⟩ |
      ⟨ha, b, _, rfl, hb, c, _, rfl, hc, d, rest, rfl, hd, h⟩)
    · exact (Sequence.one ha).valid_append h
    · exact (Sequence.two ha hb).valid_append h
    · exact (Sequence.three ha hb hc).valid_append h
    · exact (Sequence.four ha hb hc hd).valid_append h

end Utf8
