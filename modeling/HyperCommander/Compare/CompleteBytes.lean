import HyperCommander.Compare.LargeTextCodec
import HyperCommander.Lib.Utf8
import HyperCommander.Lib.Words

/-!
# Where a chunk is cut (`completeBytes`)

In each of the encodings `completeBytes` takes all of a chunk but the part of a character at its
end.

* `completeUtf8_holdsBack`, `completeUtf16_holdsBack`, `completeDbcs_holdsBack`.
-/

namespace Hc.Compare

open List Unicode Words
open Document.TextCodec (bytesOfUnit)

/-! ## UTF-8 -/

theorem backUp_append {a tail : Bytes} {lead : UInt8} (hl : isContinuation lead = false)
    (ht : ∀ b ∈ tail, isContinuation b = true) {k : Nat} (hk : k ≤ tail.length) :
    backUp (a ++ lead :: tail) (a.length + k) = a.length := by
  induction k with
  | zero =>
    rw [Nat.add_zero]
    cases ha : a.length with
    | zero => rfl
    | succ n =>
      have hat : (a ++ lead :: tail).getD (n + 1) 0 = lead := by
        rw [getD_eq_getElem?_getD, ← ha, getElem?_append_right (Nat.le_refl _), Nat.sub_self]
        rfl
      rw [backUp, hat, hl, if_neg Bool.false_ne_true]
  | succ k ih =>
    have hat : (a ++ lead :: tail).getD (a.length + k + 1) 0 = tail[k] := by
      rw [getD_eq_getElem?_getD, getElem?_append_right (by omega),
        show a.length + k + 1 - a.length = k + 1 by omega, getElem?_cons_succ,
        getElem?_eq_getElem hk, Option.getD_some]
    rw [← Nat.add_assoc, backUp, hat, ht _ (getElem_mem hk), if_pos rfl]
    exact ih (by omega)

/-- The last character is taken when it has as many bytes as its lead byte tells. -/
theorem completeUtf8_append {a tail : Bytes} {lead : UInt8} (hl : isContinuation lead = false)
    (ht : ∀ b ∈ tail, isContinuation b = true) : completeUtf8 (a ++ lead :: tail) =
      if tail.length + 1 < leadWidth lead then a.length else (a ++ lead :: tail).length := by
  have hstart : backUp (a ++ lead :: tail) ((a ++ lead :: tail).length - 1) = a.length := by
    rw [length_append, length_cons, ← Nat.add_assoc, Nat.add_sub_cancel]
    exact backUp_append hl ht (Nat.le_refl _)
  have hat : (a ++ lead :: tail).getD a.length 0 = lead := by
    rw [getD_eq_getElem?_getD, getElem?_append_right (Nat.le_refl _), Nat.sub_self]
    rfl
  rw [completeUtf8, hstart, hat]
  simp only [length_append, length_cons, Nat.add_sub_cancel_left]

theorem completeUtf8_holdsBack : HoldsBack String.utf8EncodeChar completeUtf8 where
  whole ds c _ := by
    obtain ⟨lead, tail, hc, hl, ht, hw⟩ := Utf8.utf8EncodeChar_shape c
    rw [hc, completeUtf8_append hl ht]
    exact if_neg (Nat.not_lt_of_le (Nat.le_of_eq hw.symm))
  part ds c v hv hvc hne := by
    obtain ⟨lead, tail, hc, hl, ht, hw⟩ := Utf8.utf8EncodeChar_shape c
    rw [hc] at hvc hne
    obtain ⟨b, v, rfl⟩ := exists_cons_of_ne_nil hv
    obtain ⟨rfl, hvt⟩ := cons_prefix_cons.mp hvc
    rw [completeUtf8_append hl fun b hb => ht b (hvt.subset hb)]
    refine if_pos (Nat.lt_of_lt_of_eq ?_ hw)
    have hle := hvt.length_le
    have hlt : v.length ≠ tail.length := fun h => hne (congrArg _ (hvt.eq_of_length h))
    omega

/-! ## UTF-16 -/

theorem completeUtf16_short {big : Bool} {t : Bytes} (h : t.length < 2) :
    completeUtf16 big t = 0 := by
  have hcount : t.length - t.length % 2 = 0 := by omega
  rw [completeUtf16, hcount]
  rfl

/-- The two bytes of a unit, and the number that `completeBytes` makes of them. -/
theorem bytesOfUnit_pair (big : Bool) (u : UInt16) : ∃ x y : UInt8, bytesOfUnit big u = [x, y] ∧
    (if big then x.toNat * 256 + y.toNat else x.toNat + y.toNat * 256) = u.toNat := by
  have hlt := u.toNat_lt
  cases big with
  | true =>
    refine ⟨UInt8.ofNat (u.toNat / 256), UInt8.ofNat u.toNat, rfl, ?_⟩
    rw [if_pos rfl, UInt8.toNat_ofNat', UInt8.toNat_ofNat']
    omega
  | false =>
    refine ⟨UInt8.ofNat u.toNat, UInt8.ofNat (u.toNat / 256), rfl, ?_⟩
    rw [if_neg Bool.false_ne_true, UInt8.toNat_ofNat', UInt8.toNat_ofNat']
    omega

/-- The last unit of a chunk is kept back when it is the first of a pair. -/
theorem completeUtf16_append {big : Bool} {a t : Bytes} {u : UInt16} (ha : a.length % 2 = 0)
    (ht : t.length < 2) : completeUtf16 big (a ++ bytesOfUnit big u ++ t) =
      if isHigh u then a.length else a.length + 2 := by
  obtain ⟨x, y, hxy, hu⟩ := bytesOfUnit_pair big u
  have hcount : (a ++ [x, y] ++ t).length - (a ++ [x, y] ++ t).length % 2 = a.length + 2 := by
    simp only [length_append, length_cons, length_nil]
    omega
  have hx : (a ++ [x, y] ++ t).getD (a.length + 2 - 2) 0 = x := by
    rw [append_assoc, getD_eq_getElem?_getD, Nat.add_sub_cancel,
      getElem?_append_right (Nat.le_refl _), Nat.sub_self]
    rfl
  have hy : (a ++ [x, y] ++ t).getD (a.length + 2 - 1) 0 = y := by
    rw [append_assoc, getD_eq_getElem?_getD, getElem?_append_right (by omega),
      show a.length + 2 - 1 - a.length = 1 by omega]
    rfl
  rw [hxy, completeUtf16, hcount, hx, hy]
  simp only [hu, if_pos (Nat.le_add_left 2 a.length), Nat.add_sub_cancel]
  simp only [isHigh, UInt16.le_iff_toNat_le, Bool.and_eq_true, decide_eq_true_eq]
  rfl

/-- The bytes of a character in UTF-16. -/
def utf16Char (big : Bool) (c : Char) : Bytes := (units c).flatMap (bytesOfUnit big)

theorem length_bytesOfUnit (big : Bool) (u : UInt16) : (bytesOfUnit big u).length = 2 := by
  obtain ⟨x, y, hxy, -⟩ := bytesOfUnit_pair big u
  rw [hxy]
  rfl

theorem flatMap_utf16Char (big : Bool) (cs : List Char) :
    cs.flatMap (utf16Char big) = (cs.flatMap units).flatMap (bytesOfUnit big) :=
  (flatMap_assoc).symm

theorem even_length_flatMap_utf16Char (big : Bool) (cs : List Char) :
    (cs.flatMap (utf16Char big)).length % 2 = 0 := by
  rw [flatMap_utf16Char]
  induction cs.flatMap units with
  | nil => rfl
  | cons u q ih =>
    rw [flatMap_cons, length_append, length_bytesOfUnit]
    omega

/-- A character has one unit that is not the first of a pair, or a pair. -/
theorem units_cases (c : Char) : (∃ u, units c = [u] ∧ isHigh u = false) ∨
    ∃ u v, units c = [u, v] ∧ isHigh u = true ∧ isHigh v = false := by
  by_cases h : c.toNat < 0x10000
  · exact .inl ⟨_, if_pos h, (not_surrogate h).1⟩
  · have hlt : c.toNat < 0x110000 := by
      have hv : c.toNat < 0xd800 ∨ 0xdfff < c.toNat ∧ c.toNat < 0x110000 := c.valid
      omega
    obtain ⟨hh, hl, -⟩ := @paired_units (c.toNat - 0x10000) (by omega)
    refine .inr ⟨_, _, if_neg h, hh, ?_⟩
    generalize (0xdc00 + (c.toNat - 0x10000) % 0x400).toUInt16 = v at hl
    simp only [isHigh, isLow, UInt16.le_iff_toNat_le, Bool.and_eq_true, decide_eq_true_eq,
      Bool.and_eq_false_iff, decide_eq_false_iff_not] at hl ⊢
    simp at hl ⊢
    omega

/-- The last unit of a text is not the first of a pair. -/
theorem exists_last_unit {ds : List Char} (h : ds ≠ []) (big : Bool) : ∃ a u, isHigh u = false ∧
    a.length % 2 = 0 ∧ ds.flatMap (utf16Char big) = a ++ bytesOfUnit big u := by
  obtain ⟨es, c, rfl⟩ := (eq_nil_or_concat ds).resolve_left h
  rw [concat_eq_append, flatMap_append, flatMap_singleton]
  have heven := even_length_flatMap_utf16Char big es
  rcases units_cases c with ⟨u, hu, hnot⟩ | ⟨u, v, hu, -, hnot⟩
  · exact ⟨_, u, hnot, heven, by simp [utf16Char, hu]⟩
  · refine ⟨es.flatMap (utf16Char big) ++ bytesOfUnit big u, v, hnot, ?_, by simp [utf16Char, hu]⟩
    rw [length_append, length_bytesOfUnit]
    omega

theorem completeUtf16_whole (big : Bool) {ds : List Char} (h : ds ≠ []) {t : Bytes}
    (ht : t.length < 2) : completeUtf16 big (ds.flatMap (utf16Char big) ++ t) =
      (ds.flatMap (utf16Char big)).length := by
  obtain ⟨a, u, hu, ha, hd⟩ := exists_last_unit h big
  rw [hd, completeUtf16_append ha ht, hu, if_neg Bool.false_ne_true, length_append,
    length_bytesOfUnit]

theorem completeUtf16_holdsBack (big : Bool) : HoldsBack (utf16Char big) (completeUtf16 big) where
  whole ds c _ := by
    have h := @completeUtf16_whole big (ds ++ [c]) (by simp) [] (by simp)
    rwa [append_nil, flatMap_append, flatMap_singleton] at h
  part ds c v hv hvc hne := by
    have hds := even_length_flatMap_utf16Char big ds
    -- One byte behind whole characters, or behind the first unit of a pair, or that unit alone.
    have hone : v.length < 2 → completeUtf16 big (ds.flatMap (utf16Char big) ++ v) =
        (ds.flatMap (utf16Char big)).length := by
      intro hlt
      by_cases hnil : ds = []
      · subst hnil
        exact completeUtf16_short hlt
      · exact completeUtf16_whole big hnil hlt
    have hle := hvc.length_le
    have hlt : v.length ≠ (utf16Char big c).length := fun h => hne (hvc.eq_of_length h)
    rcases units_cases c with ⟨u, hu, -⟩ | ⟨u, u', hu, hhigh, -⟩
    · have hlen : (utf16Char big c).length = 2 := by
        rw [utf16Char, hu, flatMap_singleton, length_bytesOfUnit]
      exact hone (by omega)
    · have hc : utf16Char big c = bytesOfUnit big u ++ bytesOfUnit big u' := by
        simp [utf16Char, hu]
      have hlen : (utf16Char big c).length = 4 := by
        rw [hc, length_append, length_bytesOfUnit, length_bytesOfUnit]
      by_cases hv2 : v.length < 2
      · exact hone hv2
      · obtain ⟨t, rfl⟩ : bytesOfUnit big u <+: v := by
          refine prefix_of_prefix_length_le ?_ hvc (by rw [length_bytesOfUnit]; omega)
          rw [hc]
          exact prefix_append _ _
        rw [length_append, length_bytesOfUnit] at hle hlt
        rw [← append_assoc, completeUtf16_append hds (by omega), hhigh, if_pos rfl]

/-! ## Code pages -/

/-- Every character has one byte, or a lead byte and another one. -/
def LeadBytes (lead : UInt8 → Bool) (word : Bytes) : Prop :=
  (∃ b, word = [b] ∧ lead b = false) ∨ ∃ b d, word = [b, d] ∧ lead b = true

theorem walkFrom_append {lead : UInt8 → Bool} {w : Char → Bytes} (hw : ∀ c, LeadBytes lead (w c))
    (ds : List Char) (v : Bytes) (i : Nat) : walkFrom lead (ds.flatMap w ++ v) i =
      walkFrom lead v (i + (ds.flatMap w).length) := by
  induction ds generalizing i with
  | nil => rfl
  | cons c ds ih =>
    rw [flatMap_cons, append_assoc, length_append, ← Nat.add_assoc]
    rcases hw c with ⟨b, hb, hl⟩ | ⟨b, d, hb, hl⟩
    · rw [hb, ← ih]
      cases h : ds.flatMap w ++ v with
      | nil => simp [walkFrom, hl]
      | cons x rest => simp [walkFrom, hl]
    · rw [hb, ← ih]
      simp [walkFrom, hl]

theorem completeDbcs_holdsBack {lead : UInt8 → Bool} {w : Char → Bytes}
    (hw : ∀ c, LeadBytes lead (w c)) : HoldsBack w (completeDbcs lead) where
  whole ds c _ := by
    rw [completeDbcs, walkFrom_append hw]
    refine if_neg ?_
    rcases hw c with ⟨b, hb, hl⟩ | ⟨b, d, hb, hl⟩
    · simp [hb, walkFrom, hl]
    · simp [hb, walkFrom, hl]
  part ds c v hv hvc hne := by
    rcases hw c with ⟨b, hb, hl⟩ | ⟨b, d, hb, hl⟩
    · rw [hb] at hvc hne
      rcases prefix_cons_iff.mp hvc with rfl | ⟨t, rfl, ht⟩
      · exact absurd rfl hv
      · rw [prefix_nil.mp ht] at hne
        exact absurd rfl hne
    · rw [hb] at hvc hne
      -- The lead byte alone: the walk steps behind the end.
      obtain rfl : v = [b] := by
        rcases prefix_cons_iff.mp hvc with rfl | ⟨t, rfl, ht⟩
        · exact absurd rfl hv
        · rcases prefix_cons_iff.mp ht with rfl | ⟨t', rfl, ht'⟩
          · rfl
          · rw [prefix_nil.mp ht'] at hne
            exact absurd rfl hne
      rw [completeDbcs, walkFrom_append hw]
      simp [walkFrom, hl]

end Hc.Compare
