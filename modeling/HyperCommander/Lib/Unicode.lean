import HyperCommander.Lib.Bytes

/-!
# Strings of UTF-16 code units and their bytes

Characters are Unicode scalar values. A string of code units that pairs its surrogates is the
UTF-16 form of exactly one string of characters.

* `scalars`, `units`: from code units to characters and back (`scalars_flatMap_units`).
* `toUtf8_injective`: strings that pair their surrogates are told apart by their UTF-8 bytes.
* `zero_mem_toUtf8`: the bytes contain a zero only if the string does.
-/

namespace Unicode

open List

/-- A string of UTF-16 code units. -/
abbrev Units := List UInt16

instance lawfulBEqUInt16 : LawfulBEq UInt16 := inferInstance

instance lawfulBEqUnits : LawfulBEq Units := inferInstance

def isHigh (u : UInt16) : Bool := 0xd800 ≤ u && u ≤ 0xdbff

def isLow (u : UInt16) : Bool := 0xdc00 ≤ u && u ≤ 0xdfff

/-- The character of a pair of surrogates. -/
def paired (high low : UInt16) : Char :=
  Char.ofNat (0x10000 + (high.toNat - 0xd800) * 0x400 + (low.toNat - 0xdc00))

/-- The character of a unit that is not part of a pair; `?` for a surrogate. -/
def single (u : UInt16) : Char :=
  if isHigh u || isLow u then '?' else Char.ofNat u.toNat

/-- The characters of a string; an unpaired surrogate is read as `?`. -/
def scalars : Units → List Char
  | [] => []
  | [u] => [single u]
  | u :: v :: rest =>
    if isHigh u && isLow v then paired u v :: scalars rest else single u :: scalars (v :: rest)

/-- The units of a character. -/
def units (c : Char) : Units :=
  if c.toNat < 0x10000 then [c.toNat.toUInt16]
  else
    let n := c.toNat - 0x10000
    [(0xd800 + n / 0x400).toUInt16, (0xdc00 + n % 0x400).toUInt16]

/-- Every surrogate of the string is paired. -/
def Paired (q : Units) : Prop := (scalars q).flatMap units = q

instance (q : Units) : Decidable (Paired q) := inferInstanceAs (Decidable (_ = _))

def utf8 (cs : List Char) : List UInt8 := cs.flatMap String.utf8EncodeChar

/-- The UTF-8 bytes of a string; an unpaired surrogate gives `?`. -/
def toUtf8 (q : Units) : List UInt8 := utf8 (scalars q)

theorem utf8_injective : Function.Injective utf8 := by
  intro a b h
  have he : a.utf8Encode = b.utf8Encode := by
    exact congrArg toByteArray h
  have hd := congrArg ByteArray.utf8Decode? he
  simpa using hd

theorem toUtf8_injective {q r : Units} (hq : Paired q) (hr : Paired r)
    (h : toUtf8 q = toUtf8 r) : q = r := by
  have hs : scalars q = scalars r := utf8_injective h
  rw [← hq, ← hr, hs]

theorem or_ne_zero {a b : UInt8} (hb : b ≠ 0) : a ||| b ≠ 0 := fun h =>
  hb (UInt8.or_eq_zero_iff.1 h).2

theorem zero_mem_utf8EncodeChar {c : Char} (h : 0 ∈ String.utf8EncodeChar c) : c.toNat = 0 := by
  rw [String.utf8EncodeChar_eq_utf8EncodeCharFast] at h
  unfold String.utf8EncodeCharFast at h
  simp only at h
  split at h
  · rename_i hc
    have h0 : c.val.toUInt8 = 0 := by simpa [eq_comm] using h
    have hn := congrArg UInt8.toNat h0
    rw [UInt32.toNat_toUInt8] at hn
    have hle : c.val.toNat ≤ 127 := hc
    rw [Nat.mod_eq_of_lt (by omega)] at hn
    exact hn
  -- every other byte has its highest bits set
  split at h
  · simp only [mem_cons, not_mem_nil, or_false] at h
    rcases h with h | h <;> exact absurd h.symm (or_ne_zero (by decide))
  split at h
  · simp only [mem_cons, not_mem_nil, or_false] at h
    rcases h with h | h | h <;> exact absurd h.symm (or_ne_zero (by decide))
  · simp only [mem_cons, not_mem_nil, or_false] at h
    rcases h with h | h | h | h <;> exact absurd h.symm (or_ne_zero (by decide))

theorem toNat_ofNat {n : Nat} (h : n < 0xd800 ∨ 0xdfff < n ∧ n < 0x110000) :
    (Char.ofNat n).toNat = n := by
  rw [Char.ofNat, dif_pos h]
  rfl

theorem single_toNat_eq_zero {u : UInt16} (h : (single u).toNat = 0) : u = 0 := by
  unfold single at h
  split at h
  · cases h
  · rename_i hs
    have hlt := u.toNat_lt
    have hn : u.toNat < 0xd800 ∨ 0xdfff < u.toNat := by
      simp only [isHigh, isLow, UInt16.le_iff_toNat_le, Bool.or_eq_true, Bool.and_eq_true,
        decide_eq_true_eq] at hs
      simp at hs
      omega
    rw [toNat_ofNat (by omega)] at h
    exact UInt16.toNat_inj.1 h

theorem paired_toNat_ne_zero {u v : UInt16} (hu : isHigh u) (hv : isLow v) :
    (paired u v).toNat ≠ 0 := by
  simp only [isHigh, isLow, UInt16.le_iff_toNat_le, Bool.and_eq_true, decide_eq_true_eq] at hu hv
  simp at hu hv
  unfold paired
  generalize hn : 0x10000 + (u.toNat - 0xd800) * 0x400 + (v.toNat - 0xdc00) = n
  have hr : n < 0xd800 ∨ 0xdfff < n ∧ n < 0x110000 := by omega
  rw [toNat_ofNat hr]
  omega

theorem zero_mem_scalars {q : Units} {c : Char} (hc : c ∈ scalars q) (h : c.toNat = 0) :
    0 ∈ q := by
  induction q using scalars.induct with
  | case1 => cases hc
  | case2 u =>
    obtain rfl : c = single u := by simpa [scalars] using hc
    simp [single_toNat_eq_zero h]
  | case3 u v rest hp ih =>
    rw [scalars, if_pos hp] at hc
    rw [Bool.and_eq_true] at hp
    rcases mem_cons.1 hc with he | hc
    · exact absurd (he ▸ h) (paired_toNat_ne_zero hp.1 hp.2)
    · simp [ih hc]
  | case4 u v rest hp ih =>
    rw [scalars, if_neg hp] at hc
    rcases mem_cons.1 hc with rfl | hc
    · simp [single_toNat_eq_zero h]
    · exact mem_cons_of_mem _ (ih hc)

theorem zero_mem_toUtf8 {q : Units} (h : 0 ∈ toUtf8 q) : 0 ∈ q := by
  obtain ⟨c, hc, h0⟩ := mem_flatMap.1 h
  exact zero_mem_scalars hc (zero_mem_utf8EncodeChar h0)

theorem units_ne_nil (c : Char) : units c ≠ [] := by
  unfold units
  split <;> exact cons_ne_nil _ _

theorem toNat_toUInt16 {n : Nat} (h : n < 0x10000) : n.toUInt16.toNat = n := by
  rw [UInt16.toNat_ofNat']
  exact Nat.mod_eq_of_lt h

/-- The surrogates of a supplementary character. -/
theorem paired_units {n : Nat} (h : n < 0x100000) :
    isHigh (0xd800 + n / 0x400).toUInt16 ∧ isLow (0xdc00 + n % 0x400).toUInt16 ∧
      paired (0xd800 + n / 0x400).toUInt16 (0xdc00 + n % 0x400).toUInt16 =
        Char.ofNat (0x10000 + n) := by
  have hh : (0xd800 + n / 0x400).toUInt16.toNat = 0xd800 + n / 0x400 := toNat_toUInt16 (by omega)
  have hl : (0xdc00 + n % 0x400).toUInt16.toNat = 0xdc00 + n % 0x400 := toNat_toUInt16 (by omega)
  refine ⟨?_, ?_, ?_⟩
  · simp only [isHigh, UInt16.le_iff_toNat_le, hh, Bool.and_eq_true, decide_eq_true_eq]
    simp
    omega
  · simp only [isLow, UInt16.le_iff_toNat_le, hl, Bool.and_eq_true, decide_eq_true_eq]
    simp
    omega
  · rw [paired, hh, hl]
    exact congrArg Char.ofNat (by omega)

/-- A character of the basic plane is not a surrogate. -/
theorem not_surrogate {c : Char} (h : c.toNat < 0x10000) :
    isHigh c.toNat.toUInt16 = false ∧ isLow c.toNat.toUInt16 = false := by
  have hn : c.toNat.toUInt16.toNat = c.toNat := toNat_toUInt16 h
  have hv : c.toNat < 0xd800 ∨ 0xdfff < c.toNat ∧ c.toNat < 0x110000 := c.valid
  simp only [isHigh, isLow, UInt16.le_iff_toNat_le, hn, Bool.and_eq_false_iff,
    decide_eq_false_iff_not]
  simp
  omega

theorem scalars_units_append (c : Char) (q : Units) : scalars (units c ++ q) = c :: scalars q := by
  by_cases h : c.toNat < 0x10000
  · obtain ⟨hh, hl⟩ := not_surrogate h
    have hs : single c.toNat.toUInt16 = c := by
      rw [single, hh, hl, toNat_toUInt16 h]
      exact Char.ofNat_toNat c
    rw [units, if_pos h]
    cases q with
    | nil => exact congrArg (fun d => [d]) hs
    | cons v q =>
      rw [singleton_append, scalars, hh, hs]
      rfl
  · have hlt : c.toNat < 0x110000 := by
      have hv : c.toNat < 0xd800 ∨ 0xdfff < c.toNat ∧ c.toNat < 0x110000 := c.valid
      omega
    obtain ⟨hh, hl, hp⟩ := paired_units (n := c.toNat - 0x10000) (by omega)
    rw [units, if_neg h]
    simp only [cons_append, nil_append, scalars, hh, hl, hp, Bool.and_self, if_true]
    rw [show 0x10000 + (c.toNat - 0x10000) = c.toNat by omega, Char.ofNat_toNat]

/-- The characters of a text are those it was written from. -/
theorem scalars_flatMap_units (cs : List Char) : scalars (cs.flatMap units) = cs := by
  induction cs with
  | nil => rfl
  | cons c cs ih => rw [flatMap_cons, scalars_units_append, ih]

end Unicode
