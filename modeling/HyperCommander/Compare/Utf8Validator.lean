import HyperCommander.Compare.Text
import HyperCommander.Lib.Outcome
import HyperCommander.Lib.Utf8Sequences

/-!
# Validation of UTF-8 in chunks (`HyperCompare/runtime/largeTextTools.cpp`, `Utf8Validator`)

The backing files of a stored work are read in chunks that end anywhere. Between two bytes the
validator keeps how many bytes the current character still needs and the range of the next one.

* `Follows`: what may follow a state.
* `validator_accepts_iff`: the validator accepts the UTF-8 texts without a NUL.
-/

namespace Hc.Compare

open List Utf8

/-- `Utf8Validator`. -/
structure Utf8Validator where
  remaining : Nat := 0
  low : UInt8 := 0x80
  high : UInt8 := 0xbf
deriving DecidableEq

namespace Utf8Validator

/-- The body of the loop of `Add`. -/
def step (s : Utf8Validator) (byte : UInt8) : Except Failure Utf8Validator :=
  if s.remaining ≠ 0 then
    if byte < s.low ∨ byte > s.high then .error ⟨"LargeTextWorkInvalidUtf8"⟩
    else .ok ⟨s.remaining - 1, 0x80, 0xbf⟩
  else if byte = 0 then .error ⟨"LargeTextWorkInvalidUtf8"⟩
  else if byte < 0x80 then .ok s
  else if 0xc2 ≤ byte ∧ byte ≤ 0xdf then .ok { s with remaining := 1 }
  else if 0xe0 ≤ byte ∧ byte ≤ 0xef then
    .ok ⟨2, if byte = 0xe0 then 0xa0 else 0x80, if byte = 0xed then 0x9f else 0xbf⟩
  else if 0xf0 ≤ byte ∧ byte ≤ 0xf4 then
    .ok ⟨3, if byte = 0xf0 then 0x90 else 0x80, if byte = 0xf4 then 0x8f else 0xbf⟩
  else .error ⟨"LargeTextWorkInvalidUtf8"⟩

/-- `Add`. -/
def add (s : Utf8Validator) (bytes : Bytes) : Except Failure Utf8Validator := bytes.foldlM step s

/-- The loop over the chunks of a backing file and the check behind it. -/
def accepts (chunks : List Bytes) : Bool :=
  match chunks.foldlM add {} with
  | .ok s => s.remaining = 0
  | .error _ => false

/-! ## What may follow a state -/

/-- Between two characters any second byte is in range. -/
def Ready (s : Utf8Validator) : Prop := s.remaining = 0 → s.low = 0x80 ∧ s.high = 0xbf

/-- The bytes that complete the current character, and a text without a NUL. -/
def Follows (s : Utf8Validator) (bs : Bytes) : Prop :=
  match s.remaining with
  | 0 => Valid bs ∧ 0 ∉ bs
  | n + 1 => ∃ b rest, bs = b :: rest ∧ (s.low ≤ b ∧ b ≤ s.high) ∧ Tails n rest ∧ 0 ∉ rest

variable {s : Utf8Validator} {b : UInt8} {bs : Bytes}

theorem follows_zero (low high : UInt8) : Follows ⟨0, low, high⟩ bs ↔ Valid bs ∧ 0 ∉ bs := Iff.rfl

theorem follows_succ {n : Nat} {low high : UInt8} : Follows ⟨n + 1, low, high⟩ bs ↔
    ∃ b rest, bs = b :: rest ∧ (low ≤ b ∧ b ≤ high) ∧ Tails n rest ∧ 0 ∉ rest := Iff.rfl

/-- Behind the second byte the state asks for so many tails. -/
theorem follows_tails {n : Nat} : Follows ⟨n, 0x80, 0xbf⟩ bs ↔ Tails n bs ∧ 0 ∉ bs := by
  cases n with
  | zero => exact Iff.rfl
  | succ n =>
    rw [follows_succ, Tails]
    constructor
    · rintro ⟨b, rest, rfl, hb, ht, h0⟩
      refine ⟨⟨b, rest, rfl, hb, ht⟩, fun h => ?_⟩
      rcases mem_cons.mp h with rfl | h
      · exact absurd hb.1 (by decide)
      · exact h0 h
    · rintro ⟨⟨b, rest, rfl, hb, ht⟩, h0⟩
      exact ⟨b, rest, rfl, hb, ht, fun h => h0 (mem_cons_of_mem _ h)⟩

theorem follows_nil : Follows s [] ↔ s.remaining = 0 := by
  obtain ⟨n, low, high⟩ := s
  cases n with
  | zero => exact ⟨fun _ => rfl, fun _ => ⟨Valid.nil, not_mem_nil⟩⟩
  | succ n =>
    refine ⟨fun h => ?_, fun h => absurd h (Nat.succ_ne_zero n)⟩
    obtain ⟨b, rest, h, -⟩ := follows_succ.mp h
    cases h

/-- A lead of three or four bytes sets the range of the second one. -/
theorem isSecond_three {a : UInt8} (ha : a ≤ 0xef) : IsSecond a b ↔
    (if a = 0xe0 then 0xa0 else 0x80) ≤ b ∧ b ≤ (if a = 0xed then 0x9f else 0xbf) := by
  have h1 : a ≠ 0xf0 := fun h => absurd (h ▸ ha) (by decide)
  have h2 : a ≠ 0xf4 := fun h => absurd (h ▸ ha) (by decide)
  rw [IsSecond, secondLow, secondHigh, if_neg h1, if_neg h2]

theorem isSecond_four {a : UInt8} (ha : 0xf0 ≤ a) : IsSecond a b ↔
    (if a = 0xf0 then 0x90 else 0x80) ≤ b ∧ b ≤ (if a = 0xf4 then 0x8f else 0xbf) := by
  have h1 : a ≠ 0xe0 := fun h => absurd (h ▸ ha) (by decide)
  have h2 : a ≠ 0xed := fun h => absurd (h ▸ ha) (by decide)
  rw [IsSecond, secondLow, secondHigh, if_neg h1, if_neg h2]

/-- The bytes behind a lead that is not one of an ASCII character. -/
theorem zero_not_mem_tails {n : Nat} {low high : UInt8} (hlow : low ≠ 0) :
    (∃ c rest, bs = c :: rest ∧ (low ≤ c ∧ c ≤ high) ∧ Tails n rest) ∧ 0 ∉ bs ↔
      Follows ⟨n + 1, low, high⟩ bs := by
  rw [follows_succ]
  constructor
  · rintro ⟨⟨c, rest, rfl, hc, ht⟩, h0⟩
    exact ⟨c, rest, rfl, hc, ht, fun h => h0 (mem_cons_of_mem _ h)⟩
  · rintro ⟨c, rest, rfl, hc, ht, h0⟩
    refine ⟨⟨c, rest, rfl, hc, ht⟩, fun h => ?_⟩
    rcases mem_cons.mp h with rfl | h
    · exact hlow (UInt8.le_zero_iff.mp hc.1)
    · exact h0 h

/-- The first byte of a character. -/
theorem follows_lead : Follows ⟨0, 0x80, 0xbf⟩ (b :: bs) ↔
    ∃ s', step ⟨0, 0x80, 0xbf⟩ b = .ok s' ∧ Follows s' bs := by
  have hmem : b ≠ 0 → (0 ∉ b :: bs ↔ 0 ∉ bs) := by
    intro hb
    rw [mem_cons]
    exact not_congr ⟨fun h => h.resolve_left fun h => hb h.symm, .inr⟩
  have hok : ∀ s : Utf8Validator,
    (∃ s', (Except.ok s : Except Failure _) = .ok s' ∧ Follows s' bs) ↔
      Follows s bs := fun s => ⟨fun ⟨_, h, hf⟩ => by cases h; exact hf, fun h => ⟨s, rfl, h⟩⟩
  have hno : ∀ e : Failure, ¬ ∃ s', (Except.error e : Except Failure Utf8Validator) = .ok s' ∧
      Follows s' bs := fun _ ⟨_, h, _⟩ => by cases h
  -- The classes of the lead bytes exclude each other.
  have hle : ∀ x y : UInt8, x ≤ y ↔ x.toNat ≤ y.toNat := fun x y => UInt8.le_iff_toNat_le
  have hlt : ∀ x y : UInt8, x < y ↔ x.toNat < y.toNat := fun x y => UInt8.lt_iff_toNat_lt
  rw [follows_zero, valid_cons_iff]
  unfold step
  rw [if_neg (by decide)]
  by_cases h0 : b = 0
  · subst h0
    rw [if_pos rfl]
    exact iff_of_false (fun h => h.2 mem_cons_self) (hno _)
  rw [if_neg h0, hmem h0]
  by_cases h1 : b < 0x80
  · rw [if_pos h1, hok, follows_zero]
    refine and_congr_left' ⟨fun h => ?_, fun h => .inl ⟨h1, h⟩⟩
    simp only [hle, hlt, UInt8.reduceToNat] at h h1
    rcases h with h | h | h | h
    · exact h.2
    all_goals omega
  rw [if_neg h1]
  by_cases h2 : 0xc2 ≤ b ∧ b ≤ 0xdf
  · rw [if_pos h2, hok, follows_tails]
    refine and_congr_left' ⟨fun h => ?_, fun h => .inr (.inl ⟨h2, h⟩)⟩
    simp only [hle, hlt, UInt8.reduceToNat] at h h2
    rcases h with h | h | h | h
    · omega
    · exact h.2
    all_goals omega
  rw [if_neg h2]
  by_cases h3 : 0xe0 ≤ b ∧ b ≤ 0xef
  · rw [if_pos h3, hok, ← zero_not_mem_tails (by split <;> decide)]
    simp only [isSecond_three h3.2]
    refine and_congr_left' ⟨fun h => ?_, fun h => .inr (.inr (.inl ⟨h3, h⟩))⟩
    simp only [hle, hlt, UInt8.reduceToNat] at h h3
    rcases h with h | h | h | h
    · omega
    · omega
    · simpa only [hle] using h.2
    · omega
  rw [if_neg h3]
  by_cases h4 : 0xf0 ≤ b ∧ b ≤ 0xf4
  · rw [if_pos h4, hok, ← zero_not_mem_tails (by split <;> decide)]
    simp only [isSecond_four h4.1]
    refine and_congr_left' ⟨fun h => ?_, fun h => .inr (.inr (.inr ⟨h4, h⟩))⟩
    simp only [hle, hlt, UInt8.reduceToNat] at h h4
    rcases h with h | h | h | h
    · omega
    · omega
    · omega
    · simpa only [hle] using h.2
  rw [if_neg h4]
  refine iff_of_false (fun h => ?_) (hno _)
  rcases h.1 with h | h | h | h
  · exact h1 h.1
  · exact h2 h.1
  · exact h3 h.1
  · exact h4 h.1

/-- A byte is accepted if it leads on to what may follow. -/
theorem follows_cons (h : Ready s) :
    Follows s (b :: bs) ↔ ∃ s', step s b = .ok s' ∧ Follows s' bs := by
  obtain ⟨n, low, high⟩ := s
  cases n with
  | zero =>
    obtain ⟨rfl, rfl⟩ := h rfl
    exact follows_lead
  | succ n =>
    rw [follows_succ]
    unfold step
    rw [if_pos (Nat.succ_ne_zero n)]
    split
    · rename_i hout
      refine iff_of_false (fun ⟨c, rest, hc, hin, _⟩ => ?_) fun ⟨_, h, _⟩ => by cases h
      cases hc
      rcases hout with hout | hout
      · exact absurd hin.1 (UInt8.not_le.mpr hout)
      · exact absurd hin.2 (UInt8.not_le.mpr hout)
    · rename_i hin
      obtain ⟨h1, h2⟩ := not_or.mp hin
      constructor
      · rintro ⟨c, rest, hc, -, ht⟩
        cases hc
        exact ⟨_, rfl, follows_tails.mpr ht⟩
      · rintro ⟨s', hs, hf⟩
        cases hs
        exact ⟨b, bs, rfl, ⟨UInt8.not_lt.mp h1, UInt8.not_lt.mp h2⟩, follows_tails.mp hf⟩

/-- A byte leaves the range of second bytes as it was between characters. -/
theorem Ready.step {s' : Utf8Validator} (h : Ready s) (hs : s.step b = .ok s') : Ready s' := by
  unfold Utf8Validator.step at hs
  split at hs
  · split at hs
    · cases hs
    · cases hs
      exact fun _ => ⟨rfl, rfl⟩
  · rename_i hr
    split at hs
    · cases hs
    split at hs
    · cases hs
      exact h
    split at hs
    · cases hs
      exact fun hr => absurd hr (Nat.succ_ne_zero _)
    split at hs
    · cases hs
      exact fun hr => absurd hr (Nat.succ_ne_zero _)
    split at hs
    · cases hs
      exact fun hr => absurd hr (Nat.succ_ne_zero _)
    · cases hs

/-- A run over the bytes ends between two characters exactly if they may follow the state. -/
theorem add_iff (h : Ready s) : (∃ s', add s bs = .ok s' ∧ s'.remaining = 0) ↔ Follows s bs := by
  induction bs generalizing s with
  | nil =>
    rw [follows_nil]
    exact ⟨fun ⟨_, hs, hr⟩ => by cases hs; exact hr, fun hr => ⟨s, rfl, hr⟩⟩
  | cons b bs ih =>
    rw [follows_cons h, add, foldlM_cons]
    constructor
    · rintro ⟨t, ht, hr⟩
      obtain ⟨s', hs, ht⟩ := Outcome.bind_eq_ok.mp ht
      exact ⟨s', hs, (ih (h.step hs)).mp ⟨t, ht, hr⟩⟩
    · rintro ⟨s', hs, hf⟩
      obtain ⟨t, ht, hr⟩ := (ih (h.step hs)).mpr hf
      exact ⟨t, by rw [hs]; exact ht, hr⟩

/-- Where the chunks are cut does not matter. -/
theorem add_chunks (chunks : List Bytes) (s : Utf8Validator) :
    chunks.foldlM add s = add s chunks.flatten := by
  induction chunks generalizing s with
  | nil => rfl
  | cons chunk chunks ih =>
    rw [foldlM_cons, flatten_cons, add, add, foldlM_append]
    exact congrArg _ (funext fun s' => ih s')

/-- However a byte string is cut into chunks, it is accepted exactly if it is the UTF-8 form of a
string of characters and has no NUL. -/
theorem validator_accepts_iff (chunks : List Bytes) :
    accepts chunks = true ↔ Valid chunks.flatten ∧ 0 ∉ chunks.flatten := by
  have hready : Ready {} := fun _ => ⟨rfl, rfl⟩
  rw [← follows_zero 0x80 0xbf, ← add_iff hready, accepts, add_chunks]
  split
  · rename_i s hs
    rw [hs, decide_eq_true_iff]
    exact ⟨fun hr => ⟨s, rfl, hr⟩, fun ⟨_, h, hr⟩ => by cases h; exact hr⟩
  · rename_i e hs
    rw [hs]
    exact iff_of_false Bool.false_ne_true fun ⟨_, h, _⟩ => by cases h

end Utf8Validator

end Hc.Compare
