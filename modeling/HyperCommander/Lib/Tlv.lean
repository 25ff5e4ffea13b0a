import HyperCommander.Lib.Bytes

/-!
# Records of an identifier, a length and data

Each record starts with two 16-bit words, the lowest byte first.

* `parse_encode`, `encode_parse`: reading and writing are inverse on records whose length fits.
-/

namespace Tlv

open List

/-- A record. -/
structure Record where
  id : UInt16
  data : List UInt8
deriving DecidableEq, Repr

/-- The length of the data fits its word. -/
def Record.Fits (r : Record) : Prop := r.data.length < 65536

/-- A record as bytes; the length is cut to its word. -/
def Record.bytes (r : Record) : List UInt8 :=
  Bytes.le 2 r.id.toNat ++ Bytes.le 2 r.data.length ++ r.data

def encode (rs : List Record) : List UInt8 := rs.flatMap Record.bytes

/-- At most `n` records. -/
def parseN : Nat → List UInt8 → Option (List Record)
  | _, [] => some []
  | n + 1, a :: b :: c :: d :: rest =>
    if rest.length < Bytes.ofLE [c, d] then none
    else
      (parseN n (rest.drop (Bytes.ofLE [c, d]))).map
        (⟨UInt16.ofNat (Bytes.ofLE [a, b]), rest.take (Bytes.ofLE [c, d])⟩ :: ·)
  | _, _ => none

def parse (bs : List UInt8) : Option (List Record) := parseN bs.length bs

@[simp] theorem encode_nil : encode [] = [] := rfl

@[simp] theorem encode_cons (r : Record) (rs : List Record) :
    encode (r :: rs) = r.bytes ++ encode rs := flatMap_cons

theorem encode_append (rs ss : List Record) : encode (rs ++ ss) = encode rs ++ encode ss :=
  flatMap_append

theorem bytes_length (r : Record) : r.bytes.length = 4 + r.data.length := by
  simp only [Record.bytes, length_append, Bytes.length_le]

theorem le_two (n : Nat) : Bytes.le 2 n = [UInt8.ofNat n, UInt8.ofNat (n / 256)] := rfl

variable {n : Nat} {rs : List Record} {bs : List UInt8}

theorem parseN_bytes_append {r : Record} (h : r.Fits) (bs : List UInt8) :
    parseN (n + 1) (r.bytes ++ bs) = (parseN n bs).map (r :: ·) := by
  have hid : Bytes.ofLE [UInt8.ofNat r.id.toNat, UInt8.ofNat (r.id.toNat / 256)] = r.id.toNat := by
    have hlt : r.id.toNat < 256 ^ 2 := r.id.toNat_lt
    simpa only [le_two] using Bytes.ofLE_le_of_lt hlt
  have hsize : Bytes.ofLE [UInt8.ofNat r.data.length, UInt8.ofNat (r.data.length / 256)] =
      r.data.length := by
    have hlt : r.data.length < 256 ^ 2 := h
    simpa only [le_two] using Bytes.ofLE_le_of_lt hlt
  simp only [Record.bytes, le_two, cons_append, nil_append, parseN, hid, hsize]
  have hlen : ¬ (r.data ++ bs).length < r.data.length := by
    rw [length_append]
    omega
  rw [if_neg hlen, take_left, drop_left, UInt16.ofNat_toNat]

theorem parseN_encode (h : ∀ r ∈ rs, r.Fits)
    (hn : (encode rs).length ≤ n) : parseN n (encode rs) = some rs := by
  induction rs generalizing n with
  | nil => cases n <;> rfl
  | cons r rs ih =>
    rw [encode_cons, length_append, bytes_length] at hn
    cases n with
    | zero => omega
    | succ n =>
      rw [encode_cons, parseN_bytes_append (h r mem_cons_self),
        ih (fun s hs => h s (mem_cons_of_mem r hs)) (by omega)]
      rfl

/-- What was written is read back. -/
theorem parse_encode (h : ∀ r ∈ rs, r.Fits) : parse (encode rs) = some rs :=
  parseN_encode h (Nat.le_refl _)

theorem encode_parseN (h : parseN n bs = some rs) :
    encode rs = bs ∧ ∀ r ∈ rs, r.Fits := by
  induction n, bs using parseN.induct generalizing rs with
  | case1 n =>
    obtain rfl : rs = [] := by cases n <;> exact (Option.some.inj h).symm
    exact ⟨rfl, fun r hr => absurd hr not_mem_nil⟩
  | case2 n a b c d rest hlt => rw [parseN, if_pos hlt] at h; cases h
  | case3 n a b c d rest hlt ih =>
    rw [parseN, if_neg hlt] at h
    obtain ⟨ss, hs, rfl⟩ := Option.map_eq_some_iff.1 h
    obtain ⟨he, hf⟩ := ih hs
    have hid : Bytes.ofLE [a, b] < 65536 := by simpa using Bytes.ofLE_lt [a, b]
    have hsize : Bytes.ofLE [c, d] < 65536 := by simpa using Bytes.ofLE_lt [c, d]
    have hlen : (rest.take (Bytes.ofLE [c, d])).length = Bytes.ofLE [c, d] := by
      rw [length_take]
      omega
    have hab : Bytes.le 2 (Bytes.ofLE [a, b]) = [a, b] := Bytes.le_ofLE [a, b]
    have hcd : Bytes.le 2 (Bytes.ofLE [c, d]) = [c, d] := Bytes.le_ofLE [c, d]
    refine ⟨?_, forall_mem_cons.2 ⟨by rw [Record.Fits, hlen]; exact hsize, hf⟩⟩
    rw [encode_cons, he, Record.bytes, hlen, UInt16.toNat_ofNat_of_lt' hid, hab, hcd]
    simp only [cons_append, nil_append, take_append_drop]
  | case4 n bs h1 h2 =>
    rw [parseN.eq_def] at h
    split at h
    · exact absurd rfl h1
    · exact (h2 _ _ _ _ _ _ rfl rfl).elim
    · cases h

/-- Writing what was read gives the bytes back. -/
theorem encode_parse (h : parse bs = some rs) :
    encode rs = bs := (encode_parseN h).1

theorem fits_of_parse (h : parse bs = some rs) :
    ∀ r ∈ rs, r.Fits := (encode_parseN h).2

theorem encode_injective {ss : List Record} (hr : ∀ r ∈ rs, r.Fits) (hs : ∀ s ∈ ss, s.Fits)
    (h : encode rs = encode ss) : rs = ss := by
  have he := parse_encode hr
  rw [h, parse_encode hs] at he
  exact (Option.some.inj he).symm

end Tlv
