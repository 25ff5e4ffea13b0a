import HyperCommander.Lib.Bytes

/-!
# Binary streams

Numbers are written with the highest byte first, byte strings with their length before them. A read
past the end gives zero or an empty string and is remembered; the reader may look at it later.

* `Gets r bs a`: reading what was written, whatever follows it.
* `gets_nat`, `gets_bytes`, `gets_flag`, `gets_times`, `Gets.bind`, `Gets.ends`: the rules.
-/

/-- A stream that is read: what is left of it, and whether no read went past its end. -/
structure DataStream where
  rest : List UInt8
  ok : Bool := true
deriving DecidableEq, Repr

namespace DataStream

open List

/-- A reader, which may also give up. -/
abbrev Reader (ε α : Type) := StateT DataStream (Except ε) α

variable {ε α β : Type}

/-- A number of `k` bytes. -/
def nat (k : Nat) : Reader ε Nat := fun s =>
  if k ≤ s.rest.length then .ok (Bytes.ofBE (s.rest.take k), { s with rest := s.rest.drop k })
  else .ok (0, ⟨[], false⟩)

/-- A truth value of one byte. -/
def flag : Reader ε Bool := do
  let n ← nat 1
  pure (n ≠ 0)

/-- `n` bytes. -/
def raw (n : Nat) : Reader ε (List UInt8) := fun s =>
  if n ≤ s.rest.length then .ok (s.rest.take n, { s with rest := s.rest.drop n })
  else .ok ([], ⟨[], false⟩)

/-- The length that stands for no byte string at all. -/
def nullLength : Nat := 0xffffffff

/-- A byte string with its length. -/
def bytes : Reader ε (List UInt8) := do
  let n ← nat 4
  if n = nullLength then pure [] else raw n

/-- `n` values. -/
def times (n : Nat) (r : Reader ε α) : Reader ε (List α) :=
  match n with
  | 0 => pure []
  | n + 1 => do
    let a ← r
    let as ← times n r
    pure (a :: as)

/-- Whether every read found its bytes and none are left. -/
def done : Reader ε Bool := fun s => .ok (s.ok && s.rest.isEmpty, s)

def fail (e : ε) : Reader ε α := fun _ => .error e

/-- Gives up if the condition holds. -/
def refuse (c : Prop) [Decidable c] (e : ε) : Reader ε Unit := if c then fail e else pure ()

/-- The value read from the bytes. -/
def run (r : Reader ε α) (bs : List UInt8) : Except ε α :=
  match r ⟨bs, true⟩ with
  | .ok (a, _) => .ok a
  | .error e => .error e

/-- A byte string as it is written. -/
def put (bs : List UInt8) : List UInt8 := Bytes.be 4 bs.length ++ bs

def putFlag (b : Bool) : List UInt8 := [if b then 1 else 0]

/-- Reading the bytes gives the value, and leaves what follows. -/
def Gets (r : Reader ε α) (bs : List UInt8) (a : α) : Prop :=
  ∀ rest, r ⟨bs ++ rest, true⟩ = .ok (a, ⟨rest, true⟩)

theorem Gets.pure (a : α) : Gets (Pure.pure a : Reader ε α) [] a := fun _ => rfl

variable {r : Reader ε α} {f : α → Reader ε β} {bs cs : List UInt8} {a : α} {b : β}

theorem Gets.bind (h : Gets r bs a) (hf : Gets (f a) cs b) : Gets (r >>= f) (bs ++ cs) b := by
  intro rest
  show (r ⟨bs ++ cs ++ rest, true⟩ >>= fun p => f p.1 p.2) = _
  rw [append_assoc, h]
  exact hf rest

/-- A step that reads nothing. -/
theorem Gets.skip (h : Gets r [] a) (hf : Gets (f a) cs b) : Gets (r >>= f) cs b := h.bind hf

/-- The last step that reads something. -/
theorem Gets.last (h : Gets r bs a) (hf : Gets (f a) [] b) : Gets (r >>= f) bs b := by
  have hb := h.bind hf
  rwa [append_nil] at hb

theorem gets_nat {k n : Nat} (h : n < 256 ^ k) : Gets (nat k : Reader ε Nat) (Bytes.be k n) n := by
  intro rest
  have hl : (Bytes.be k n).length = k := Bytes.length_be k n
  have hle : k ≤ (Bytes.be k n ++ rest).length := by
    rw [length_append, hl]
    omega
  simp only [nat, if_pos hle, take_left' hl, drop_left' hl, Bytes.ofBE_be_of_lt h]

theorem gets_flag (b : Bool) : Gets (flag : Reader ε Bool) (putFlag b) b := by
  cases b <;> exact fun _ => rfl

theorem gets_raw (bs : List UInt8) : Gets (raw bs.length : Reader ε (List UInt8)) bs bs := by
  intro rest
  have hle : bs.length ≤ (bs ++ rest).length := by
    rw [length_append]
    omega
  simp only [raw, if_pos hle, take_left, drop_left]

theorem gets_bytes (h : bs.length < nullLength) :
    Gets (bytes : Reader ε (List UInt8)) (put bs) bs := by
  have hlt : bs.length < 256 ^ 4 := Nat.lt_trans h (by decide)
  refine (gets_nat hlt).bind ?_
  rw [if_neg (Nat.ne_of_lt h)]
  exact gets_raw bs

theorem gets_times {enc : α → List UInt8} {as : List α}
    (h : ∀ a ∈ as, Gets r (enc a) a) : Gets (times as.length r) (as.flatMap enc) as := by
  induction as with
  | nil => exact .pure []
  | cons a as ih =>
    obtain ⟨ha, has⟩ := forall_mem_cons.1 h
    rw [flatMap_cons]
    refine ha.bind ?_
    exact (ih has).last (.pure (a :: as))

theorem gets_refuse {c : Prop} [Decidable c] {e : ε} (h : ¬ c) : Gets (refuse c e) [] () := by
  rw [refuse, if_neg h]
  exact .pure ()

/-- Reading the bytes, all of them, gives the value. -/
def Ends (r : Reader ε α) (bs : List UInt8) (a : α) : Prop := r ⟨bs, true⟩ = .ok (a, ⟨[], true⟩)

theorem Gets.ends {r : Reader ε α} {f : α → Reader ε β} {bs cs : List UInt8} {a : α} {b : β}
    (h : Gets r bs a) (hf : Ends (f a) cs b) : Ends (r >>= f) (bs ++ cs) b := by
  show (r ⟨bs ++ cs, true⟩ >>= fun p => f p.1 p.2) = _
  rw [h]
  exact hf

/-- A step that reads nothing. -/
theorem Gets.skip_ends (h : Gets r [] a) (hf : Ends (f a) cs b) : Ends (r >>= f) cs b := h.ends hf

/-- At the end everything has been read. -/
theorem ends_done {f : Bool → Reader ε β} (hf : Ends (f true) [] b) :
    Ends (done >>= f) [] b := hf

theorem ends_pure (a : α) : Ends (pure a : Reader ε α) [] a := rfl

theorem run_of_ends (h : Ends r bs a) :
    run r bs = .ok a := by
  rw [run, h]

theorem length_put (bs : List UInt8) : (put bs).length = 4 + bs.length := by
  rw [put, length_append, Bytes.length_be]

end DataStream
