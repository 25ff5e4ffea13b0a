import Mathlib.Algebra.Order.Ring.Int
import Mathlib.Data.List.Basic

/-!
# Character tables of multibyte encodings

Several byte sequences may stand for one character; one of them is written for it.

* `reads_unique`: no sequence begins another, so a text is cut into sequences in one way.
* `substitute_eq_iff`: writing what was read gives the bytes back exactly when they are made of the
  sequences that the table writes.
* `read_iff`: the reader computes the reading.
-/

/-- A character table. -/
structure CodeTable (α : Type) where
  /-- The longest sequence. -/
  maxLength : Nat
  /-- The character of a sequence. -/
  char : List UInt8 → Option α
  /-- The sequence written for a character. -/
  bytes : α → Option (List UInt8)
  /-- Written for a character without a sequence. -/
  fallback : List UInt8
  length_pos : ∀ {s a}, char s = some a → 0 < s.length
  length_le : ∀ {s a}, char s = some a → s.length ≤ maxLength
  prefix_eq : ∀ {s t a b}, char s = some a → char t = some b → s <+: t → s = t
  char_bytes : ∀ {s a}, bytes a = some s → char s = some a
  char_fallback : ∃ a, char fallback = some a ∧ bytes a = some fallback

namespace CodeTable

open Option List

/-- The bytes read as the characters. -/
inductive Reads {α : Type} (T : CodeTable α) : List UInt8 → List α → Prop
  | nil : Reads T [] []
  | cons {s : List UInt8} {a : α} {bs : List UInt8} {cs : List α} :
      T.char s = some a → Reads T bs cs → Reads T (s ++ bs) (a :: cs)

variable {α : Type} {T : CodeTable α} {bs s t : List UInt8} {cs ds : List α} {a b : α}

/-- Two sequences at the front of one text are the same. -/
theorem front_unique (hs : T.char s = some a) (ht : T.char t = some b) {us vs : List UInt8}
    (h : s ++ us = t ++ vs) : s = t := by
  rcases prefix_or_prefix_of_prefix (prefix_append s us)
    (h ▸ prefix_append t vs) with hp | hp
  · exact T.prefix_eq hs ht hp
  · exact (T.prefix_eq ht hs hp).symm

theorem reads_unique (h : T.Reads bs cs) (h' : T.Reads bs ds) : cs = ds := by
  induction h generalizing ds with
  | nil =>
    generalize he : ([] : List UInt8) = es at h'
    cases h' with
    | nil => rfl
    | cons ht _ =>
      have hp := T.length_pos ht
      rw [(append_eq_nil_iff.1 he.symm).1] at hp
      cases hp
  | @cons s a bs cs hs _ ih =>
    generalize he : s ++ bs = es at h'
    cases h' with
    | nil =>
      have hp := T.length_pos hs
      rw [(append_eq_nil_iff.1 he).1] at hp
      cases hp
    | cons ht hr =>
      obtain rfl := front_unique hs ht he
      obtain rfl := append_cancel_left he
      rw [hs, some.injEq] at ht
      rw [ih hr, ht]

/-- Written for a character. -/
def write (T : CodeTable α) (a : α) : List UInt8 := (T.bytes a).getD T.fallback

/-- Written for a text; a character without a sequence gives the fallback. -/
def substitute (T : CodeTable α) (cs : List α) : List UInt8 := cs.flatMap T.write

/-- Every character has a sequence. -/
def Covers (T : CodeTable α) (cs : List α) : Prop := ∀ a ∈ cs, (T.bytes a).isSome

instance (cs : List α) : Decidable (T.Covers cs) := inferInstanceAs (Decidable (∀ a ∈ cs, _))

/-- The bytes are made of the sequences that the table writes. -/
def Canonical (T : CodeTable α) (bs : List UInt8) : Prop := ∃ cs, T.Covers cs ∧ T.substitute cs = bs

theorem covers_cons : T.Covers (a :: cs) ↔ (T.bytes a).isSome ∧ T.Covers cs := forall_mem_cons

theorem reads_substitute (h : T.Covers cs) : T.Reads (T.substitute cs) cs := by
  induction cs with
  | nil => exact .nil
  | cons a cs ih =>
    obtain ⟨ha, hcs⟩ := covers_cons.1 h
    obtain ⟨s, hs⟩ := isSome_iff_exists.1 ha
    have hw : T.write a = s := by rw [write, hs, getD_some]
    rw [substitute, flatMap_cons, hw]
    exact .cons (T.char_bytes hs) (ih hcs)

/-- A character whose written form reads as itself has a sequence. -/
theorem isSome_of_char_write (h : T.char (T.write a) = some a) : (T.bytes a).isSome := by
  cases hb : T.bytes a with
  | some s => rfl
  | none =>
    obtain ⟨c, hc, hf⟩ := T.char_fallback
    rw [write, hb, getD_none, hc, some.injEq] at h
    rw [← h, hf] at hb
    cases hb

theorem exists_char_write (a : α) : ∃ c, T.char (T.write a) = some c := by
  cases hb : T.bytes a with
  | some s => exact ⟨a, by rw [write, hb, getD_some, T.char_bytes hb]⟩
  | none =>
    obtain ⟨c, hc, -⟩ := T.char_fallback
    exact ⟨c, by rw [write, hb, getD_none, hc]⟩

theorem exists_reads_substitute (cs : List α) : ∃ ds, T.Reads (T.substitute cs) ds := by
  induction cs with
  | nil => exact ⟨[], .nil⟩
  | cons a cs ih =>
    obtain ⟨ds, hr⟩ := ih
    obtain ⟨c, hc⟩ := exists_char_write (T := T) a
    exact ⟨c :: ds, .cons hc hr⟩

/-- What reads as itself after substitution is covered. -/
theorem covers_of_reads (h : T.Reads (T.substitute cs) cs) : T.Covers cs := by
  induction cs with
  | nil => exact fun a ha => absurd ha not_mem_nil
  | cons a cs ih =>
    obtain ⟨c, hc⟩ := exists_char_write (T := T) a
    obtain ⟨ds, hds⟩ := exists_reads_substitute (T := T) cs
    have he := reads_unique h (.cons hc hds)
    obtain ⟨rfl, rfl⟩ := cons.inj he
    exact covers_cons.2 ⟨isSome_of_char_write hc, ih hds⟩

/-- Writing what was read gives the bytes back exactly when they are canonical. -/
theorem substitute_eq_iff (h : T.Reads bs cs) : T.substitute cs = bs ↔ T.Canonical bs := by
  constructor
  · intro he
    exact ⟨cs, covers_of_reads (he ▸ h), he⟩
  · rintro ⟨ds, hd, rfl⟩
    rw [reads_unique h (reads_substitute hd)]

theorem covers_of_canonical (h : T.Reads bs cs) (hc : T.Canonical bs) : T.Covers cs := by
  obtain ⟨ds, hd, rfl⟩ := hc
  rw [reads_unique h (reads_substitute hd)]
  exact hd

/-! ### The reader -/

/-- The first character and the length of its sequence. -/
def front (T : CodeTable α) (bs : List UInt8) : Option (α × Nat) :=
  (List.range (T.maxLength + 1)).findSome? fun k => (T.char (bs.take k)).map fun a => (a, k)

/-- Reads at most `n` characters. -/
def readN (T : CodeTable α) : Nat → List UInt8 → Option (List α)
  | _, [] => some []
  | 0, _ :: _ => none
  | n + 1, b :: bs =>
    match T.front (b :: bs) with
    | none => none
    | some (a, k) => (readN T n ((b :: bs).drop k)).map (a :: ·)

/-- The characters of the bytes. -/
def read (T : CodeTable α) (bs : List UInt8) : Option (List α) := T.readN bs.length bs

theorem front_sound {k : Nat} (h : T.front bs = some (a, k)) : T.char (bs.take k) = some a := by
  obtain ⟨j, -, hj⟩ := exists_of_findSome?_eq_some h
  obtain ⟨c, hc, he⟩ := map_eq_some_iff.1 hj
  obtain ⟨rfl, rfl⟩ := Prod.mk.inj he
  exact hc

theorem front_append (h : T.char s = some a) (bs : List UInt8) :
    ∃ k, T.front (s ++ bs) = some (a, k) ∧ (s ++ bs).drop k = bs := by
  have hmem : s.length ∈ range (T.maxLength + 1) :=
    mem_range.2 (Nat.lt_succ_of_le (T.length_le h))
  have htake : (s ++ bs).take s.length = s := take_left
  cases hf : T.front (s ++ bs) with
  | none =>
    have := findSome?_eq_none_iff.1 hf _ hmem
    rw [htake, h] at this
    cases this
  | some ck =>
    obtain ⟨c, k⟩ := ck
    have hc := front_sound hf
    have hs : s = (s ++ bs).take k :=
      front_unique h hc (by rw [take_append_drop])
    have hca : c = a := by
      rw [← hs, h] at hc
      exact (some.inj hc).symm
    have hd : (s ++ bs).drop k = bs := by
      have happ := take_append_drop k (s ++ bs)
      rw [← hs] at happ
      exact append_cancel_left happ
    exact ⟨k, by rw [hca], hd⟩

theorem reads_of_readN {n : Nat} (h : T.readN n bs = some cs) : T.Reads bs cs := by
  induction n generalizing bs cs with
  | zero =>
    cases bs with
    | nil => cases h; exact .nil
    | cons b bs => cases h
  | succ n ih =>
    cases bs with
    | nil => cases h; exact .nil
    | cons b bs =>
      rw [readN] at h
      cases hf : T.front (b :: bs) with
      | none => rw [hf] at h; cases h
      | some ak =>
        obtain ⟨a, k⟩ := ak
        rw [hf] at h
        obtain ⟨ds, hd, rfl⟩ := map_eq_some_iff.1 h
        have hr := Reads.cons (front_sound hf) (ih hd)
        rwa [take_append_drop] at hr

theorem readN_of_reads {n : Nat} (h : T.Reads bs cs) (hn : bs.length ≤ n) :
    T.readN n bs = some cs := by
  induction h generalizing n with
  | nil => cases n <;> rfl
  | @cons s a bs cs hs _ ih =>
    have hp := T.length_pos hs
    rw [length_append] at hn
    cases n with
    | zero => omega
    | succ n =>
      obtain ⟨k, hf, hd⟩ := front_append hs bs
      have hr := ih (n := n) (by omega)
      cases hsb : s ++ bs with
      | nil => rw [(append_eq_nil_iff.1 hsb).1] at hp; cases hp
      | cons x xs =>
        rw [hsb] at hf hd
        rw [readN, hf]
        simp only [hd, hr, map_some]

theorem read_iff : T.read bs = some cs ↔ T.Reads bs cs :=
  ⟨reads_of_readN, fun h => readN_of_reads h (Nat.le_refl _)⟩

end CodeTable
