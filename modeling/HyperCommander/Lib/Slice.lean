import Mathlib.Algebra.Order.Ring.Int
import Mathlib.Data.List.Basic
import Mathlib.Data.List.TakeDrop

/-!
# Half-open slices of lists

`slice l a b` holds the elements of `l` from position `a` up to `b`.
-/

namespace Slice

open List

variable {α β : Type*} {l : List α} {a b c i : Nat}

/-- The elements of `l` at the positions `a ≤ i < b`. -/
def slice (l : List α) (a b : Nat) : List α := (l.drop a).take (b - a)

@[simp] theorem slice_self (l : List α) (a : Nat) : slice l a a = [] := by simp [slice]

theorem slice_full (l : List α) : slice l 0 l.length = l := by simp [slice]

theorem slice_to_length (l : List α) (a : Nat) : slice l a l.length = l.drop a := by
  simp [slice]

theorem slice_zero (l : List α) (b : Nat) : slice l 0 b = l.take b := by simp [slice]

theorem length_slice (hb : b ≤ l.length) : (slice l a b).length = b - a := by
  simp only [slice, length_take, length_drop]; omega

theorem getElem?_slice (h : i < b - a) : (slice l a b)[i]? = l[a + i]? := by
  simp [slice, h]

theorem getElem?_slice_of_le (h : b - a ≤ i) : (slice l a b)[i]? = none := by
  rw [getElem?_eq_none]
  simp only [slice, length_take]; omega

theorem slice_append (hab : a ≤ b) (hbc : b ≤ c) : slice l a b ++ slice l b c = slice l a c := by
  unfold slice
  rw [show c - a = (b - a) + (c - b) by omega, take_add, drop_drop,
    show a + (b - a) = b by omega]

theorem slice_succ {x : α} (hab : a ≤ b) (h : l[b]? = some x) :
    slice l a (b + 1) = slice l a b ++ [x] := by
  have h1 : slice l b (b + 1) = [x] := by
    unfold slice
    rw [Nat.add_sub_cancel_left, take_one, head?_drop, h]; rfl
  rw [← slice_append hab (Nat.le_succ b), h1]

theorem slice_cons {x : α} (hab : a < b) (h : l[a]? = some x) :
    slice l a b = x :: slice l (a + 1) b := by
  have h1 := slice_succ (Nat.le_refl a) h
  rw [slice_self, nil_append] at h1
  rw [← slice_append (Nat.le_succ a) hab, Nat.succ_eq_add_one, h1]; rfl

/-- Prefixes and suffixes of a slice are slices. -/
theorem take_slice (h : i ≤ b - a) : (slice l a b).take i = slice l a (a + i) := by
  unfold slice
  rw [take_take, Nat.min_eq_left h, Nat.add_sub_cancel_left]

theorem drop_slice : (slice l a b).drop i = slice l (a + i) b := by
  unfold slice
  rw [drop_take, drop_drop, show b - a - i = b - (a + i) by omega]

/-- A range of a range. -/
theorem slice_slice {d : Nat} (hd : a + d ≤ b) :
    slice (slice l a b) c d = slice l (a + c) (a + d) := by
  unfold slice
  rw [drop_take, take_take, drop_drop]
  congr 1
  omega

theorem mem_slice {x : α} : x ∈ slice l a b ↔ ∃ i, a ≤ i ∧ i < b ∧ l[i]? = some x := by
  rw [mem_iff_getElem?]
  constructor
  · rintro ⟨i, hi⟩
    rcases Nat.lt_or_ge i (b - a) with h | h
    · rw [getElem?_slice h] at hi
      exact ⟨a + i, by omega, by omega, hi⟩
    · rw [getElem?_slice_of_le h] at hi
      cases hi
  · rintro ⟨i, h1, h2, h3⟩
    refine ⟨i - a, ?_⟩
    rw [getElem?_slice (by omega), show a + (i - a) = i by omega, h3]

/-! ## Replacing a range -/

/-- The list with the `removed` elements from position `a` replaced by `new`. -/
def splice (l : List α) (a removed : Nat) (new : List α) : List α :=
  l.take a ++ new ++ l.drop (a + removed)

variable {d : Nat} {s : List α}

theorem length_splice (h : a + d ≤ l.length) :
    (splice l a d s).length = l.length - d + s.length := by
  simp only [splice, length_append, length_take, length_drop]; omega

theorem getElem?_splice_before (h : i < a) (ha : a ≤ l.length) :
    (splice l a d s)[i]? = l[i]? := by
  rw [splice, append_assoc, getElem?_append_left (by rw [length_take]; omega),
    getElem?_take_of_lt h]

theorem getElem?_splice_after (h : a + d ≤ i) (ha : a ≤ l.length) :
    (splice l a d s)[i - d + s.length]? = l[i]? := by
  rw [splice, getElem?_append_right (by simp only [length_append, length_take]; omega),
    getElem?_drop]
  congr 1
  simp only [length_append, length_take]
  omega

theorem getElem?_splice_inside (h : i < s.length) (ha : a ≤ l.length) :
    (splice l a d s)[a + i]? = s[i]? := by
  rw [splice, append_assoc, getElem?_append_right (by rw [length_take]; omega),
    length_take, Nat.min_eq_left ha, Nat.add_sub_cancel_left, getElem?_append_left h]

/-- Ranges before the replaced one keep their elements. -/
theorem slice_splice_before (hc : c ≤ a) (ha : a ≤ l.length) :
    slice (splice l a d s) b c = slice l b c := by
  apply ext_getElem?
  intro i
  rcases Nat.lt_or_ge i (c - b) with h | h
  · rw [getElem?_slice h, getElem?_slice h, getElem?_splice_before (by omega) ha]
  · rw [getElem?_slice_of_le h, getElem?_slice_of_le h]

/-- Ranges behind the replaced one move with their elements. -/
theorem slice_splice_after (hb : a + d ≤ b) (ha : a ≤ l.length) :
    slice (splice l a d s) (b - d + s.length) (c - d + s.length) =
      slice l b c := by
  apply ext_getElem?
  intro i
  rcases Nat.lt_or_ge i (c - b) with h | h
  · rw [getElem?_slice (by omega), getElem?_slice h, show b - d + s.length + i =
      (b + i) - d + s.length by omega, getElem?_splice_after (by omega) ha]
  · rw [getElem?_slice_of_le (by omega), getElem?_slice_of_le h]

/-- The s range holds the s elements. -/
theorem slice_splice_self (ha : a ≤ l.length) :
    slice (splice l a d s) a (a + s.length) = s := by
  rw [slice, splice, append_assoc, drop_append_of_le_length (by rw [length_take]; omega),
    drop_of_length_le (by rw [length_take]; omega), nil_append,
    Nat.add_sub_cancel_left, take_left]

/-- A range replaced by its own elements. -/
theorem splice_slice (hab : a ≤ b) : splice l a (b - a) (slice l a b) = l := by
  have hback : (l.drop a).take (b - a) ++ l.drop b = l.drop a := by
    rw [show b = a + (b - a) by omega, ← drop_drop, show a + (b - a) - a = b - a by omega,
      take_append_drop]
  rw [splice, slice, append_assoc, show a + (b - a) = b by omega, hback, take_append_drop]

/-- A range with a replacement inside holds its old elements with the replacement made in them. -/
theorem slice_splice_around {p : Nat} (ha : a ≤ p) (hb : p + d ≤ b) (hl : b ≤ l.length) :
    slice (splice l p d s) a (b - d + s.length) = splice (slice l a b) (p - a) d s := by
  have hlen : (splice (slice l a b) (p - a) d s).length = b - d + s.length - a := by
    rw [length_splice (by rw [length_slice hl]; omega), length_slice hl]
    omega
  apply ext_getElem?
  intro k
  rcases Nat.lt_or_ge k (b - d + s.length - a) with hk | hk
  · rw [getElem?_slice hk]
    rcases Nat.lt_or_ge (a + k) p with h1 | h1
    · rw [getElem?_splice_before h1 (by omega), getElem?_splice_before (by omega)
        (by rw [length_slice hl]; omega), getElem?_slice (by omega)]
    · rcases Nat.lt_or_ge (a + k) (p + s.length) with h2 | h2
      · rw [show a + k = p + (a + k - p) by omega,
          getElem?_splice_inside (by omega) (by omega),
          show k = p - a + (a + k - p) by omega,
          getElem?_splice_inside (by omega) (by rw [length_slice hl]; omega)]
        congr 1
        omega
      · have hout := getElem?_splice_after (l := l) (a := p) (d := d) (s := s)
          (i := a + k - s.length + d) (by omega) (by omega)
        have hin := getElem?_splice_after (l := slice l a b) (a := p - a) (d := d) (s := s)
          (i := k - s.length + d) (by omega) (by rw [length_slice hl]; omega)
        rw [show a + k - s.length + d - d + s.length = a + k by omega] at hout
        rw [show k - s.length + d - d + s.length = k by omega] at hin
        rw [hout, hin, getElem?_slice (by omega)]
        congr 1
        omega
  · rw [getElem?_slice_of_le hk, getElem?_eq_none (by rw [hlen]; exact hk)]

/-- A replacement within a replacement. -/
theorem splice_splice {m t : List α} {e : Nat} (ha : a ≤ l.length) (h : b + c ≤ m.length) :
    splice l a e (splice m b c t) = splice (splice l a e m) (a + b) c t := by
  have htake : (l.take a ++ m ++ l.drop (a + e)).take (a + b) = l.take a ++ m.take b := by
    rw [append_assoc, take_append, length_take, Nat.min_eq_left ha,
      Nat.add_sub_cancel_left, take_append_of_le_length (by omega), take_take,
      Nat.min_eq_right (by omega)]
  have hdrop : (l.take a ++ m ++ l.drop (a + e)).drop (a + b + c) =
      m.drop (b + c) ++ l.drop (a + e) := by
    rw [append_assoc, drop_append, length_take, Nat.min_eq_left ha,
      drop_of_length_le (by rw [length_take]; omega), nil_append,
      show a + b + c - a = b + c by omega, drop_append_of_le_length h]
  unfold splice
  rw [htake, hdrop]
  simp only [append_assoc]

end Slice
