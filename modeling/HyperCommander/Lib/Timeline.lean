import Mathlib.Algebra.Order.Ring.Int
import Mathlib.Data.List.Basic

/-!
# Undo histories that keep both ends of every change

A timeline is the list of the changes of a state, each with the state before and after it, and the
number of changes that are in effect. It is `Chained` to the current state when every change begins
where the one before it ended, and the state lies between the change at the position and its
predecessor.

* `Chained.push`, `Chained.dropFirst`, `Chained.back`, `Chained.forth`: what keeps the chain.
* `forth_back`, `back_forth`: going back and forth are inverse to each other; `iterate_forth_back`
  and `iterate_back_forth` say so of several steps.
-/

/-- The changes of a state, the oldest first, and how many of them are in effect. -/
structure Timeline (σ : Type*) where
  changes : List (σ × σ) := []
  position : Nat := 0
deriving DecidableEq, Repr

namespace Timeline

open List

variable {σ : Type*}

/-- A new change, in place of the changes that are not in effect. -/
def push (h : Timeline σ) (change : σ × σ) : Timeline σ :=
  ⟨h.changes.take h.position ++ [change], h.position + 1⟩

/-- The oldest change is forgotten. -/
def dropFirst (h : Timeline σ) : Timeline σ := ⟨h.changes.tail, h.position - 1⟩

/-- One change is taken back. -/
def back (p : Timeline σ × σ) : Timeline σ × σ :=
  match p.1.position with
  | 0 => p
  | i + 1 =>
    match p.1.changes[i]? with
    | some change => ({ p.1 with position := i }, change.1)
    | none => p

/-- One change that was taken back is made again. -/
def forth (p : Timeline σ × σ) : Timeline σ × σ :=
  match p.1.changes[p.1.position]? with
  | some change => ({ p.1 with position := p.1.position + 1 }, change.2)
  | none => p

/-- The timeline leads to the state, and on from it. -/
structure Chained (h : Timeline σ) (now : σ) : Prop where
  position_le : h.position ≤ h.changes.length
  joined : ∀ i a b, h.changes[i]? = some a → h.changes[i + 1]? = some b → a.2 = b.1
  past : ∀ i a, h.position = i + 1 → h.changes[i]? = some a → a.2 = now
  future : ∀ a, h.changes[h.position]? = some a → a.1 = now

theorem Chained.empty (now : σ) : Chained {} now := ⟨Nat.le_refl _, by simp, by simp, by simp⟩

variable {h : Timeline σ} {now next : σ}

theorem length_push (hc : h.position ≤ h.changes.length) (change : σ × σ) :
    (h.push change).changes.length = (h.push change).position := by
  simp [push, hc]

theorem Chained.push (hc : Chained h now) (next : σ) : Chained (h.push (now, next)) next := by
  have hlen : (h.changes.take h.position).length = h.position := by simp [hc.position_le]
  have hget : ∀ i, (h.push (now, next)).changes[i]? =
      if i < h.position then h.changes[i]?
      else if i = h.position then some (now, next) else none := by
    intro i
    simp only [Timeline.push]
    rcases Nat.lt_trichotomy i h.position with hi | hi | hi
    · rw [getElem?_append_left (by omega), if_pos hi, getElem?_take_of_lt hi]
    · subst hi
      rw [getElem?_append_right (by omega), hlen]
      simp
    · rw [getElem?_append_right (by omega), if_neg (by omega), if_neg (by omega), hlen]
      exact getElem?_eq_none (by simp; omega)
  refine ⟨Nat.le_of_eq (length_push hc.position_le _).symm, fun i a b ha hb => ?_,
    fun i a hp ha => ?_,
    fun a ha => ?_⟩
  · rw [hget] at ha hb
    by_cases hi : i + 1 < h.position
    · rw [if_pos (by omega)] at ha
      rw [if_pos hi] at hb
      exact hc.joined i a b ha hb
    · by_cases hi' : i + 1 = h.position
      · rw [if_pos (by omega)] at ha
        rw [if_neg hi, if_pos hi', Option.some.injEq] at hb
        rw [hc.past i a hi'.symm ha, ← hb]
      · rw [if_neg hi, if_neg hi'] at hb
        cases hb
  · have hi : i = h.position := by simp only [Timeline.push] at hp; omega
    rw [hget, if_neg (by omega), if_pos hi, Option.some.injEq] at ha
    rw [← ha]
  · rw [hget, if_neg (by simp [Timeline.push]), if_neg (by simp [Timeline.push])] at ha
    cases ha

theorem Chained.dropFirst (hc : Chained h now) (hp : 0 < h.position) :
    Chained h.dropFirst now := by
  have hget : ∀ i, h.dropFirst.changes[i]? = h.changes[i + 1]? := by
    intro i
    simp [Timeline.dropFirst]
  have hpos : h.dropFirst.position = h.position - 1 := rfl
  refine ⟨?_, fun i a b ha hb => ?_, fun i a hi ha => ?_, fun a ha => ?_⟩
  · have := hc.position_le
    simp only [Timeline.dropFirst, length_tail]
    omega
  · rw [hget] at ha hb
    exact hc.joined (i + 1) a b ha hb
  · rw [hget] at ha
    exact hc.past (i + 1) a (by omega) ha
  · rw [hget, hpos, Nat.sub_add_cancel hp] at ha
    exact hc.future a ha

theorem Chained.back (hc : Chained h now) : Chained (back (h, now)).1 (back (h, now)).2 := by
  unfold Timeline.back
  rcases hp : h.position with _ | i
  · simpa [hp] using hc
  · rcases ha : h.changes[i]? with _ | change
    · simpa [hp, ha] using hc
    · simp only [ha]
      refine ⟨?_, hc.joined, fun j a hj haj => ?_, fun a haj => ?_⟩
      · have := hc.position_le
        simp only
        omega
      · simp only at hj haj
        subst hj
        exact hc.joined j a change haj ha
      · simp only [ha, Option.some.injEq] at haj
        rw [haj]

theorem Chained.forth (hc : Chained h now) : Chained (forth (h, now)).1 (forth (h, now)).2 := by
  unfold Timeline.forth
  simp only
  rcases ha : h.changes[h.position]? with _ | change
  · exact hc
  · refine ⟨?_, hc.joined, fun j a hj haj => ?_, fun a haj => ?_⟩
    · have := (List.getElem?_eq_some_iff.1 ha).1
      simp only
      omega
    · obtain rfl : j = h.position := by simp only at hj; omega
      rw [ha, Option.some.injEq] at haj
      rw [haj]
    · exact (hc.joined h.position change a ha haj).symm

/-- Making again what was taken back. -/
theorem forth_back (hc : Chained h now) (hp : 0 < h.position) :
    forth (back (h, now)) = (h, now) := by
  obtain ⟨i, hi⟩ : ∃ i, h.position = i + 1 := ⟨h.position - 1, by omega⟩
  have hlt : i < h.changes.length := by have := hc.position_le; omega
  obtain ⟨change, ha⟩ : ∃ change, h.changes[i]? = some change :=
    ⟨_, getElem?_eq_getElem hlt⟩
  have hb : back (h, now) = ({ h with position := i }, change.1) := by
    simp [back, hi, ha]
  rw [hb]
  simp only [forth, ha, hc.past i change hi ha, ← hi]

/-- Taking back what was made again. -/
theorem back_forth (hc : Chained h now) (hp : h.position < h.changes.length) :
    back (forth (h, now)) = (h, now) := by
  obtain ⟨change, ha⟩ : ∃ change, h.changes[h.position]? = some change :=
    ⟨_, getElem?_eq_getElem hp⟩
  have hf : forth (h, now) = ({ h with position := h.position + 1 }, change.2) := by
    simp [forth, ha]
  rw [hf]
  simp [back, ha, hc.future change ha]

theorem Chained.iterate_back (hc : Chained h now) (k : Nat) :
    Chained (Timeline.back^[k] (h, now)).1 (Timeline.back^[k] (h, now)).2 := by
  induction k with
  | zero => exact hc
  | succ k ih =>
    rw [Function.iterate_succ_apply']
    exact ih.back

theorem Chained.iterate_forth (hc : Chained h now) (k : Nat) :
    Chained (Timeline.forth^[k] (h, now)).1 (Timeline.forth^[k] (h, now)).2 := by
  induction k with
  | zero => exact hc
  | succ k ih =>
    rw [Function.iterate_succ_apply']
    exact ih.forth

variable (now) in
theorem position_back (hc : h.position ≤ h.changes.length) :
    (back (h, now)).1.position = h.position - 1 := by
  unfold back
  rcases hp : h.position with _ | i
  · simp [hp]
  · have ha : h.changes[i]? = some h.changes[i] := getElem?_eq_getElem (by omega)
    simp [ha]

theorem position_iterate_back (hc : Chained h now) (k : Nat) :
    (back^[k] (h, now)).1.position = h.position - k := by
  induction k with
  | zero => rfl
  | succ k ih =>
    rw [Function.iterate_succ_apply']
    have := position_back (back^[k] (h, now)).2 (hc.iterate_back k).position_le
    rw [this, ih]
    omega

/-- As many changes made again as were taken back. -/
theorem iterate_forth_back (hc : Chained h now) {k : Nat} (hk : k ≤ h.position) :
    forth^[k] (back^[k] (h, now)) = (h, now) := by
  induction k with
  | zero => rfl
  | succ k ih =>
    rw [Function.iterate_succ_apply' back, Function.iterate_succ_apply forth]
    have hpos := position_iterate_back hc k
    rw [forth_back (hc.iterate_back k) (by omega)]
    exact ih (by omega)

theorem changes_forth : (forth (h, now)).1.changes = h.changes := by
  unfold forth
  split <;> rfl

theorem changes_iterate_forth (k : Nat) : (forth^[k] (h, now)).1.changes = h.changes := by
  induction k with
  | zero => rfl
  | succ k ih => rw [Function.iterate_succ_apply', changes_forth, ih]

theorem position_forth (hp : h.position < h.changes.length) :
    (forth (h, now)).1.position = h.position + 1 := by
  have ha : h.changes[h.position]? = some h.changes[h.position] := getElem?_eq_getElem hp
  simp [forth, ha]

variable (now) in
theorem position_iterate_forth (k : Nat) (hk : h.position + k ≤ h.changes.length) :
    (forth^[k] (h, now)).1.position = h.position + k := by
  induction k with
  | zero => rfl
  | succ k ih =>
    have ih := ih (by omega)
    rw [Function.iterate_succ_apply', position_forth, ih]
    · omega
    · rw [changes_iterate_forth, ih]
      omega

/-- As many changes taken back as were made again. -/
theorem iterate_back_forth (hc : Chained h now) {k : Nat} (hk : h.position + k ≤ h.changes.length) :
    back^[k] (forth^[k] (h, now)) = (h, now) := by
  induction k with
  | zero => rfl
  | succ k ih =>
    rw [Function.iterate_succ_apply' forth, Function.iterate_succ_apply back]
    have hpos := position_iterate_forth now k (by omega : h.position + k ≤ _)
    rw [back_forth (hc.iterate_forth k) (by rw [changes_iterate_forth, hpos]; omega)]
    exact ih (by omega)

end Timeline
