import Mathlib.Algebra.Order.Ring.Int
import Mathlib.Data.List.Forall2

/-!
# Masks with a joker for one letter and a star for any run

`Fits takes` reads a mask against a word; what a star may take from the word in front of it is the
parameter `takes`. `Reads` lets a star take any run. In `Steady` a star that stands before a letter
equal to the star takes this letter and nothing else: the reading of a search that tries equality
first.

* `Steady.reads`, `Reads.steady`: steady readings are readings, and on a word without stars all
  readings are steady.
* `Locked.steady_iff`: letters matched one by one are matched so by every steady reading.
* `Locked.exists_suffix`: a reading that begins later ends later, so the last star suffices for a
  search.
-/

namespace Wildcard

open List

variable {α : Type*} {joker star : α} {takes : List α → List α → Prop}
  {mask a b xs ys : List α} {m x : α}

/-- The mask fits the word when every star takes a part that `takes` allows in front of the rest. -/
inductive Fits (joker star : α) (takes : List α → List α → Prop) : List α → List α → Prop
  | nil : Fits joker star takes [] []
  | letter {m x : α} {mask xs : List α} (hm : m ≠ star) (h : m = joker ∨ m = x)
      (rest : Fits joker star takes mask xs) : Fits joker star takes (m :: mask) (x :: xs)
  | run (part : List α) {mask xs : List α} (h : takes part (part ++ xs))
      (rest : Fits joker star takes mask xs) : Fits joker star takes (star :: mask) (part ++ xs)

/-- A star takes any run. -/
def Reads (joker star : α) : List α → List α → Prop := Fits joker star fun _ _ => True

/-- A star before a letter equal to it takes this one letter, before any other it takes any run. -/
def Steady (joker star : α) : List α → List α → Prop :=
  Fits joker star fun part xs => xs.head? = some star → part = [star]

theorem Fits.mono {takes' : List α → List α → Prop} (h : Fits joker star takes mask xs)
    (ht : ∀ part xs, takes part xs → takes' part xs) : Fits joker star takes' mask xs := by
  induction h with
  | nil => exact .nil
  | letter hm h _ ih => exact .letter hm h ih
  | run part h _ ih => exact .run part (ht _ _ h) ih

theorem Steady.reads (h : Steady joker star mask xs) : Reads joker star mask xs :=
  h.mono fun _ _ _ => trivial

/-- A word without stars spoils no reading. -/
theorem Reads.steady (h : Reads joker star mask xs) (hx : star ∉ xs) :
    Steady joker star mask xs := by
  induction h with
  | nil => exact .nil
  | letter hm h _ ih => exact .letter hm h (ih fun hs => hx (mem_cons_of_mem _ hs))
  | run part _ _ ih =>
    refine .run part (fun hs => absurd (mem_of_mem_head? hs) hx) (ih fun hs => hx ?_)
    exact mem_append_right part hs

theorem fits_nil : Fits joker star takes [] xs ↔ xs = [] := by
  constructor
  · rintro ⟨⟩
    rfl
  · rintro rfl
    exact .nil

theorem fits_letter (hm : m ≠ star) :
    Fits joker star takes (m :: mask) xs ↔
      ∃ x ys, xs = x :: ys ∧ (m = joker ∨ m = x) ∧ Fits joker star takes mask ys := by
  constructor
  · intro h
    cases h with
    | letter _ h rest => exact ⟨_, _, rfl, h, rest⟩
    | run => exact absurd rfl hm
  · rintro ⟨x, ys, rfl, h, rest⟩
    exact .letter hm h rest

theorem fits_star :
    Fits joker star takes (star :: mask) xs ↔
      ∃ part ys, xs = part ++ ys ∧ takes part xs ∧ Fits joker star takes mask ys := by
  constructor
  · intro h
    cases h with
    | letter hm => exact absurd rfl hm
    | run part h rest => exact ⟨part, _, rfl, h, rest⟩
  · rintro ⟨part, ys, rfl, h, rest⟩
    exact .run part h rest

/-- At the end of the word only stars may be left. -/
theorem steady_nil : Steady joker star mask [] ↔ ∀ m ∈ mask, m = star := by
  induction mask with
  | nil => simp [Steady, fits_nil]
  | cons m mask ih =>
    by_cases hm : m = star
    · subst hm
      rw [Steady, fits_star, forall_mem_cons, ← ih]
      constructor
      · rintro ⟨part, ys, he, -, h⟩
        obtain ⟨rfl, rfl⟩ := append_eq_nil_iff.1 he.symm
        exact ⟨rfl, h⟩
      · rintro ⟨-, h⟩
        exact ⟨[], [], rfl, by simp, h⟩
    · rw [Steady, fits_letter hm, forall_mem_cons]
      simp [hm]

/-- A star before a letter that is not a star may take any run. -/
theorem steady_star (hx : xs.head? ≠ some star) :
    Steady joker star (star :: mask) xs ↔ ∃ ys, ys <:+ xs ∧ Steady joker star mask ys := by
  rw [Steady, fits_star]
  constructor
  · rintro ⟨part, ys, rfl, -, h⟩
    exact ⟨ys, ⟨part, rfl⟩, h⟩
  · rintro ⟨ys, ⟨part, rfl⟩, h⟩
    exact ⟨part, ys, rfl, fun hs => absurd hs hx, h⟩

/-- Letters of the mask matched with letters of the word one by one: a star stands only before a
star. -/
def Locked (joker : α) : List α → List α → Prop := List.Forall₂ fun m x => m = joker ∨ m = x

theorem Locked.nil : Locked joker [] ([] : List α) := List.Forall₂.nil

theorem Locked.concat (h : Locked joker a b) (hm : m = joker ∨ m = x) :
    Locked joker (a ++ [m]) (b ++ [x]) :=
  rel_append h (.cons hm .nil)

/-- What is matched one by one is matched so by every steady reading. -/
theorem Locked.steady_iff (hj : joker ≠ star) (h : Locked joker a b) :
    Steady joker star (a ++ mask) (b ++ xs) ↔ Steady joker star mask xs := by
  induction h with
  | nil => rfl
  | @cons m x a b hm _ ih =>
    rw [cons_append, cons_append, ← ih]
    by_cases hs : m = star
    · subst hs
      obtain rfl : m = x := hm.resolve_left hj.symm
      rw [Steady, fits_star]
      constructor
      · rintro ⟨part, ys, he, hp, h⟩
        obtain rfl := hp rfl
        obtain ⟨-, rfl⟩ := cons.inj he
        exact h
      · intro h
        exact ⟨[m], _, rfl, fun _ => rfl, h⟩
    · rw [Steady, fits_letter hs]
      constructor
      · rintro ⟨y, ys, he, -, h⟩
        obtain ⟨-, rfl⟩ := cons.inj he
        exact h
      · intro h
        exact ⟨x, _, rfl, hm, h⟩

/-- A reading from a later place leaves the matched part of the mask at a later place. -/
theorem Locked.exists_suffix (hj : joker ≠ star) (h : Locked joker a b) (hy : ys <:+ b ++ xs)
    (hs : Steady joker star (a ++ mask) ys) : ∃ zs, zs <:+ xs ∧ Steady joker star mask zs := by
  induction h generalizing ys with
  | nil => exact ⟨ys, hy, hs⟩
  | @cons m x a b hm hab ih =>
    rcases suffix_cons_iff.1 hy with rfl | hy
    · -- both stand at the front of the matched part
      have hl : Locked joker (m :: a) (x :: b) := .cons hm hab
      exact ⟨xs, suffix_rfl, (hl.steady_iff hj).1 hs⟩
    by_cases hm : m = star
    · subst hm
      obtain ⟨part, zs, rfl, -, hz⟩ := fits_star.1 hs
      exact ih ((suffix_append part zs).trans hy) hz
    · obtain ⟨y, zs, rfl, -, hz⟩ := (fits_letter hm).1 hs
      exact ih ((suffix_cons y zs).trans hy) hz

end Wildcard
