import Mathlib.Algebra.Order.Ring.Int
import Mathlib.Data.List.Forall2

/-!
# Patterns of single letters and gaps

A pattern is a list of tokens: each takes one letter that passes a test, or any number of such
letters. `Splits` says that a word can be cut into one part for each token.

* `splits_append`, `splits_singleton`: a pattern is read token by token, from either end.
* `Row`: the row of a table over the prefixes of a pattern, built up by `Row.cons`.
* `splits_runs`: letters between gaps are runs that stand one after the other; `strewn_cons`: it is
  enough to place the first of them at its leftmost place.
-/

namespace Glob

open List

variable {α β : Type}

/-- A token of a pattern. -/
inductive Tok (α : Type)
  | one (p : α → Prop)
  | many (p : α → Prop)

/-- What a token takes from a word. -/
def Tok.Takes : Tok α → List α → Prop
  | one p, part => ∃ x, part = [x] ∧ p x
  | many p, part => ∀ x ∈ part, p x

/-- The word is cut into one part for each token. -/
def Splits (ts : List (Tok α)) (xs : List α) : Prop :=
  ∃ parts : List (List α), parts.flatten = xs ∧ List.Forall₂ Tok.Takes ts parts

section Splits

variable {t : Tok α} {s ts : List (Tok α)} {p : α → Prop} {x : α} {xs : List α}

@[simp] theorem splits_nil : Splits [] xs ↔ xs = [] := by
  constructor
  · rintro ⟨parts, rfl, h⟩
    rw [forall₂_nil_left_iff.1 h]
    rfl
  · rintro rfl
    exact ⟨[], rfl, .nil⟩

theorem splits_cons : Splits (t :: ts) xs ↔ ∃ a b, xs = a ++ b ∧ t.Takes a ∧ Splits ts b := by
  constructor
  · rintro ⟨parts, rfl, h⟩
    obtain ⟨a, rest, ha, hr, rfl⟩ := forall₂_cons_left_iff.1 h
    exact ⟨a, rest.flatten, rfl, ha, rest, rfl, hr⟩
  · rintro ⟨a, _, rfl, ha, parts, rfl, h⟩
    exact ⟨a :: parts, rfl, .cons ha h⟩

theorem splits_append :
    Splits (s ++ ts) xs ↔ ∃ a b, xs = a ++ b ∧ Splits s a ∧ Splits ts b := by
  induction s generalizing xs with
  | nil => simp
  | cons t s ih =>
    rw [cons_append, splits_cons]
    constructor
    · rintro ⟨a, b, rfl, ha, hb⟩
      obtain ⟨b, c, rfl, hb, hc⟩ := ih.1 hb
      exact ⟨a ++ b, c, by rw [append_assoc], splits_cons.2 ⟨a, b, rfl, ha, hb⟩, hc⟩
    · rintro ⟨_, c, rfl, ha, hc⟩
      obtain ⟨a, b, rfl, ha, hb⟩ := splits_cons.1 ha
      exact ⟨a, b ++ c, by rw [append_assoc], ha, ih.2 ⟨b, c, rfl, hb, hc⟩⟩

theorem splits_singleton : Splits [t] xs ↔ t.Takes xs := by
  rw [splits_cons]
  constructor
  · rintro ⟨a, b, rfl, ha, hb⟩
    rwa [splits_nil.1 hb, append_nil]
  · intro h
    exact ⟨xs, [], (append_nil xs).symm, h, splits_nil.2 rfl⟩

/-- Letters alone: the word has one letter for each of them. -/
theorem splits_map_one {q : β → α → Prop} {cs : List β} :
    Splits (cs.map fun c => .one (q c)) xs ↔ List.Forall₂ q cs xs := by
  induction cs generalizing xs with
  | nil => simp
  | cons c cs ih =>
    rw [map_cons, splits_cons, forall₂_cons_left_iff]
    constructor
    · rintro ⟨_, b, rfl, ⟨x, rfl, hx⟩, hb⟩
      exact ⟨x, b, hx, ih.1 hb, rfl⟩
    · rintro ⟨x, b, hx, hb, rfl⟩
      exact ⟨[x], b, rfl, ⟨x, rfl, hx⟩, ih.2 hb⟩

theorem splits_concat_one :
    Splits (ts ++ [.one p]) (xs ++ [x]) ↔ p x ∧ Splits ts xs := by
  simp only [splits_append, splits_singleton]
  constructor
  · rintro ⟨a, _, h, ha, y, rfl, hy⟩
    obtain ⟨rfl, he⟩ := append_inj' h rfl
    cases he
    exact ⟨hy, ha⟩
  · rintro ⟨hx, ha⟩
    exact ⟨xs, [x], rfl, ha, x, rfl, hx⟩

theorem not_splits_concat_one_nil : ¬Splits (ts ++ [.one p]) [] := by
  simp only [splits_append, splits_singleton]
  rintro ⟨a, _, h, -, y, rfl, -⟩
  simp at h

theorem splits_concat_many_nil : Splits (ts ++ [.many p]) [] ↔ Splits ts [] := by
  simp only [splits_append, splits_singleton]
  constructor
  · rintro ⟨a, b, h, ha, -⟩
    obtain ⟨rfl, rfl⟩ := append_eq_nil_iff.1 h.symm
    exact ha
  · intro h
    exact ⟨[], [], rfl, h, fun _ hx => by cases hx⟩

theorem splits_concat_many :
    Splits (ts ++ [.many p]) (xs ++ [x]) ↔
      Splits ts (xs ++ [x]) ∨ p x ∧ Splits (ts ++ [.many p]) xs := by
  simp only [splits_append, splits_singleton]
  constructor
  · rintro ⟨a, b, h, ha, hb⟩
    rcases eq_nil_or_concat b with rfl | ⟨b, y, rfl⟩
    · rw [append_nil] at h
      exact .inl (h ▸ ha)
    · rw [concat_eq_append] at h hb
      rw [← append_assoc] at h
      obtain ⟨rfl, he⟩ := append_inj' h rfl
      cases he
      refine .inr ⟨hb _ (by simp), a, b, rfl, ha, fun z hz => hb z (by simp [hz])⟩
  · rintro (h | ⟨hx, a, b, rfl, ha, hb⟩)
    · exact ⟨xs ++ [x], [], by simp, h, fun _ hz => by cases hz⟩
    · refine ⟨a, b ++ [x], by simp, ha, fun z hz => ?_⟩
      rcases mem_append.1 hz with hz | hz
      · exact hb z hz
      · rwa [mem_singleton.1 hz]

end Splits

/-! ### A table over the prefixes of the pattern -/

/-- The row of a word: for each prefix `s ++ ts.take j` of the pattern, whether it splits the
word. -/
def Row (s ts : List (Tok α)) (xs : List α) (row : List Bool) : Prop :=
  row.length = ts.length + 1 ∧
    ∀ j ≤ ts.length, row[j]? = some true ↔ Splits (s ++ ts.take j) xs

section Row

variable {t : Tok α} {s ts : List (Tok α)} {xs : List α} {b : Bool} {row : List Bool}

theorem row_nil (h : b = true ↔ Splits s xs) : Row s [] xs [b] := by
  refine ⟨rfl, fun j hj => ?_⟩
  obtain rfl : j = 0 := by simpa using hj
  simpa using h

theorem Row.cons (h : b = true ↔ Splits s xs) (hr : Row (s ++ [t]) ts xs row) :
    Row s (t :: ts) xs (b :: row) := by
  refine ⟨by simp [hr.1], fun j hj => ?_⟩
  cases j with
  | zero => simpa using h
  | succ j =>
    rw [getElem?_cons_succ, hr.2 j (by simpa using hj)]
    simp

theorem Row.head (h : Row s ts xs (b :: row)) : b = true ↔ Splits s xs := by
  simpa using h.2 0 (by simp)

theorem Row.tail (h : Row s (t :: ts) xs (b :: row)) : Row (s ++ [t]) ts xs row := by
  refine ⟨by simpa using h.1, fun j hj => ?_⟩
  simpa using h.2 (j + 1) (by simpa using hj)

theorem Row.ne_nil (h : Row s ts xs row) : row ≠ [] := by
  rintro rfl
  cases h.1

/-- The last place of a row answers for the whole pattern. -/
theorem Row.last (h : Row [] ts xs row) : row[ts.length]? = some true ↔ Splits ts xs := by
  simpa using h.2 ts.length (Nat.le_refl _)

end Row

/-! ### Runs between gaps -/

/-- The runs stand in the word one after the other, with any letters around them. -/
def Strewn : List (List α) → List α → Prop
  | [], _ => True
  | r :: rs, xs => ∃ a b, xs = a ++ (r ++ b) ∧ Strewn rs b

section Runs

variable {r : List α} {rs : List (List α)} {xs ys : List α}

theorem Strewn.append_left (h : Strewn rs ys) (xs : List α) : Strewn rs (xs ++ ys) := by
  cases rs with
  | nil => trivial
  | cons r rs =>
    obtain ⟨a, b, rfl, hb⟩ := h
    exact ⟨xs ++ a, b, by rw [append_assoc], hb⟩

/-- A run may be placed at its leftmost place. -/
theorem strewn_cons {a b : List α} (hx : xs = a ++ (r ++ b))
    (hleft : ∀ a' b', xs = a' ++ (r ++ b') → a.length ≤ a'.length) :
    Strewn (r :: rs) xs ↔ Strewn rs b := by
  constructor
  · rintro ⟨a', b', hx', hb⟩
    have hle := hleft a' b' hx'
    -- what follows a later place is an end of what follows the first
    have hsuf : b' <:+ b := by
      refine suffix_of_suffix_length_le (?_ : b' <:+ xs) ?_ ?_
      · rw [hx', ← append_assoc]
        exact suffix_append _ _
      · rw [hx, ← append_assoc]
        exact suffix_append _ _
      · have := congrArg length (hx.symm.trans hx')
        simp only [length_append] at this
        omega
    obtain ⟨c, rfl⟩ := hsuf
    exact hb.append_left c
  · intro hb
    exact ⟨a, b, hx, hb⟩

end Runs

/-- The tokens of runs between gaps. -/
def between (gap : Tok β) (lit : α → Tok β) (inner : List (List α)) : List (Tok β) :=
  gap :: inner.flatMap fun r => r.map lit ++ [gap]

section Between

variable {free : β → Prop} {f : β → α} {inner : List (List α)} {first last : List α} {xs : List β}

theorem forall₂_eq_map {cs : List α} {ys : List β} :
    List.Forall₂ (fun c x => f x = c) cs ys ↔ ys.map f = cs := by
  induction cs generalizing ys with
  | nil => simp
  | cons c cs ih =>
    rw [forall₂_cons_left_iff, map_eq_cons_iff]
    constructor
    · rintro ⟨x, ys, hx, h, rfl⟩
      exact ⟨x, ys, rfl, hx, ih.1 h⟩
    · rintro ⟨x, ys, rfl, hx, h⟩
      exact ⟨x, ys, hx, ih.2 h, rfl⟩

/-- Where the gaps may take every letter of the word, only the order of the runs counts. -/
theorem splits_between (h : ∀ x ∈ xs, free x) :
    Splits (between (.many free) (fun c => .one fun x => f x = c) inner) xs ↔
      Strewn inner (xs.map f) := by
  induction inner generalizing xs with
  | nil => simpa [between, splits_singleton, Strewn, Tok.Takes] using h
  | cons r inner ih =>
    have hcut : between (.many free) (fun c => .one fun x => f x = c) (r :: inner) =
        [.many free] ++ ((r.map fun c => .one fun x => f x = c) ++
          between (.many free) (fun c => .one fun x => f x = c) inner) := by
      simp [between]
    rw [hcut, splits_append]
    constructor
    · rintro ⟨a, _, rfl, -, hb⟩
      obtain ⟨b, c, rfl, hb, hc⟩ := splits_append.1 hb
      rw [splits_map_one, forall₂_eq_map] at hb
      rw [ih fun x hx => h x (by simp [hx])] at hc
      exact ⟨a.map f, c.map f, by simp [hb], hc⟩
    · rintro ⟨_, _, hx, hc⟩
      obtain ⟨a, b, rfl, rfl, hb⟩ := map_eq_append_iff.1 hx
      obtain ⟨b, c, rfl, rfl, rfl⟩ := map_eq_append_iff.1 hb
      refine ⟨a, b ++ c, rfl, ?_, splits_append.2 ⟨b, c, rfl, ?_, ?_⟩⟩
      · exact splits_singleton.2 fun x hx => h x (by simp [hx])
      · rw [splits_map_one, forall₂_eq_map]
      · exact (ih fun x hx => h x (by simp [hx])).2 hc

/-- Runs with a fixed front and a fixed end. -/
theorem splits_runs (h : ∀ x ∈ xs, free x) :
    Splits ((first.map fun c => .one fun x => f x = c) ++
        (between (.many free) (fun c => .one fun x => f x = c) inner ++
          last.map fun c => .one fun x => f x = c)) xs ↔
      ∃ mid, xs.map f = first ++ (mid ++ last) ∧ Strewn inner mid := by
  constructor
  · intro hs
    obtain ⟨a, _, rfl, ha, hs⟩ := splits_append.1 hs
    obtain ⟨b, c, rfl, hb, hc⟩ := splits_append.1 hs
    rw [splits_map_one, forall₂_eq_map] at ha hc
    rw [splits_between fun x hx => h x (by simp [hx])] at hb
    exact ⟨b.map f, by simp [ha, hc], hb⟩
  · rintro ⟨mid, hx, hm⟩
    obtain ⟨a, _, rfl, rfl, hr⟩ := map_eq_append_iff.1 hx
    obtain ⟨b, c, rfl, rfl, rfl⟩ := map_eq_append_iff.1 hr
    refine splits_append.2 ⟨a, b ++ c, rfl, ?_, splits_append.2 ⟨b, c, rfl, ?_, ?_⟩⟩
    · rw [splits_map_one, forall₂_eq_map]
    · exact (splits_between fun x hx => h x (by simp [hx])).2 hm
    · rw [splits_map_one, forall₂_eq_map]

/-- A word that splits has only letters the gaps may take, when the letters of the runs are such. -/
theorem Splits.forall_mem {ts : List (Tok β)} (h : Splits ts xs)
    (hone : ∀ p, Tok.one p ∈ ts → ∀ x, p x → free x)
    (hmany : ∀ p, Tok.many p ∈ ts → ∀ x, p x → free x) : ∀ x ∈ xs, free x := by
  induction ts generalizing xs with
  | nil =>
    rw [splits_nil.1 h]
    simp
  | cons t ts ih =>
    obtain ⟨a, b, rfl, ha, hb⟩ := splits_cons.1 h
    intro x hx
    rcases mem_append.1 hx with hx | hx
    · cases t with
      | one p =>
        obtain ⟨y, rfl, hy⟩ := ha
        rw [mem_singleton.1 hx]
        exact hone p (by simp) y hy
      | many p => exact hmany p (by simp) x (ha x hx)
    · exact ih hb (fun p hp => hone p (by simp [hp])) (fun p hp => hmany p (by simp [hp])) x hx

end Between

end Glob
