import Mathlib.Algebra.Order.Ring.Int
import Mathlib.Data.List.Chain

/-!
# Sequences of names and words of a prefix-free code

A record is a name, a separator and a word; a sequence of records is written without anything
between them. Names do not contain the separator, and no word is the proper beginning of another.

* `append_inj_of_prefixFree`: a word is read off the front in one way only.
* `records_injective`: so is a sequence of records.
* `apart_records`, `not_infix_of_apart`: the separator never stands twice in a row.
-/

namespace Delimited

open List

variable {α : Type*} {z : α} {code : Set (List α)}

/-- No word of the code is the proper beginning of another. -/
def PrefixFree (code : Set (List α)) : Prop := ∀ a ∈ code, ∀ b ∈ code, a <+: b → a = b

theorem append_inj_of_prefixFree (h : PrefixFree code) {a b x y : List α} (ha : a ∈ code)
    (hb : b ∈ code) (he : a ++ x = b ++ y) : a = b ∧ x = y := by
  have hab : a = b := by
    rcases prefix_or_prefix_of_prefix (prefix_append a x) (he ▸ prefix_append b y)
      with hp | hp
    · exact h a ha b hb hp
    · exact (h b hb a ha hp).symm
  subst hab
  exact ⟨rfl, append_cancel_left he⟩

/-- The sequence of the records. -/
def records (z : α) (rs : List (List α × List α)) : List α := rs.flatMap fun r => r.1 ++ z :: r.2

@[simp] theorem records_nil : records z [] = [] := rfl

@[simp] theorem records_cons (r : List α × List α) (rs : List (List α × List α)) :
    records z (r :: rs) = r.1 ++ z :: (r.2 ++ records z rs) := by
  simp [records]

theorem append_cons_inj {a b x y : List α} (ha : z ∉ a) (hb : z ∉ b)
    (he : a ++ z :: x = b ++ z :: y) : a = b ∧ x = y := by
  induction a generalizing b with
  | nil =>
    cases b with
    | nil => exact ⟨rfl, by simpa using he⟩
    | cons c b =>
      rw [nil_append, cons_append, cons.injEq] at he
      exact absurd (he.1 ▸ mem_cons_self) hb
  | cons d a ih =>
    cases b with
    | nil =>
      rw [nil_append, cons_append, cons.injEq] at he
      exact absurd (he.1 ▸ mem_cons_self) ha
    | cons c b =>
      rw [cons_append, cons_append, cons.injEq] at he
      obtain ⟨hab, hxy⟩ := ih (fun h => ha (mem_cons_of_mem _ h))
        (fun h => hb (mem_cons_of_mem _ h)) he.2
      exact ⟨by rw [he.1, hab], hxy⟩

/-- The names do not contain the separator, and the words are of the code. -/
def Proper (z : α) (code : Set (List α)) (rs : List (List α × List α)) : Prop :=
  ∀ r ∈ rs, z ∉ r.1 ∧ r.2 ∈ code

theorem records_injective (h : PrefixFree code) {rs ss : List (List α × List α)}
    (hr : Proper z code rs) (hs : Proper z code ss) (he : records z rs = records z ss) :
    rs = ss := by
  induction rs generalizing ss with
  | nil =>
    cases ss with
    | nil => rfl
    | cons s ss => simp at he
  | cons r rs ih =>
    cases ss with
    | nil => simp at he
    | cons s ss =>
      rw [records_cons, records_cons] at he
      obtain ⟨hr1, hr2⟩ := hr r mem_cons_self
      obtain ⟨hs1, hs2⟩ := hs s mem_cons_self
      obtain ⟨hname, he⟩ := append_cons_inj hr1 hs1 he
      obtain ⟨hword, he⟩ := append_inj_of_prefixFree h hr2 hs2 he
      have htail := ih (fun r h => hr r (mem_cons_of_mem _ h))
        (fun s h => hs s (mem_cons_of_mem _ h)) he
      rw [htail, Prod.ext hname hword]

/-! ## Separators next to each other -/

/-- Of two neighbours at most one is the separator. -/
def Apart (z : α) (l : List α) : Prop := l.IsChain fun a b => ¬ (a = z ∧ b = z)

theorem apart_of_not_mem {l : List α} (h : z ∉ l) : Apart z l := by
  induction l with
  | nil => exact isChain_nil
  | cons a l ih =>
    rw [mem_cons, not_or] at h
    cases l with
    | nil => exact isChain_singleton a
    | cons b l => exact isChain_cons_cons.2 ⟨fun hz => h.1 hz.1.symm, ih h.2⟩

/-- The separator does not begin it. -/
def Clear (z : α) (l : List α) : Prop := l.head? ≠ some z

theorem Apart.cons {l : List α} (h : Apart z l) (hc : Clear z l) : Apart z (z :: l) := by
  cases l with
  | nil => exact isChain_singleton z
  | cons a l => exact isChain_cons_cons.2 ⟨fun hz => hc (by simp [hz.2]), h⟩

theorem Apart.append {a l : List α} (ha : z ∉ a) (h : Apart z l) : Apart z (a ++ l) := by
  refine List.IsChain.append (apart_of_not_mem ha) h fun x hx y _ hz => ha ?_
  rw [← hz.1]
  exact mem_of_getLast? hx

theorem apart_records {rs : List (List α × List α)}
    (hr : ∀ r ∈ rs, z ∉ r.1 ∧ z ∉ r.2 ∧ r.2 ≠ []) : Apart z (records z rs) := by
  induction rs with
  | nil => exact isChain_nil
  | cons r rs ih =>
    obtain ⟨h1, h2, hne⟩ := hr r mem_cons_self
    rw [records_cons]
    refine .append h1 (.cons (.append h2 (ih fun r h => hr r (mem_cons_of_mem _ h))) ?_)
    obtain ⟨c, w, hw⟩ := exists_cons_of_ne_nil hne
    rw [hw] at h2 ⊢
    intro hc
    have hc : c = z := by simpa using hc
    exact h2 (by simp [hc])

theorem not_infix_of_apart {l : List α} (h : Apart z l) : ¬ [z, z] <:+: l := by
  rintro ⟨s, t, rfl⟩
  exact (isChain_cons_cons.1 h.left_of_append.right_of_append).1 ⟨rfl, rfl⟩

end Delimited
