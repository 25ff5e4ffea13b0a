import Mathlib.Algebra.Order.Ring.Int
import Mathlib.Data.List.Sort

/-!
# Stable sorting through numbered entries

An order in which equal entries are told apart by a number that they carry is total, so a sorted
list in it is determined by its entries, however it came about.

* `eq_insertionSort`: a sorted permutation in a total order is the insertion sort.
* `insertionSort_congr`: so the insertion sort by such an order is the stable sort of a list that
  is numbered from front to back; `filter_insertionSort`: it keeps equal entries in their order.
* `Merges`: a merge of sorted lists by repeatedly taking a least head.
-/

namespace StableSort

open List

variable {α : Type*}

/-- A total order as a decidable relation on the entries of a list. -/
structure TotalOn (r : α → α → Prop) (P : α → Prop) : Prop where
  total : ∀ a b, P a → P b → r a b ∨ r b a
  trans : ∀ a b c, P a → P b → P c → r a b → r b c → r a c
  antisymm : ∀ a b, P a → P b → r a b → r b a → a = b

variable {r s : α → α → Prop} {P : α → Prop} {l l' : List α}

theorem pairwise_orderedInsert [DecidableRel r] (ht : TotalOn r P) {a : α} (ha : P a)
    (hl : ∀ b ∈ l, P b) (h : l.Pairwise r) : (l.orderedInsert r a).Pairwise r := by
  induction l with
  | nil => simp
  | cons b l ih =>
    obtain ⟨hb, hlt⟩ := forall_mem_cons.mp hl
    obtain ⟨hbl, hl'⟩ := pairwise_cons.mp h
    rw [orderedInsert_cons]
    split
    · rename_i hab
      refine pairwise_cons.mpr ⟨fun c hc => ?_, h⟩
      rcases mem_cons.mp hc with rfl | hc
      · exact hab
      · exact ht.trans a b c ha hb (hlt c hc) hab (hbl c hc)
    · rename_i hab
      refine pairwise_cons.mpr ⟨fun c hc => ?_, ih hlt hl'⟩
      rcases mem_orderedInsert r |>.mp hc with rfl | hc
      · exact (ht.total c b ha hb).resolve_left hab
      · exact hbl c hc

theorem pairwise_insertionSort [DecidableRel r] (ht : TotalOn r P) (hl : ∀ b ∈ l, P b) :
    (l.insertionSort r).Pairwise r := by
  induction l with
  | nil => simp
  | cons a l ih =>
    obtain ⟨ha, hl⟩ := forall_mem_cons.mp hl
    exact pairwise_orderedInsert ht ha (fun b hb => hl b ((mem_insertionSort r).mp hb)) (ih hl)

/-- A sorted permutation in a total order is the insertion sort. -/
theorem eq_insertionSort [DecidableRel r] (ht : TotalOn r P) (hl : ∀ b ∈ l, P b)
    (hp : l'.Perm l) (hs : l'.Pairwise r) : l' = l.insertionSort r := by
  refine List.Perm.eq_of_pairwise (fun a b ha hb => ?_) hs (pairwise_insertionSort ht hl)
    (hp.trans (perm_insertionSort r l).symm)
  exact ht.antisymm a b (hl a (hp.mem_iff.mp ha)) (hl b ((mem_insertionSort r).mp hb))

/-- Two orders that agree wherever the first entry is before the second in the list sort it
alike. -/
theorem insertionSort_congr [DecidableRel r] [DecidableRel s]
    (h : l.Pairwise fun a b => r a b ↔ s a b) : l.insertionSort r = l.insertionSort s := by
  induction l with
  | nil => rfl
  | cons a l ih =>
    obtain ⟨ha, hl⟩ := pairwise_cons.mp h
    rw [insertionSort_cons, insertionSort_cons, ih hl]
    have hm : ∀ b ∈ l.insertionSort s, (r a b ↔ s a b) := fun b hb =>
      ha b ((mem_insertionSort s).mp hb)
    revert hm
    generalize l.insertionSort s = m
    intro hm
    induction m with
    | nil => rfl
    | cons b m ih =>
      obtain ⟨hb, hm⟩ := forall_mem_cons.mp hm
      rw [orderedInsert_cons, orderedInsert_cons, ih hm]
      by_cases hs : s a b
      · rw [if_pos hs, if_pos (hb.mpr hs)]
      · rw [if_neg hs, if_neg (fun h => hs (hb.mp h))]

/-- A list in the order of a number that its entries carry is cut at a bound. -/
theorem filter_append_filter {κ : Type*} [LinearOrder κ] {f : α → κ} {k : κ}
    (h : l.Pairwise fun a b => f a ≤ f b) :
    l.filter (fun a => f a < k) ++ l.filter (fun a => k ≤ f a) = l := by
  induction l with
  | nil => rfl
  | cons a l ih =>
    obtain ⟨ha, hl⟩ := pairwise_cons.mp h
    rcases lt_or_ge (f a) k with hlt | hge
    · rw [filter_cons_of_pos (by simpa using hlt),
        filter_cons_of_neg (by simpa using hlt), cons_append, ih hl]
    · have hnone : l.filter (fun a => f a < k) = [] :=
        filter_eq_nil_iff.mpr fun b hb => by
          simpa using hge.trans (ha b hb)
      have hall : l.filter (fun a => k ≤ f a) = l :=
        filter_eq_self.mpr fun b hb => by simpa using hge.trans (ha b hb)
      rw [filter_cons_of_neg (by simpa using hge),
        filter_cons_of_pos (by simpa using hge), hnone, hall, nil_append]

/-- A stable sort keeps the entries of one kind in their order. -/
theorem filter_insertionSort [DecidableRel r] {p : α → Bool}
    (h : ∀ a b, p a = true → p b = true → r a b) :
    (l.insertionSort r).filter p = l.filter p := by
  have hsub : (l.filter p).Sublist (l.insertionSort r) :=
    sublist_insertionSort (pairwise_filter.mpr (pairwise_of_forall fun a b ha hb => h a b ha hb))
      filter_sublist
  have hfilter := hsub.filter p
  rw [filter_filter] at hfilter
  have hself : l.filter (fun a => p a && p a) = l.filter p := by simp only [Bool.and_self]
  rw [hself] at hfilter
  refine (hfilter.eq_of_length ?_).symm
  exact ((perm_insertionSort r l).filter p).length_eq.symm

/-! ## Merging -/

/-- `out` comes from `sources` by repeatedly taking a head before which there is no other. -/
inductive Merges (before : α → α → Prop) : List (List α) → List α → Prop
  | done {sources} (h : ∀ s ∈ sources, s = []) : Merges before sources []
  | take {sources a as rest out} (hp : sources.Perm ((a :: as) :: rest))
    (hleast : ∀ s ∈ rest, ∀ b ∈ s.head?, ¬ before b a) (h : Merges before (as :: rest) out) :
    Merges before sources (a :: out)

variable {before : α → α → Prop} {sources : List (List α)} {out : List α}

theorem Merges.of_perm {sources' : List (List α)}
    (hp : sources'.Perm sources) (h : Merges before sources out) : Merges before sources' out := by
  cases h with
  | done h => exact .done fun s hs => h s (hp.mem_iff.mp hs)
  | take hp' hleast h => exact .take (hp.trans hp') hleast h

/-- Lists that are used up do not matter. -/
theorem Merges.cons_nil (h : Merges before sources out) : Merges before ([] :: sources) out := by
  induction h with
  | done h => exact .done (forall_mem_cons.mpr ⟨rfl, h⟩)
  | @take sources a as rest out hp hleast h ih =>
    refine .take ((hp.cons []).trans (.swap (a :: as) [] rest)) ?_ (ih.of_perm (.swap _ _ _))
    exact forall_mem_cons.mpr ⟨fun b hb => by simp at hb, hleast⟩

theorem Merges.perm (h : Merges before sources out) : out.Perm sources.flatten := by
  induction h with
  | done h => rw [flatten_eq_nil_iff.mpr h]
  | @take sources a as rest out hp hleast h ih =>
    refine .trans ?_ hp.flatten.symm
    exact ih.cons a

/-- A merge of sorted lists is sorted. -/
theorem Merges.pairwise (h : Merges before sources out) (ht : TotalOn r P)
    (hbefore : ∀ a b, P a → P b → ¬ before b a → r a b) (hP : ∀ s ∈ sources, ∀ a ∈ s, P a)
    (hs : ∀ s ∈ sources, s.Pairwise r) : out.Pairwise r := by
  induction h with
  | done h => exact .nil
  | @take sources a as rest out hp hleast h ih =>
    have hP' : ∀ s ∈ (a :: as) :: rest, ∀ a ∈ s, P a := fun s hm => hP s (hp.mem_iff.mpr hm)
    have hs' : ∀ s ∈ (a :: as) :: rest, s.Pairwise r := fun s hm => hs s (hp.mem_iff.mpr hm)
    obtain ⟨hPa, hPr⟩ := forall_mem_cons.mp hP'
    obtain ⟨hsa, hsr⟩ := forall_mem_cons.mp hs'
    obtain ⟨ha, has⟩ := pairwise_cons.mp hsa
    have hPas : ∀ b ∈ as, P b := fun b hb => hPa b (mem_cons_of_mem a hb)
    refine pairwise_cons.mpr ⟨fun b hb => ?_, ih (forall_mem_cons.mpr ⟨hPas, hPr⟩)
      (forall_mem_cons.mpr ⟨has, hsr⟩)⟩
    have hb' := h.perm.mem_iff.mp hb
    rw [flatten_cons, mem_append] at hb'
    rcases hb' with hb' | hb'
    · exact ha b hb'
    · -- The entry is at or behind the head of another list.
      obtain ⟨t, ht', hbt⟩ := mem_flatten.mp hb'
      cases t with
      | nil => simp at hbt
      | cons c t =>
        have hPac : P a := hPa a mem_cons_self
        have hPc : P c := hPr _ ht' c mem_cons_self
        have hac : r a c := hbefore a c hPac hPc (hleast _ ht' c rfl)
        rcases mem_cons.mp hbt with rfl | hbt
        · exact hac
        · exact ht.trans a c b hPac hPc (hPr _ ht' b (mem_cons_of_mem c hbt)) hac
            ((pairwise_cons.mp (hsr _ ht')).1 b hbt)

end StableSort
