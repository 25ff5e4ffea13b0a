import Mathlib.Algebra.Order.Ring.Int
import Mathlib.Data.List.Basic
import Mathlib.Data.List.TakeWhile

/-!
# Trees of paths

Paths are words whose steps are separated by `z`; a tree gives some of them a value.

* `Beneath`, `Inside`, `parent`: where paths lie; `beneath_iff` goes one step up.
* `Tree.put`, `Tree.remove`, `Tree.move`: changes of a tree, the last two of whole subtrees.
* `Tree.Rooted`: a property of the values that lets a value stand only under another one;
  `Rooted.remove` and `Rooted.move` keep it.
-/

namespace PathTree

open List

variable {α β : Type*} {z : α} {a b p q r s : List α}

/-- The path `p` lies beneath `a`. -/
def Beneath (z : α) (a p : List α) : Prop := a ++ [z] <+: p

/-- The path `p` is `a` or lies beneath it. -/
def Inside (z : α) (a p : List α) : Prop := p = a ∨ Beneath z a p

theorem Beneath.length_lt (h : Beneath z a p) : a.length < p.length := by
  have := h.length_le
  rw [length_append, length_singleton] at this
  exact this

theorem Beneath.isPrefix (h : Beneath z a p) : a <+: p := (prefix_append a [z]).trans h

theorem Inside.isPrefix (h : Inside z a p) : a <+: p := by
  rcases h with rfl | h
  · exact prefix_refl _
  · exact h.isPrefix

theorem Beneath.trans (h : Beneath z a p) (hp : Beneath z p q) : Beneath z a q :=
  List.IsPrefix.trans h hp.isPrefix

theorem Inside.trans_beneath (h : Inside z a p) (hp : Beneath z p q) : Beneath z a q := by
  rcases h with rfl | h
  · exact hp
  · exact h.trans hp

theorem Beneath.trans_inside (h : Beneath z a p) (hp : Inside z p q) : Beneath z a q := by
  rcases hp with rfl | hp
  · exact h
  · exact h.trans hp

theorem not_beneath_self (z : α) (p : List α) : ¬ Beneath z p p := fun h =>
  Nat.lt_irrefl _ h.length_lt

theorem inside_append : Inside z a (a ++ s) ↔ s = [] ∨ [z] <+: s := by
  rw [Inside, Beneath, prefix_append_right_inj]
  exact or_congr_left append_right_eq_self

/-- Of two paths above one, the longer lies inside the shorter. -/
theorem Beneath.inside_of_length_le (ha : Beneath z a p) (hb : Inside z b p)
    (h : a.length ≤ b.length) : Inside z a b := by
  rcases Nat.lt_or_ge a.length b.length with hlt | hge
  · refine .inr (prefix_of_prefix_length_le ha hb.isPrefix ?_)
    rw [length_append, length_singleton]
    exact hlt
  · have hab := prefix_of_prefix_length_le ha.isPrefix hb.isPrefix h
    exact .inl (hab.eq_of_length (by omega)).symm

variable [DecidableEq α]

instance : Decidable (Beneath z a p) := inferInstanceAs (Decidable (_ <+: _))

instance : Decidable (Inside z a p) := inferInstanceAs (Decidable (_ ∨ _))

/-- The path without its last step; nothing if it has only one. -/
def parent (z : α) (p : List α) : List α := ((p.reverse.dropWhile (· ≠ z)).drop 1).reverse

/-- A path is its parent, the separator and a step. -/
theorem eq_parent (h : z ∈ p) : ∃ name, z ∉ name ∧ p = parent z p ++ z :: name := by
  have hsplit := takeWhile_append_dropWhile (p := (· ≠ z)) (l := p.reverse)
  obtain ⟨c, rest, hd⟩ : ∃ c rest, p.reverse.dropWhile (· ≠ z) = c :: rest := by
    refine exists_cons_of_ne_nil fun hnil => ?_
    have hall := dropWhile_eq_nil_iff.1 hnil z (mem_reverse.2 h)
    simp at hall
  have hc : c = z := by
    have := head?_dropWhile_not (· ≠ z) p.reverse
    rw [hd] at this
    simpa using this
  refine ⟨(p.reverse.takeWhile (· ≠ z)).reverse, fun hm => ?_, ?_⟩
  · have := mem_takeWhile_imp (mem_reverse.1 hm)
    simp at this
  · rw [parent, hd, drop_one, tail_cons, ← reverse_reverse p]
    conv_lhs => rw [← hsplit, hd, hc]
    simp

theorem parent_beneath (h : z ∈ p) : Beneath z (parent z p) p := by
  obtain ⟨name, -, he⟩ := eq_parent h
  refine ⟨name, ?_⟩
  conv_rhs => rw [he]
  rw [append_assoc, singleton_append]

/-- What a path lies beneath is its parent, or what that lies beneath. -/
theorem beneath_iff : Beneath z a p ↔ z ∈ p ∧ Inside z a (parent z p) := by
  constructor
  · intro h
    have hz : z ∈ p := h.subset (mem_append_right a (mem_singleton_self z))
    refine ⟨hz, h.inside_of_length_le (.inr (parent_beneath hz)) ?_⟩
    obtain ⟨name, hname, he⟩ := eq_parent hz
    by_contra hlt
    have hpre : parent z p ++ [z] <+: a :=
      prefix_of_prefix_length_le (parent_beneath hz) h.isPrefix (by
        rw [length_append, length_singleton]
        omega)
    obtain ⟨t, rfl⟩ := hpre
    obtain ⟨u, hu⟩ := h
    have hu' : parent z p ++ z :: (t ++ ([z] ++ u)) = parent z p ++ z :: name := by
      rw [← he]
      simpa using hu
    have ht := (cons.inj (append_cancel_left hu')).2
    exact hname (ht ▸ mem_append_right t (mem_append_left u (mem_singleton_self z)))
  · rintro ⟨hz, h⟩
    exact h.trans_beneath (parent_beneath hz)

/-! ### Trees -/

/-- What stands at a path. -/
abbrev Tree (α β : Type*) := List α → Option β

namespace Tree

variable {t : Tree α β} {f : β → β} {b : β}

def put (t : Tree α β) (p : List α) (b : β) : Tree α β := fun q => if q = p then some b else t q

/-- Without a path and all beneath it. -/
def remove (z : α) (t : Tree α β) (p : List α) : Tree α β := fun q =>
  if Inside z p q then none else t q

/-- With a path and all beneath it at another place, and `f` done to the values. -/
def move (z : α) (t : Tree α β) (f : β → β) (p target : List α) : Tree α β := fun q =>
  if Inside z target q ∧ (t (p ++ q.drop target.length)).isSome then
    (t (p ++ q.drop target.length)).map f
  else t.remove z p q

/-- Above every value with `old`, a value with `dir` stands at each path but the top. -/
def Rooted (z : α) (top : List α → Prop) (old dir : β → Prop) (t : Tree α β) : Prop :=
  ∀ p b, t p = some b → old b → ∀ a, Beneath z a p → ¬ top a → ∃ d, t a = some d ∧ dir d

variable {top : List α → Prop} {old dir : β → Prop}

theorem Rooted.remove (h : Rooted z top old dir t) (p : List α) :
    Rooted z top old dir (t.remove z p) := by
  intro q b hq hold a ha htop
  have hin : ¬ Inside z p q := fun hin => by rw [Tree.remove, if_pos hin] at hq; cases hq
  rw [Tree.remove, if_neg hin] at hq
  obtain ⟨d, hd, hdir⟩ := h q b hq hold a ha htop
  have hina : ¬ Inside z p a := fun hina => hin (.inr (hina.trans_beneath ha))
  exact ⟨d, by rw [Tree.remove, if_neg hina, hd], hdir⟩

/-- What moves is not old any more, and nothing moves over a value. -/
theorem Rooted.move (h : Rooted z top old dir t) (hf : ∀ b, ¬ old (f b)) {p target : List α}
    (hfree : ∀ q, Inside z target q → (t (p ++ q.drop target.length)).isSome →
      t.remove z p q = none) : Rooted z top old dir (t.move z f p target) := by
  intro q b hq hold a ha htop
  rw [Tree.move] at hq
  split at hq
  · obtain ⟨c, -, rfl⟩ := Option.map_eq_some_iff.1 hq
    exact absurd hold (hf c)
  · obtain ⟨d, hd, hdir⟩ := h.remove p q b hq hold a ha htop
    refine ⟨d, ?_, hdir⟩
    rw [Tree.move, if_neg fun hm => ?_, hd]
    rw [hfree a hm.1 hm.2] at hd
    cases hd

/-- A new value may stand where no directory stood. -/
theorem Rooted.put (h : Rooted z top old dir t) (hb : ¬ old b) {p : List α}
    (hp : ∀ d, t p = some d → ¬ dir d) : Rooted z top old dir (t.put p b) := by
  intro q c hq hold a ha htop
  have hqp : q ≠ p := by
    rintro rfl
    rw [Tree.put, if_pos rfl, Option.some.injEq] at hq
    exact hb (hq ▸ hold)
  rw [Tree.put, if_neg hqp] at hq
  obtain ⟨d, hd, hdir⟩ := h q c hq hold a ha htop
  have hap : a ≠ p := fun he => hp d (he ▸ hd) hdir
  exact ⟨d, by rw [Tree.put, if_neg hap, hd], hdir⟩

end Tree

end PathTree
