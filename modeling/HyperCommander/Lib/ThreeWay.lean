import Mathlib.Algebra.Order.Ring.Int

/-!
# Three-way comparisons on a part of a type

* `LawfulOn dom cmp`: on the values in `dom`, `cmp` is a total preorder (`Std.TransCmp`).
* `LawfulOn.lex`, `LawfulOn.comap`, `LawfulOn.swap`: the ways to build one from others.
* `LawfulOn.strictWeak`: "less" by such a comparison is a strict weak order on `dom`.
-/

namespace ThreeWay

variable {α β : Type} {dom : α → Prop} {cmp cmp' : α → α → Ordering}

/-- `cmp` is a total preorder on the values in `dom`. -/
def LawfulOn (dom : α → Prop) (cmp : α → α → Ordering) : Prop :=
  Std.TransCmp fun a b : Subtype dom => cmp a.1 b.1

/-- On the values in `dom`, `less` is a strict weak order. -/
structure StrictWeakOn (dom : α → Prop) (less : α → α → Bool) : Prop where
  irrefl : ∀ a, dom a → less a a = false
  trans : ∀ a b c, dom a → dom b → dom c → less a b = true → less b c = true → less a c = true
  incomparable : ∀ a b c, dom a → dom b → dom c → less a b = false → less b a = false →
    less b c = false → less c b = false → less a c = false ∧ less c a = false

namespace LawfulOn

theorem of_transCmp (cmp : α → α → Ordering) [h : Std.TransCmp cmp] : LawfulOn dom cmp where
  eq_swap := h.eq_swap
  isLE_trans := h.isLE_trans

theorem congr (h : LawfulOn dom cmp) (he : ∀ a b, dom a → dom b → cmp' a b = cmp a b) :
    LawfulOn dom cmp' := by
  have hfun : (fun a b : Subtype dom => cmp' a.1 b.1) = fun a b => cmp a.1 b.1 := by
    funext a b
    exact he a.1 b.1 a.2 b.2
  unfold LawfulOn
  rw [hfun]
  exact h

/-- The comparison of what a function makes of the values. -/
theorem comap {dom' : β → Prop} {cmp : β → β → Ordering} (h : LawfulOn dom' cmp) {f : α → β}
    (hf : ∀ a, dom a → dom' (f a)) : LawfulOn dom fun a b => cmp (f a) (f b) where
  eq_swap {a b} := h.eq_swap (a := ⟨f a.1, hf a.1 a.2⟩) (b := ⟨f b.1, hf b.1 b.2⟩)
  isLE_trans {a b c} := h.isLE_trans (a := ⟨f a.1, hf a.1 a.2⟩) (b := ⟨f b.1, hf b.1 b.2⟩)
    (c := ⟨f c.1, hf c.1 c.2⟩)

/-- The comparison of values that are all made by `f`. -/
theorem image {dom' : β → Prop} {cmp' : β → β → Ordering} (h : LawfulOn dom' cmp') {f : β → α}
    (hdom : ∀ a, dom a → ∃ k, dom' k ∧ a = f k)
    (hcmp : ∀ k l, dom' k → dom' l → cmp (f k) (f l) = cmp' k l) : LawfulOn dom cmp where
  eq_swap {a b} := by
    obtain ⟨a, ha⟩ := a
    obtain ⟨b, hb⟩ := b
    obtain ⟨k, hk, rfl⟩ := hdom a ha
    obtain ⟨l, hl, rfl⟩ := hdom b hb
    rw [hcmp k l hk hl, hcmp l k hl hk]
    exact h.eq_swap (a := ⟨k, hk⟩) (b := ⟨l, hl⟩)
  isLE_trans {a b c} := by
    obtain ⟨a, ha⟩ := a
    obtain ⟨b, hb⟩ := b
    obtain ⟨c, hc⟩ := c
    obtain ⟨k, hk, rfl⟩ := hdom a ha
    obtain ⟨l, hl, rfl⟩ := hdom b hb
    obtain ⟨m, hm, rfl⟩ := hdom c hc
    rw [hcmp k l hk hl, hcmp l m hl hm, hcmp k m hk hm]
    exact h.isLE_trans (a := ⟨k, hk⟩) (b := ⟨l, hl⟩) (c := ⟨m, hm⟩)

theorem lex (h : LawfulOn dom cmp) (h' : LawfulOn dom cmp') :
    LawfulOn dom fun a b => (cmp a b).then (cmp' a b) := by
  unfold LawfulOn at *
  exact inferInstanceAs (Std.TransCmp (compareLex (fun a b : Subtype dom => cmp a.1 b.1)
    fun a b => cmp' a.1 b.1))

/-- The other direction. -/
theorem swap (h : LawfulOn dom cmp) : LawfulOn dom fun a b => (cmp a b).swap := by
  have hopp : LawfulOn dom fun a b => cmp b a := by
    unfold LawfulOn at *
    exact Std.TransCmp.opposite
  exact hopp.congr fun a b ha hb => (h.eq_swap (a := ⟨b, hb⟩) (b := ⟨a, ha⟩)).symm

theorem refl (h : LawfulOn dom cmp) {a : α} (ha : dom a) : cmp a a = .eq := by
  have := h
  unfold LawfulOn at this
  exact @Std.ReflCmp.compare_self _ (fun a b : Subtype dom => cmp a.1 b.1) _ ⟨a, ha⟩

theorem strictWeak (h : LawfulOn dom cmp) : StrictWeakOn dom fun a b => cmp a b == .lt := by
  have := h
  have heq : ∀ {a b : α}, dom a → dom b → (cmp a b == .lt) = false → (cmp b a == .lt) = false →
      cmp a b = .eq := by
    intro a b ha hb hab hba
    have hs : cmp a b = (cmp b a).swap := h.eq_swap (a := ⟨a, ha⟩) (b := ⟨b, hb⟩)
    revert hab hba
    rw [hs]
    cases cmp b a <;> decide
  refine ⟨fun a ha => ?_, fun a b c ha hb hc hab hbc => ?_, fun a b c ha hb hc h₁ h₂ h₃ h₄ => ?_⟩
  · rw [h.refl ha]
    rfl
  · rw [beq_iff_eq] at hab hbc ⊢
    exact @Std.TransCmp.lt_trans _ _ this ⟨a, ha⟩ ⟨b, hb⟩ ⟨c, hc⟩ hab hbc
  · have hac : cmp a c = .eq :=
      @Std.TransCmp.eq_trans _ _ this ⟨a, ha⟩ ⟨b, hb⟩ ⟨c, hc⟩ (heq ha hb h₁ h₂) (heq hb hc h₃ h₄)
    have hca : cmp c a = .eq := by
      rw [h.eq_swap (a := ⟨c, hc⟩) (b := ⟨a, ha⟩)]
      rw [hac]
      rfl
    exact ⟨by rw [hac]; rfl, by rw [hca]; rfl⟩

end LawfulOn

/-- A missing value comes after the others. -/
def missingLast (cmp : α → α → Ordering) : Option α → Option α → Ordering
  | some a, some b => cmp a b
  | some _, none => .lt
  | none, some _ => .gt
  | none, none => .eq

theorem LawfulOn.missingLast (h : LawfulOn dom cmp) :
    LawfulOn (fun o => ∀ a ∈ o, dom a) (missingLast cmp) where
  eq_swap {a b} := by
    obtain ⟨a, ha⟩ := a
    obtain ⟨b, hb⟩ := b
    cases a with
    | none => cases b <;> rfl
    | some a => cases b with
      | none => rfl
      | some b => exact h.eq_swap (a := ⟨a, ha a rfl⟩) (b := ⟨b, hb b rfl⟩)
  isLE_trans {a b c} hab hbc := by
    obtain ⟨a, ha⟩ := a
    obtain ⟨b, hb⟩ := b
    obtain ⟨c, hc⟩ := c
    cases c with
    | none => cases a <;> rfl
    | some c => cases b with
      | none => cases hbc
      | some b => cases a with
        | none => cases hab
        | some a =>
          exact h.isLE_trans (a := ⟨a, ha a rfl⟩) (b := ⟨b, hb b rfl⟩) (c := ⟨c, hc c rfl⟩) hab hbc

theorem StrictWeakOn.mono {dom' : α → Prop} {less : α → α → Bool} (h : StrictWeakOn dom less)
    (hd : ∀ a, dom' a → dom a) : StrictWeakOn dom' less where
  irrefl a ha := h.irrefl a (hd a ha)
  trans a b c ha hb hc := h.trans a b c (hd a ha) (hd b hb) (hd c hc)
  incomparable a b c ha hb hc := h.incomparable a b c (hd a ha) (hd b hb) (hd c hc)

/-- A cycle rules a strict weak order out. -/
theorem StrictWeakOn.no_cycle {less : α → α → Bool} (h : StrictWeakOn dom less) {a b c : α}
    (ha : dom a) (hb : dom b) (hc : dom c) (hab : less a b = true) (hbc : less b c = true)
    (hca : less c a = true) : False := by
  have haa := h.trans a c a ha hc ha (h.trans a b c ha hb hc hab hbc) hca
  rw [h.irrefl a ha] at haa
  exact Bool.false_ne_true haa

end ThreeWay
