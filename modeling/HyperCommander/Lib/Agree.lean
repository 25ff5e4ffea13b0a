import HyperCommander.Lib.Yields
import Mathlib.Tactic.Common

/-!
# Two runs of stateful computations

`Agree m n R`: whenever both computations return, from whatever states, their values are related by
`R`. Nothing is asked of the states, so a counter, a clock or a limit that differs between the two
runs does not show. With `R` an equality it says that a value does not depend on them.
`Returns m a`: some run of `m` returns `a`.
-/

/-- Values that `m` and `n` return are related by `R`. -/
def Agree {σ ε α β : Type} (m : StateT σ (Except ε) α) (n : StateT σ (Except ε) β)
    (R : α → β → Prop) : Prop :=
  ∀ s t a b s' t', m.run s = .ok (a, s') → n.run t = .ok (b, t') → R a b

namespace Agree

variable {σ ε α β γ δ : Type} {m : StateT σ (Except ε) α} {n : StateT σ (Except ε) β}
  {Q Q' : α → β → Prop}

theorem pure {a : α} {b : β} (h : Q a b) :
    Agree (Pure.pure a : StateT σ (Except ε) α) (Pure.pure b : StateT σ (Except ε) β) Q := by
  intro s t a' b' s' t' ha hb
  obtain ⟨rfl, rfl⟩ := Prod.mk.inj (Except.ok.inj ha)
  obtain ⟨rfl, rfl⟩ := Prod.mk.inj (Except.ok.inj hb)
  exact h

theorem fail_left {e : ε} : Agree (throw e : StateT σ (Except ε) α) n Q := by
  intro s t a b s' t' ha hb
  cases ha

theorem any : Agree m n fun _ _ => True := fun _ _ _ _ _ _ _ _ => trivial

theorem bind {f : α → StateT σ (Except ε) γ} {g : β → StateT σ (Except ε) δ}
    {R : γ → δ → Prop} (hm : Agree m n Q) (hf : ∀ a b, Q a b → Agree (f a) (g b) R) :
    Agree (m >>= f) (n >>= g) R := by
  intro s t c d s' t' hc hd
  rw [StateT.run_bind] at hc hd
  rcases hm₁ : m.run s with e | ⟨a, s₁⟩
  · rw [hm₁] at hc
    cases hc
  · rcases hn₁ : n.run t with e | ⟨b, t₁⟩
    · rw [hn₁] at hd
      cases hd
    · rw [hm₁] at hc
      rw [hn₁] at hd
      exact hf a b (hm _ _ _ _ _ _ hm₁ hn₁) _ _ _ _ _ _ hc hd

/-- Computations whose values are not used. -/
theorem skip {f : α → StateT σ (Except ε) γ} {g : β → StateT σ (Except ε) δ}
    {R : γ → δ → Prop} (hf : ∀ a b, Agree (f a) (g b) R) : Agree (m >>= f) (n >>= g) R :=
  any.bind fun a b _ => hf a b

theorem ite {c d : Prop} [Decidable c] [Decidable d] {m' : StateT σ (Except ε) α}
    {n' : StateT σ (Except ε) β} (hc : c ↔ d) (ht : c → Agree m n Q) (hf : ¬ c → Agree m' n' Q) :
    Agree (if c then m else m') (if d then n else n') Q := by
  by_cases h : c
  · rw [if_pos h, if_pos (hc.mp h)]
    exact ht h
  · rw [if_neg h, if_neg fun hd => h (hc.mpr hd)]
    exact hf h

theorem of_run (h : Agree m n Q) {s t s' t' : σ} {a : α} {b : β} (ha : m.run s = .ok (a, s'))
    (hb : n.run t = .ok (b, t')) : Q a b := h s t a b s' t' ha hb

end Agree

/-- Some run of `m` returns `a`. -/
def Returns {σ ε α : Type} (m : StateT σ (Except ε) α) (a : α) : Prop :=
  ∃ s s', m.run s = .ok (a, s')

theorem Agree.of_returns {σ ε α β : Type} {m : StateT σ (Except ε) α} {n : StateT σ (Except ε) β}
    {Q : α → β → Prop} (h : Agree m n Q) {a : α} {b : β} (ha : Returns m a) (hb : Returns n b) :
    Q a b := by
  obtain ⟨s, s', ha⟩ := ha
  obtain ⟨t, t', hb⟩ := hb
  exact h.of_run ha hb

theorem Yields.of_returns {σ ε α : Type} {E : ε → Prop} {m : StateT σ (Except ε) α} {Q : α → Prop}
    (h : Yields E m Q) {a : α} (ha : Returns m a) : Q a := by
  obtain ⟨s, s', ha⟩ := ha
  exact h.of_ok ha

theorem Yields.returns {σ ε α : Type} (m : StateT σ (Except ε) α) :
    Yields (fun _ => True) m (Returns m) := by
  intro s
  rcases h : m.run s with e | ⟨a, s'⟩
  · exact trivial
  · exact ⟨s, s', h⟩
