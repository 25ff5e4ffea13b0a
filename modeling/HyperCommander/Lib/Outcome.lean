/-!
# Inverting computations that may fail

A step function in `Except` is taken apart with `bind_eq_ok`, and its guards with
`failIf_eq_ok`.
-/

namespace Outcome

variable {ε α β : Type}

/-- Fails with `e` if the condition holds. -/
def failIf (c : Prop) [Decidable c] (e : ε) : Except ε Unit := if c then .error e else .ok ()

@[simp] theorem failIf_eq_ok {c : Prop} [Decidable c] {e : ε} {u : Unit} :
    failIf c e = .ok u ↔ ¬ c := by
  unfold failIf; split <;> simp_all

theorem failIf_of_not {c : Prop} [Decidable c] {e : ε} (h : ¬ c) : failIf c e = .ok () := if_neg h

theorem failIf_of {c : Prop} [Decidable c] {e : ε} (h : c) : failIf c e = .error e := if_pos h

theorem ok_bind (a : α) (f : α → Except ε β) : (Except.ok a >>= f) = f a := rfl

theorem error_bind (e : ε) (f : α → Except ε β) : (Except.error e >>= f) = .error e := rfl

@[simp] theorem bind_eq_ok {x : Except ε α} {f : α → Except ε β} {b : β} :
    (x >>= f) = .ok b ↔ ∃ a, x = .ok a ∧ f a = .ok b := by
  cases x with
  | error e => simp [bind, Except.bind]
  | ok a => simp [bind, Except.bind]

@[simp] theorem pure_eq_ok {a b : α} : (pure a : Except ε α) = .ok b ↔ a = b := by
  simp [pure, Except.pure]

end Outcome
