import HyperCommander.Lib.Yields
import Mathlib.Algebra.Order.Ring.Int

/-!
# Computations under a limit that is raised

`Settles E m`: a family of computations indexed by a limit, for which a high enough limit stops
mattering. From every state there is a limit from which on the run is the same, and if that run
fails it does so with `E`. A loop with a counter settles if each of its turns does, whatever
state the turn before left, so no bound on the counter has to be worked out.
-/

/-- From every state, the runs of `m` are the same from some limit on, and fail only with `E`. -/
def Settles {σ ε α : Type} (E : ε → Prop) (m : Nat → StateT σ (Except ε) α) : Prop :=
  ∀ s, ∃ n r, (∀ k, n ≤ k → (m k).run s = r) ∧ ∀ e, r = .error e → E e

namespace Settles

variable {σ ε α β : Type} {E : ε → Prop} {m : Nat → StateT σ (Except ε) α}

/-- A computation that does not look at the limit. -/
theorem const {m : StateT σ (Except ε) α} {Q : α → Prop} (h : Yields E m Q) :
    Settles E fun _ => m :=
  fun s => ⟨0, m.run s, fun _ _ => rfl, fun _ he => h.of_error he⟩

theorem pure {a : α} : Settles E fun _ => (Pure.pure a : StateT σ (Except ε) α) :=
  const (Q := fun _ => True) (.pure trivial)

theorem fail {e : ε} (h : E e) : Settles E fun _ => (throw e : StateT σ (Except ε) α) :=
  const (Q := fun _ => True) (.fail h)

theorem bind {f : Nat → α → StateT σ (Except ε) β} (hm : Settles E m)
    (hf : ∀ a, Settles E fun k => f k a) : Settles E fun k => m k >>= f k := by
  intro s
  obtain ⟨n, r, hr, he⟩ := hm s
  rcases r with e | ⟨a, s'⟩
  · refine ⟨n, .error e, fun k hk => ?_, fun e' h' => he e' (by cases h'; rfl)⟩
    rw [StateT.run_bind, hr k hk]
    rfl
  · obtain ⟨n', r', hr', he'⟩ := hf a s'
    refine ⟨max n n', r', fun k hk => ?_, he'⟩
    rw [StateT.run_bind, hr k (le_of_max_le_left hk)]
    exact hr' k (le_of_max_le_right hk)

theorem ite {c : Prop} [Decidable c] {n : Nat → StateT σ (Except ε) α} (ht : c → Settles E m)
    (hf : ¬ c → Settles E n) : Settles E fun k => if c then m k else n k := by
  split
  · exact ht ‹_›
  · exact hf ‹_›

end Settles
