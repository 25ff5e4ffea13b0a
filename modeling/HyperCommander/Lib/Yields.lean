/-!
# Values and failures of stateful computations

`Yields E m Q`: from any state, a computation that returns gives a value with `Q`, and one that
fails does so with `E`. The state is not described, so a counter or a clock that a program
keeps on the side does not show in its proofs. Partial correctness is `E := fun _ => True`.
-/

/-- Whenever `m` returns a value it satisfies `Q`, and whenever it fails the failure
satisfies `E`. -/
def Yields {σ ε α : Type} (E : ε → Prop) (m : StateT σ (Except ε) α) (Q : α → Prop) : Prop :=
  ∀ s, match m.run s with
    | .ok (a, _) => Q a
    | .error e => E e

namespace Yields

variable {σ ε α β : Type} {E E' : ε → Prop} {m : StateT σ (Except ε) α} {Q Q' : α → Prop}

theorem of_ok (h : Yields E m Q) {s s' : σ} {a : α} (hr : m.run s = .ok (a, s')) : Q a := by
  have := h s
  rwa [hr] at this

theorem of_error (h : Yields E m Q) {s : σ} {e : ε} (hr : m.run s = .error e) : E e := by
  have := h s
  rwa [hr] at this

theorem of_runs (hok : ∀ s a s', m.run s = .ok (a, s') → Q a)
    (herror : ∀ s e, m.run s = .error e → E e) : Yields E m Q := by
  intro s
  rcases hr : m.run s with e | ⟨a, s'⟩
  · exact herror s e hr
  · exact hok s a s' hr

theorem pure {a : α} (h : Q a) : Yields E (Pure.pure a : StateT σ (Except ε) α) Q := fun _ => h

theorem fail {e : ε} (h : E e) : Yields E (throw e : StateT σ (Except ε) α) Q := fun _ => h

theorem bind {f : α → StateT σ (Except ε) β} {R : β → Prop} (hm : Yields E m Q)
    (hf : ∀ a, Q a → Yields E (f a) R) : Yields E (m >>= f) R := by
  intro s
  have h := hm s
  simp only [StateT.run_bind]
  rcases hr : m.run s with e | ⟨a, s'⟩
  · rw [hr] at h; exact h
  · rw [hr] at h; exact hf a h s'

theorem mono (h : Yields E m Q) (hE : ∀ e, E e → E' e) (hQ : ∀ a, Q a → Q' a) :
    Yields E' m Q' := by
  intro s
  have h := h s
  rcases hr : m.run s with e | ⟨a, s'⟩
  · rw [hr] at h; exact hE e h
  · rw [hr] at h; exact hQ a h

theorem weaken (h : Yields E m Q) (hQ : ∀ a, Q a → Q' a) : Yields E m Q' :=
  h.mono (fun _ he => he) hQ

theorem and (h : Yields E m Q) (h' : Yields E' m Q') : Yields E m fun a => Q a ∧ Q' a :=
  .of_runs (fun _ _ _ hr => ⟨h.of_ok hr, h'.of_ok hr⟩) fun _ _ hr => h.of_error hr

/-- A computation whose value is not used. -/
theorem skip {f : α → StateT σ (Except ε) β} {R : β → Prop} (hm : Yields E m fun _ => True)
    (hf : ∀ a, Yields E (f a) R) : Yields E (m >>= f) R :=
  hm.bind fun a _ => hf a

/-- Partial correctness with nothing to say about the value. -/
theorem any : Yields (fun _ => True) m fun _ => True := by
  intro s
  rcases m.run s with e | ⟨a, s'⟩ <;> trivial

theorem past {f : α → StateT σ (Except ε) β} {R : β → Prop}
    (hf : ∀ a, Yields (fun _ => True) (f a) R) : Yields (fun _ => True) (m >>= f) R :=
  any.skip hf

/-- A loop keeps what each of its turns keeps. -/
theorem foldlM {f : β → α → StateT σ (Except ε) β} {I : β → Prop} {l : List α} {b : β} (hb : I b)
    (hf : ∀ b, ∀ a ∈ l, I b → Yields E (f b a) I) : Yields E (l.foldlM f b) I := by
  induction l generalizing b with
  | nil => exact pure hb
  | cons a l ih =>
    rw [List.foldlM_cons]
    exact (hf b a List.mem_cons_self hb).bind fun b' hb' =>
      ih hb' fun b₁ a₁ ha₁ => hf b₁ a₁ (List.mem_cons_of_mem _ ha₁)

theorem ite {c : Prop} [Decidable c] {n : StateT σ (Except ε) α} (ht : c → Yields E m Q)
    (hf : ¬ c → Yields E n Q) : Yields E (if c then m else n) Q := by
  split
  · exact ht ‹_›
  · exact hf ‹_›

theorem modify {f : σ → σ} {Q : PUnit → Prop} (h : Q ⟨⟩) :
    Yields E (modify f : StateT σ (Except ε) PUnit) Q := fun _ => h

end Yields
