import Mathlib.Algebra.Order.Ring.Int
import Mathlib.Data.List.Basic

/-!
# Cutting a stream of words

A text is written word by word, one for each letter. A reader that gets the stream in pieces does
not know where the words end, so it keeps back what may be the beginning of one.

* `exists_last`: the last word that a prefix of a stream touches.
* `HoldsBack.split`: a reader that keeps back a part of a word cuts the stream between two letters.
-/

namespace Words

open List

variable {α γ : Type*} {w : γ → List α} {cut : List α → Nat} {cs : List γ} {s rest : List α}

/-- The last word that a prefix of the stream touches, and how much of it. -/
theorem exists_last (h : cs.flatMap w = s ++ rest) (hs : s ≠ []) : ∃ ds c es v,
    cs = ds ++ c :: es ∧ s = ds.flatMap w ++ v ∧ v ≠ [] ∧ v <+: w c := by
  induction cs generalizing s with
  | nil =>
    rw [flatMap_nil] at h
    exact absurd (append_eq_nil_iff.mp h.symm).1 hs
  | cons c cs ih =>
    rw [flatMap_cons] at h
    rcases append_eq_append_iff.mp h with ⟨t, hst, ht⟩ | ⟨t, hwt, -⟩
    · -- The prefix has all of the first word.
      by_cases htn : t = []
      · subst htn
        rw [append_nil] at hst
        exact ⟨[], c, cs, s, rfl, rfl, hs, hst ▸ prefix_rfl⟩
      · obtain ⟨ds, d, es, v, rfl, rfl, hv, hvd⟩ := ih ht htn
        refine ⟨c :: ds, d, es, v, rfl, ?_, hv, hvd⟩
        rw [hst, flatMap_cons, append_assoc]
    · exact ⟨[], c, cs, s, rfl, rfl, hs, t, hwt.symm⟩

/-- Of a stream that ends inside of a word, all but the part of that word is taken. -/
structure HoldsBack (w : γ → List α) (cut : List α → Nat) : Prop where
  whole : ∀ (ds : List γ) c, w c ≠ [] → cut (ds.flatMap w ++ w c) = (ds.flatMap w ++ w c).length
  part : ∀ (ds : List γ) c v, v ≠ [] → v <+: w c → v ≠ w c →
    cut (ds.flatMap w ++ v) = (ds.flatMap w).length

theorem HoldsBack.congr (hw : HoldsBack w cut) {cut' : List α → Nat}
    (h : ∀ s ≠ [], cut' s = cut s) :
    HoldsBack w cut' where
  whole ds c hc := by
    rw [h _ (append_ne_nil_of_right_ne_nil _ hc)]
    exact hw.whole ds c hc
  part ds c v hv hvc hne := by
    rw [h _ (append_ne_nil_of_right_ne_nil _ hv)]
    exact hw.part ds c v hv hvc hne

/-- The stream is cut between two letters. -/
theorem HoldsBack.split (hw : HoldsBack w cut) (h : cs.flatMap w = s ++ rest) : ∃ ds es,
    cs = ds ++ es ∧ ds.flatMap w = s.take (cut s) ∧ es.flatMap w = s.drop (cut s) ++ rest := by
  have hsplit : ∀ ds es, cs = ds ++ es → ds.flatMap w = s.take (cut s) →
      es.flatMap w = s.drop (cut s) ++ rest := by
    rintro ds es rfl hds
    rw [flatMap_append, hds] at h
    refine append_cancel_left (h.trans ?_)
    rw [← append_assoc, take_append_drop]
  by_cases hs : s = []
  · subst hs
    have hnil : ([] : List γ).flatMap w = ([] : List α).take (cut []) := take_nil.symm
    exact ⟨[], cs, rfl, hnil, hsplit [] cs rfl hnil⟩
  obtain ⟨ds, c, es, v, rfl, rfl, hv, hvc⟩ := exists_last h hs
  by_cases hvw : v = w c
  · subst hvw
    have hcut := hw.whole ds c hv
    have hds : (ds ++ [c]).flatMap w = (ds.flatMap w ++ w c).take (cut (ds.flatMap w ++ w c)) := by
      rw [hcut, take_length, flatMap_append, flatMap_singleton]
    exact ⟨ds ++ [c], es, by simp, hds, hsplit _ _ (by simp) hds⟩
  · have hcut := hw.part ds c v hv hvc hvw
    have hds : ds.flatMap w = (ds.flatMap w ++ v).take (cut (ds.flatMap w ++ v)) := by
      rw [hcut, take_left]
    exact ⟨ds, c :: es, rfl, hds, hsplit _ _ rfl hds⟩

end Words
