import HyperCommander.Lib.Slice

/-!
# Texts cut into gaps and pieces

A text is a list of gaps with a piece behind each of them, and a tail. `spans` are the ranges of the
pieces. Replacing a piece in place (`splice_render`) and writing the text anew with the piece
replaced come to the same, and the ranges behind it move by the difference in length (`spans_put`).
-/

namespace Segments

open List Slice

variable {α : Type*}

/-- The text of the gaps and pieces, with the tail. -/
def render (tail : List α) : List (List α × List α) → List α
  | [] => tail
  | s :: rest => s.1 ++ s.2 ++ render tail rest

/-- The range of every piece, from position `at_` on. -/
def spans (at_ : Nat) : List (List α × List α) → List (Nat × Nat)
  | [] => []
  | s :: rest => (at_ + s.1.length, at_ + s.1.length + s.2.length) ::
      spans (at_ + s.1.length + s.2.length) rest

/-- The piece `i` replaced. -/
def put (segs : List (List α × List α)) (i : Nat) (new : List α) : List (List α × List α) :=
  segs.modify i fun s => (s.1, new)

/-- The ranges lie behind one another. -/
def Ordered : (at_ : Nat) → List (Nat × Nat) → Prop
  | _, [] => True
  | at_, p :: rest => at_ ≤ p.1 ∧ p.1 ≤ p.2 ∧ Ordered p.2 rest

/-- The gaps and pieces that the ranges cut from the text behind `at_`. -/
def cut (text : List α) (at_ : Nat) : List (Nat × Nat) → List (List α × List α)
  | [] => []
  | p :: rest => (slice text at_ p.1, slice text p.1 p.2) :: cut text p.2 rest

/-- The end of the last range. -/
def endOf (at_ : Nat) : List (Nat × Nat) → Nat
  | [] => at_
  | p :: rest => endOf p.2 rest

variable {segs : List (List α × List α)} {text tail new : List α} {at_ b e i : Nat}

theorem length_spans (at_ : Nat) (segs : List (List α × List α)) :
    (spans at_ segs).length = segs.length := by
  induction segs generalizing at_ with
  | nil => rfl
  | cons s segs ih => simp [spans, ih]

theorem render_tail (tail : List α) (segs : List (List α × List α)) :
    render tail segs = render [] segs ++ tail := by
  induction segs with
  | nil => rfl
  | cons s segs ih => rw [render, render, ih, append_assoc _ _ tail]

theorem render_concat (tail gap piece : List α) (segs : List (List α × List α)) :
    render tail (segs ++ [(gap, piece)]) = render (gap ++ piece ++ tail) segs := by
  induction segs with
  | nil => rfl
  | cons s segs ih => rw [cons_append, render, render, ih]

theorem spans_concat (at_ : Nat) (gap piece : List α) (segs : List (List α × List α)) :
    spans at_ (segs ++ [(gap, piece)]) = spans at_ segs ++
      [(at_ + (render gap segs).length, at_ + (render (gap ++ piece) segs).length)] := by
  induction segs generalizing at_ with
  | nil => simp [spans, render, Nat.add_assoc]
  | cons s segs ih =>
    rw [cons_append, spans, ih, spans, render, render]
    simp [Nat.add_assoc]

theorem ordered_spans (at_ : Nat) (segs : List (List α × List α)) :
    Ordered at_ (spans at_ segs) := by
  induction segs generalizing at_ with
  | nil => trivial
  | cons s segs ih => exact ⟨Nat.le_add_right _ _, Nat.le_add_right _ _, ih _⟩

variable {ps : List (Nat × Nat)}

theorem Ordered.mono {a : Nat} (h : Ordered at_ ps) (ha : a ≤ at_) :
    Ordered a ps := by
  cases ps with
  | nil => trivial
  | cons p ps => exact ⟨ha.trans h.1, h.2⟩

theorem Ordered.mem (h : Ordered at_ ps) : ∀ p ∈ ps, at_ ≤ p.1 ∧ p.1 ≤ p.2 := by
  induction ps generalizing at_ with
  | nil => exact fun p hp => by cases hp
  | cons q ps ih =>
    intro p hp
    rcases mem_cons.mp hp with rfl | hp
    · exact ⟨h.1, h.2.1⟩
    · exact ih (h.2.2.mono (h.1.trans h.2.1)) p hp

/-- The ranges behind one of them. -/
theorem Ordered.drop_cons {qs : List (Nat × Nat)} {p : Nat × Nat}
    (h : Ordered at_ (ps ++ p :: qs)) : Ordered p.2 qs := by
  induction ps generalizing at_ with
  | nil => exact h.2.2
  | cons q ps ih => exact ih h.2.2

/-- Replacing the range of a piece in the text puts the new piece there. -/
theorem splice_render (h : (spans at_ segs)[i]? = some (b, e)) {before : List α}
    (hb : before.length = at_) :
    splice (before ++ render tail segs) b (e - b) new = before ++ render tail (put segs i new) := by
  induction segs generalizing i at_ before with
  | nil => cases h
  | cons s segs ih =>
    cases i with
    | zero =>
      obtain ⟨rfl, rfl⟩ := Prod.mk.inj (Option.some.inj h)
      rw [put, modify_zero_cons, render, render, ← hb, splice]
      rw [show before.length + s.1.length = (before ++ s.1).length by simp,
        show before ++ (s.1 ++ s.2 ++ render tail segs) =
          (before ++ s.1) ++ (s.2 ++ render tail segs) by simp, take_left,
        Nat.add_sub_cancel_left, ← drop_drop, drop_left, drop_left]
      simp
    | succ i =>
      rw [spans, getElem?_cons_succ] at h
      have hb' : (before ++ s.1 ++ s.2).length = at_ + s.1.length + s.2.length := by
        rw [length_append, length_append, hb]
      have ih := ih h hb'
      rw [put, modify_succ_cons, render, render, ← put]
      simpa using ih

/-- The range of a piece in the text. -/
theorem slice_render {s : List α × List α} (h : (spans at_ segs)[i]? = some (b, e))
    (hs : segs[i]? = some s) {before : List α} (hb : before.length = at_) :
    slice (before ++ render tail segs) b e = s.2 ∧ e ≤ (before ++ render tail segs).length := by
  induction segs generalizing i at_ before with
  | nil => cases h
  | cons t segs ih =>
    cases i with
    | zero =>
      obtain ⟨rfl, rfl⟩ := Prod.mk.inj (Option.some.inj h)
      obtain rfl := Option.some.inj hs
      rw [render, ← hb, slice, Nat.add_sub_cancel_left]
      refine ⟨?_, by simp; omega⟩
      rw [← drop_drop, drop_left, append_assoc, drop_left, take_left]
    | succ i =>
      rw [spans, getElem?_cons_succ] at h
      have hb' : (before ++ t.1 ++ t.2).length = at_ + t.1.length + t.2.length := by
        rw [length_append, length_append, hb]
      have ih := ih h hs hb'
      rw [render]
      simpa using ih

/-- The ranges behind the replaced piece move. -/
theorem spans_put (h : (spans at_ segs)[i]? = some (b, e)) (new : List α) :
    spans at_ (put segs i new) = (spans at_ segs).take i ++ (b, b + new.length) ::
      ((spans at_ segs).drop (i + 1)).map fun p => (p.1 - (e - b) + new.length,
        p.2 - (e - b) + new.length) := by
  induction segs generalizing i at_ with
  | nil => cases h
  | cons s segs ih =>
    cases i with
    | zero =>
      obtain ⟨rfl, rfl⟩ := Prod.mk.inj (Option.some.inj h)
      rw [put, modify_zero_cons, spans, spans, take_zero, nil_append,
        drop_succ_cons, drop_zero]
      refine congrArg _ ?_
      have hshift : ∀ (segs : List (List α × List α)) (a d : Nat), d ≤ a →
          spans (a - d + new.length) segs =
            (spans a segs).map fun p => (p.1 - d + new.length, p.2 - d + new.length) := by
        intro segs
        induction segs with
        | nil => exact fun _ _ _ => rfl
        | cons t segs ih =>
          intro a d had
          rw [spans, spans, map_cons, ← ih _ _ (by omega)]
          congr 1
          · exact Prod.ext (by simp only; omega) (by simp only; omega)
          · congr 1
            omega
      rw [← hshift _ _ _ (by omega)]
      congr 1
      simp only
      omega
    | succ i =>
      rw [spans, getElem?_cons_succ] at h
      rw [put, modify_succ_cons, spans, spans, take_succ_cons, drop_succ_cons,
        cons_append, ← put, ih h]

theorem le_endOf (h : Ordered at_ ps) : at_ ≤ endOf at_ ps := by
  induction ps generalizing at_ with
  | nil => exact Nat.le_refl _
  | cons p ps ih => exact (h.1.trans h.2.1).trans (ih h.2.2)

/-- Cutting a text at ordered ranges and putting it together again. -/
theorem render_cut (h : Ordered at_ ps) :
    render (text.drop (endOf at_ ps)) (cut text at_ ps) = text.drop at_ := by
  induction ps generalizing at_ with
  | nil => rfl
  | cons p ps ih =>
    have hdrop : slice text at_ p.2 ++ text.drop p.2 = text.drop at_ := by
      rw [slice, show text.drop p.2 = (text.drop at_).drop (p.2 - at_) by
        rw [drop_drop, show at_ + (p.2 - at_) = p.2 from
          Nat.add_sub_cancel' (h.1.trans h.2.1)], take_append_drop]
    rw [cut, render, endOf, ih h.2.2, slice_append h.1 h.2.1, hdrop]

theorem spans_cut (h : Ordered at_ ps) (he : endOf at_ ps ≤ text.length) :
    spans at_ (cut text at_ ps) = ps := by
  induction ps generalizing at_ with
  | nil => rfl
  | cons p ps ih =>
    have hend : p.2 ≤ text.length := (le_endOf h.2.2).trans he
    rw [cut, spans]
    simp only [length_slice (h.2.1.trans hend), length_slice hend]
    rw [Nat.add_sub_cancel' h.1, Nat.add_sub_cancel' h.2.1, ih h.2.2 he]

/-- Which pieces are replaced, not the order in which it is done, tells what the pieces are then. -/
theorem getElem?_foldl_put (order : List Nat) (new : Nat → List α) (segs : List (List α × List α))
    (j : Nat) : (order.foldl (fun s i => put s i (new i)) segs)[j]? =
      if j ∈ order then segs[j]?.map fun s => (s.1, new j) else segs[j]? := by
  induction order generalizing segs with
  | nil => rfl
  | cons i order ih =>
    rw [foldl_cons, ih, put, getElem?_modify]
    by_cases hij : i = j
    · subst hij
      rw [if_pos mem_cons_self]
      cases segs[i]? <;> simp
    · have hmem : j ∈ i :: order ↔ j ∈ order := by simp [Ne.symm hij]
      simp only [if_neg hij, hmem, Option.map_eq_map, Option.map_id']

end Segments
