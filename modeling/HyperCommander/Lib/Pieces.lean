import HyperCommander.Lib.Slice

/-!
# Piece tables

A text is a list of pieces, each a range of a backing store that never changes. `content` is the
text. Cutting a range out of the table (`cut`) and putting pieces together with neighbours joined
(`push`) move no bytes; `content_cut` and `content_push` say what they do to the text.
-/

namespace Pieces

open List Slice

/-- A range of a backing store. -/
structure Piece (β : Type*) where
  backing : β
  begin_ : Nat
  bytes : Nat
deriving DecidableEq, Repr

variable {α β : Type*} (disk : β → List α)

/-- The text of a piece. -/
def Piece.text (p : Piece β) : List α := slice (disk p.backing) p.begin_ (p.begin_ + p.bytes)

/-- The piece lies inside of its store. -/
def Piece.Fits (p : Piece β) : Prop := p.begin_ + p.bytes ≤ (disk p.backing).length

/-- The text of a table. -/
def content (ps : List (Piece β)) : List α := ps.flatMap (Piece.text disk)

/-- The pieces of the range `[begin_, end_)`, where the table starts at `offset`. -/
def cut (begin_ end_ : Nat) : (offset : Nat) → List (Piece β) → List (Piece β)
  | _, [] => []
  | offset, p :: rest =>
    let first := max begin_ offset
    let last := min end_ (offset + p.bytes)
    if first < last then
      ⟨p.backing, p.begin_ + first - offset, last - first⟩ ::
        cut begin_ end_ (offset + p.bytes) rest
    else cut begin_ end_ (offset + p.bytes) rest

/-- A piece behind the others, joined with the last one where it goes on in the same store. -/
def push [DecidableEq β] : List (Piece β) → Piece β → List (Piece β)
  | [], p => [p]
  | [q], p =>
    if q.backing = p.backing ∧ q.begin_ + q.bytes = p.begin_ then
      [{ q with bytes := q.bytes + p.bytes }]
    else [q, p]
  | q :: r :: rest, p => q :: push (r :: rest) p

/-- The bytes of the pieces. -/
def size (ps : List (Piece β)) : Nat := (ps.map Piece.bytes).sum

section Lemmas

variable {disk} {ps qs : List (Piece β)} {p q : Piece β} {begin_ end_ offset : Nat}

theorem Piece.Fits.length_text (h : p.Fits disk) : (p.text disk).length = p.bytes := by
  rw [text, length_slice h, Nat.add_sub_cancel_left]

theorem length_content (h : ∀ p ∈ ps, p.Fits disk) : (content disk ps).length = size ps := by
  induction ps with
  | nil => rfl
  | cons p ps ih =>
    rw [content, flatMap_cons, length_append, (h p mem_cons_self).length_text, size,
      map_cons, sum_cons]
    exact congrArg _ (ih fun q hq => h q (mem_cons_of_mem _ hq))

theorem content_append (ps qs : List (Piece β)) :
    content disk (ps ++ qs) = content disk ps ++ content disk qs := flatMap_append

theorem content_cons (p : Piece β) (ps : List (Piece β)) :
    content disk (p :: ps) = p.text disk ++ content disk ps := flatMap_cons

/-- A range of two texts one behind the other. -/
theorem slice_append_text (s t : List α) (a b : Nat) :
    slice (s ++ t) a b = slice s a (min b s.length) ++ slice t (a - s.length) (b - s.length) := by
  unfold slice
  rw [drop_append, take_append, length_drop]
  congr 1
  · rw [take_eq_take_iff, length_drop]
    omega
  · congr 1
    omega

/-- The range cut out of a table is the range of its text. -/
theorem content_cut (h : ∀ p ∈ ps, p.Fits disk) : content disk (cut begin_ end_ offset ps) =
    slice (content disk ps) (begin_ - offset) (end_ - offset) := by
  induction ps generalizing offset with
  | nil => simp [cut, content, slice]
  | cons p ps ih =>
    have hp := (h p mem_cons_self).length_text
    have ih := fun offset => @ih offset fun q hq => h q (mem_cons_of_mem _ hq)
    rw [content_cons, slice_append_text, hp, Nat.sub_sub, Nat.sub_sub]
    unfold cut
    by_cases hlt : max begin_ offset < min end_ (offset + p.bytes)
    · rw [if_pos hlt, content_cons, ih]
      refine congrArg (· ++ _) ?_
      unfold Piece.text
      dsimp only
      rw [slice_slice (by omega)]
      congr 1 <;> omega
    · rw [if_neg hlt, ih]
      have hnil : slice (p.text disk) (begin_ - offset) (min (end_ - offset) p.bytes) = [] := by
        rw [slice, take_eq_nil_iff, drop_eq_nil_iff]
        omega
      rw [hnil, nil_append]

theorem fits_cut (h : ∀ p ∈ ps, p.Fits disk) : ∀ p ∈ cut begin_ end_ offset ps, p.Fits disk := by
  induction ps generalizing offset with
  | nil => exact fun p hp => by cases hp
  | cons q ps ih =>
    have hq : q.begin_ + q.bytes ≤ _ := h q mem_cons_self
    have ih := fun offset => @ih offset fun r hr => h r (mem_cons_of_mem _ hr)
    intro p hp
    unfold cut at hp
    dsimp only at hp
    split at hp
    · rcases mem_cons.mp hp with rfl | hp
      · unfold Piece.Fits
        dsimp only
        omega
      · exact ih _ p hp
    · exact ih _ p hp

/-- What is cut out lies in the stores of the table. -/
theorem exists_of_mem_cut (h : p ∈ cut begin_ end_ offset ps) :
    ∃ q ∈ ps, q.backing = p.backing := by
  induction ps generalizing offset with
  | nil => cases h
  | cons q ps ih =>
    unfold cut at h
    dsimp only at h
    have hrest : p ∈ cut begin_ end_ (offset + q.bytes) ps →
        ∃ r ∈ q :: ps, r.backing = p.backing := by
      intro hp
      obtain ⟨r, hr, hrp⟩ := ih hp
      exact ⟨r, mem_cons_of_mem _ hr, hrp⟩
    split at h
    · rcases mem_cons.mp h with rfl | h
      · exact ⟨q, mem_cons_self, rfl⟩
      · exact hrest h
    · exact hrest h

/-- What is cut out has no empty piece. -/
theorem pos_of_mem_cut (h : p ∈ cut begin_ end_ offset ps) : 0 < p.bytes := by
  induction ps generalizing offset with
  | nil => cases h
  | cons q ps ih =>
    unfold cut at h
    dsimp only at h
    split at h
    · rcases mem_cons.mp h with rfl | h
      · dsimp only
        omega
      · exact ih h
    · exact ih h

variable [DecidableEq β]

/-- Joined or not, a piece behind the others brings its text. -/
theorem content_push (ps : List (Piece β)) (p : Piece β) :
    content disk (push ps p) = content disk ps ++ p.text disk := by
  induction ps with
  | nil => simp [push, content]
  | cons q ps ih =>
    cases ps with
    | nil =>
      unfold push
      by_cases h : q.backing = p.backing ∧ q.begin_ + q.bytes = p.begin_
      · rw [if_pos h]
        simp only [content, flatMap_cons, flatMap_nil, append_nil]
        unfold Piece.text
        rw [← h.1, ← h.2, slice_append (Nat.le_add_right _ _) (Nat.le_add_right _ _), Nat.add_assoc]
      · rw [if_neg h]
        simp [content]
    | cons r rest => rw [push, content_cons, ih, content_cons q, append_assoc]

theorem fits_push (ps : List (Piece β)) (hps : ∀ q ∈ ps, q.Fits disk) (hp : p.Fits disk) :
    ∀ q ∈ push ps p, q.Fits disk := by
  induction ps with
  | nil =>
    intro q hq
    rwa [mem_singleton.mp hq]
  | cons r ps ih =>
    cases ps with
    | nil =>
      intro q hq
      unfold push at hq
      split at hq
      · rename_i h
        rw [mem_singleton.mp hq]
        have hp : p.begin_ + p.bytes ≤ (disk p.backing).length := hp
        unfold Piece.Fits
        dsimp only
        rw [h.1]
        omega
      · rcases mem_cons.mp hq with rfl | hq
        · exact hps _ mem_cons_self
        · rwa [mem_singleton.mp hq]
    | cons s rest =>
      intro q hq
      rcases mem_cons.mp hq with rfl | hq
      · exact hps _ mem_cons_self
      · exact ih (fun t ht => hps t (mem_cons_of_mem _ ht)) q hq

end Lemmas

end Pieces
