import HyperCommander.Compare.Text
import HyperCommander.Lib.EditGraph
import HyperCommander.Lib.Slice
import Mathlib.Data.List.Chain

/-!
# Edit scripts (`Edit`, `Apply`)

An `Edit` replaces the lines `[begin_, end_)` of the left text by the lines
`[otherBegin, otherEnd)` of the right one. `IsScript` is the canonical shape that the merge and
the alignment code assume: ordered edits, none of them empty, at least one line between two of
them, and equal lines wherever no edit is.

Every engine builds its edits front to back and may widen the newest one. `Built` follows that:
the edits so far (newest first) and the cursor on both sides. A finished script is one
(`Built.isScript`), and what `Apply` makes of it is the right text (`apply_yields`).
-/

namespace Hc.Compare

open List EditGraph Slice

/-- `Edit`. -/
structure Edit where
  begin_ : Nat
  end_ : Nat
  otherBegin : Nat
  otherEnd : Nat
  replacement : Bytes
deriving DecidableEq, Repr

/-- `left[i]`. -/
def lineAt (text : List Line) (i : Nat) : Line := text.getD i []

/-- `append(Out, Text, Begin, End)`: the bytes of the lines `[Begin, End)`. -/
def append (text : List Line) (begin_ end_ : Nat) : Bytes := (slice text begin_ end_).flatten

/-- The lines that an edit deletes and inserts. -/
def Edit.size (e : Edit) : Nat := (e.end_ - e.begin_) + (e.otherEnd - e.otherBegin)

/-- The deleted and inserted lines of a script. -/
def scriptSize (edits : List Edit) : Nat := (edits.map Edit.size).sum

/-- The bytes that an edit carries for its right lines; none where the budget asks for ranges
only. -/
def replacementOf (rangesOnly : Bool) (right : List Line) (begin_ end_ : Nat) : Bytes :=
  if rangesOnly then [] else append right begin_ end_

/-- The lines from `(a, b)` to `(a', b')` are pairwise equal. -/
def Same (left right : List Line) (a b a' b' : Nat) : Prop :=
  ∃ k, a' = a + k ∧ b' = b + k ∧ ∀ i < k, Matches left right (a + i) (b + i)

/-- The edits in order lead from the lines `(a, b)` to the ends of both texts, with equal lines
before, between and after them. -/
def Covers (left right : List Line) : Nat → Nat → List Edit → Prop
  | a, b, [] => Same left right a b left.length right.length
  | a, b, e :: es =>
    Same left right a b e.begin_ e.otherBegin ∧ Covers left right e.end_ e.otherEnd es

/-- The canonical edit scripts from the left to the right lines. -/
structure IsScript (left right : List Line) (edits : List Edit) : Prop where
  /-- Increasing on both sides, with at least one line in between on both sides. -/
  separated : edits.IsChain fun e f => e.end_ < f.begin_ ∧ e.otherEnd < f.otherBegin
  ordered : ∀ e ∈ edits, e.begin_ ≤ e.end_ ∧ e.otherBegin ≤ e.otherEnd
  nonempty : ∀ e ∈ edits, e.begin_ < e.end_ ∨ e.otherBegin < e.otherEnd
  inside : ∀ e ∈ edits, e.end_ ≤ left.length ∧ e.otherEnd ≤ right.length
  /-- Lines outside the edits are equal on both sides. -/
  covers : Covers left right 0 0 edits

/-! ## Applying a script -/

/-- The loop of `Apply` from line `cursor`. -/
def applyFrom (lines : List Line) (cursor : Nat) : List Edit → Run Bytes
  | [] => pure (append lines cursor lines.length)
  | e :: es => do
    throwIf (e.begin_ < cursor ∨ e.end_ < e.begin_ ∨ e.end_ > lines.length) "InvalidEdit"
    let rest ← applyFrom lines e.end_ es
    pure (append lines cursor e.begin_ ++ e.replacement ++ rest)

/-- `Apply`. Its budget is a default one: only the clock can interrupt it. -/
def apply (expired : Nat → Bool) (base : Bytes) (edits : List Edit) : Run Bytes := do
  let lines ← splitLines (Budget.unattended expired) base
  applyFrom lines 0 edits

section Same

variable {left right : List Line} {a b a' b' c d : Nat}

theorem Same.refl (a b : Nat) : Same left right a b a b := ⟨0, rfl, rfl, fun _ h => by omega⟩

theorem Same.trans (h : Same left right a b a' b') (h' : Same left right a' b' c d) :
    Same left right a b c d := by
  obtain ⟨k, rfl, rfl, hk⟩ := h
  obtain ⟨j, rfl, rfl, hj⟩ := h'
  refine ⟨k + j, by omega, by omega, fun i hi => ?_⟩
  rcases Nat.lt_or_ge i k with h | h
  · exact hk i h
  · have := hj (i - k) (by omega)
    rwa [show a + k + (i - k) = a + i by omega, show b + k + (i - k) = b + i by omega] at this

theorem Same.single (h : Matches left right a b) : Same left right a b (a + 1) (b + 1) :=
  ⟨1, rfl, rfl, fun i hi => by obtain rfl : i = 0 := (by omega); exact h⟩

theorem Same.slice_eq (h : Same left right a b a' b') : slice left a a' = slice right b b' := by
  obtain ⟨k, rfl, rfl, hk⟩ := h
  apply ext_getElem?
  intro i
  rcases Nat.lt_or_ge i k with hi | hi
  · obtain ⟨x, h1, h2⟩ := hk i hi
    rw [getElem?_slice (by omega), getElem?_slice (by omega), h1, h2]
  · rw [getElem?_slice_of_le (by omega), getElem?_slice_of_le (by omega)]

theorem Same.le (h : Same left right a b a' b') : a ≤ a' ∧ b ≤ b' ∧ a' - a = b' - b := by
  obtain ⟨k, rfl, rfl, -⟩ := h
  omega

end Same

/-- Applying a script gives the right text, byte for byte. -/
theorem applyFrom_yields {E : Failure → Prop} {left right : List Line} {edits : List Edit}
    {a b : Nat} (hc : Covers left right a b edits)
    (ho : ∀ e ∈ edits, e.begin_ ≤ e.end_ ∧ e.otherBegin ≤ e.otherEnd)
    (hi : ∀ e ∈ edits, e.end_ ≤ left.length ∧ e.otherEnd ≤ right.length)
    (hr : ∀ e ∈ edits, e.replacement = append right e.otherBegin e.otherEnd) :
    Yields E (applyFrom left a edits) fun out => out = append right b right.length := by
  induction edits generalizing a b with
  | nil =>
    refine .pure ?_
    unfold append
    rw [hc.slice_eq]
  | cons e es ih =>
    obtain ⟨hs, hc⟩ := hc
    have ho' := ho e (mem_cons_self ..)
    have hi' := hi e (mem_cons_self ..)
    refine (throwIf_yields fun h => ?_).bind fun _ _ => ?_
    · exact absurd h (by have := hs.le; omega)
    refine (ih hc (fun f hf => ho f (mem_cons_of_mem _ hf))
      (fun f hf => hi f (mem_cons_of_mem _ hf))
      (fun f hf => hr f (mem_cons_of_mem _ hf))).bind fun rest hrest => .pure ?_
    rw [hrest, hr e (mem_cons_self ..)]
    unfold append
    rw [hs.slice_eq, ← flatten_append, ← flatten_append,
      slice_append hs.le.2.1 ho'.2, slice_append (by have := hs.le; omega) hi'.2]

/-- `Apply` on lines within the default line limit: only the clock can keep it from returning
the right text. -/
theorem apply_yields {left right : Bytes} {edits : List Edit} (expired : Nat → Bool)
    (h : IsScript (lines left) (lines right) edits)
    (hr : ∀ e ∈ edits, e.replacement = append (lines right) e.otherBegin e.otherEnd)
    (hl : (lines left).length ≤ defaultMaxLines) (hb : left.length ≤ sizeMax) :
    Yields (fun e => e = ⟨"Timeout"⟩ ∧ ∃ t, expired t) (apply expired left edits)
      fun out => out = right := by
  refine (splitLines_yields (fun e => Budget.unattended_outside) (fun h => absurd hl (by omega))
    fun h => absurd hb (by omega)).bind fun ls hls => ?_
  rw [hls.1]
  refine (applyFrom_yields h.covers h.ordered h.inside hr).weaken fun out ho => ?_
  rw [ho, append, slice_full, lines_flatten]

/-! ## Scripts under construction -/

/-- The edits so far, newest first, and the cursor on both sides. -/
inductive Built (rangesOnly : Bool) (left right : List Line) : List Edit → Nat → Nat → Prop
  | start : Built rangesOnly left right [] 0 0
  | keep {es a b} (h : Built rangesOnly left right es a b) (hm : Matches left right a b) :
    Built rangesOnly left right es (a + 1) (b + 1)
  | edit {es e} (h : Built rangesOnly left right es e.begin_ e.otherBegin)
    (gap : ∀ f ∈ es.head?, f.end_ < e.begin_ ∧ f.otherEnd < e.otherBegin)
    (ordered : e.begin_ ≤ e.end_ ∧ e.otherBegin ≤ e.otherEnd)
    (nonempty : e.begin_ < e.end_ ∨ e.otherBegin < e.otherEnd)
    (inside : e.end_ ≤ left.length ∧ e.otherEnd ≤ right.length)
    (bytes : e.replacement = replacementOf rangesOnly right e.otherBegin e.otherEnd) :
    Built rangesOnly left right (e :: es) e.end_ e.otherEnd

namespace Built

variable {ro : Bool} {left right : List Line} {es : List Edit} {e : Edit} {a b a' b' : Nat}

theorem keep_same (h : Built ro left right es a b) (hs : Same left right a b a' b') :
    Built ro left right es a' b' := by
  obtain ⟨k, rfl, rfl, hk⟩ := hs
  induction k with
  | zero => exact h
  | succ k ih => exact (ih fun i hi => hk i (by omega)).keep (hk k (by omega))

/-- Since the newest edit the cursor passed equally many lines on both sides. -/
theorem cursor (h : Built ro left right (e :: es) a b) :
    ∃ k, a = e.end_ + k ∧ b = e.otherEnd + k := by
  generalize hl : e :: es = l at h
  induction h with
  | start => cases hl
  | keep h hm ih =>
    obtain ⟨k, rfl, rfl⟩ := ih hl
    exact ⟨k + 1, rfl, rfl⟩
  | edit => cases hl; exact ⟨0, rfl, rfl⟩

/-- A new edit at the cursor, not touching the newest one. -/
theorem push (h : Built ro left right es a b)
    (hgap : ∀ f ∈ es.head?, ¬ (f.end_ = a ∧ f.otherEnd = b)) (ha : a ≤ a') (hb : b ≤ b')
    (hne : a < a' ∨ b < b') (ha' : a' ≤ left.length) (hb' : b' ≤ right.length) :
    Built ro left right (⟨a, a', b, b', replacementOf ro right b b'⟩ :: es) a' b' := by
  refine Built.edit (e := ⟨a, a', b, b', _⟩) h (fun f hf => ?_) ⟨ha, hb⟩ hne ⟨ha', hb'⟩ rfl
  cases es with
  | nil => cases hf
  | cons g es =>
    cases hf
    obtain ⟨k, hk, hk'⟩ := h.cursor
    have := hgap f rfl
    simp only at hk hk' ⊢
    omega

theorem replacementOf_append {b b' c : Nat} (h : b ≤ b') (h' : b' ≤ c) :
    replacementOf ro right b b' ++ replacementOf ro right b' c = replacementOf ro right b c := by
  unfold replacementOf append
  split
  · rfl
  · rw [← flatten_append, slice_append h h']

/-- The newest edit, when the cursor is at its end, grows. -/
theorem widen (h : Built ro left right (e :: es) a b) (hend : e.end_ = a ∧ e.otherEnd = b)
    (ha : a ≤ a') (hb : b ≤ b') (ha' : a' ≤ left.length) (hb' : b' ≤ right.length) :
    Built ro left right
      ({ e with
        end_ := a'
        otherEnd := b'
        replacement := e.replacement ++ replacementOf ro right b b' } :: es) a' b' := by
  generalize hl : e :: es = l at h
  cases h with
  | start => cases hl
  | keep h hm =>
    subst hl
    obtain ⟨k, hk, -⟩ := h.cursor
    omega
  | edit h gap ordered nonempty inside bytes =>
    cases hl
    refine Built.edit (e := ⟨e.begin_, a', e.otherBegin, b', _⟩) h gap
      ⟨by simp only; omega, by simp only; omega⟩
      (by simp only; omega) ⟨ha', hb'⟩ ?_
    simp only [bytes]
    exact replacementOf_append ordered.2 hb

theorem covers (h : Built ro left right es a b) (rest : List Edit)
    (hr : Covers left right a b rest) : Covers left right 0 0 (es.reverse ++ rest) := by
  induction h generalizing rest with
  | start => exact hr
  | @keep es a b h hm ih =>
    refine ih _ ?_
    cases rest with
    | nil => exact (Same.single hm).trans hr
    | cons f rest => exact ⟨(Same.single hm).trans hr.1, hr.2⟩
  | @edit es e h gap ordered nonempty inside bytes ih =>
    rw [reverse_cons, append_assoc]
    exact ih _ ⟨Same.refl _ _, hr⟩

theorem forall_edit (h : Built ro left right es a b) : ∀ e ∈ es,
    (e.begin_ ≤ e.end_ ∧ e.otherBegin ≤ e.otherEnd) ∧
    (e.begin_ < e.end_ ∨ e.otherBegin < e.otherEnd) ∧
    (e.end_ ≤ left.length ∧ e.otherEnd ≤ right.length) ∧
    e.replacement = replacementOf ro right e.otherBegin e.otherEnd := by
  induction h with
  | start => intro e he; cases he
  | keep h hm ih => exact ih
  | edit h gap ordered nonempty inside bytes ih =>
    intro f hf
    rcases mem_cons.mp hf with rfl | hf
    · exact ⟨ordered, nonempty, inside, bytes⟩
    · exact ih f hf

theorem separated (h : Built ro left right es a b) :
    es.IsChain fun f e => e.end_ < f.begin_ ∧ e.otherEnd < f.otherBegin := by
  induction h with
  | start => exact List.IsChain.nil
  | keep h hm ih => exact ih
  | @edit es e h gap ordered nonempty inside bytes ih =>
    cases es with
    | nil => exact List.IsChain.singleton _
    | cons f es => exact List.IsChain.cons_cons (gap f rfl) ih

/-- A script whose cursor is at the end of both texts is canonical. -/
theorem isScript (h : Built ro left right es left.length right.length) :
    IsScript left right es.reverse where
  separated := by
    rw [isChain_reverse]
    exact h.separated
  ordered e he := (h.forall_edit e (mem_reverse.mp he)).1
  nonempty e he := (h.forall_edit e (mem_reverse.mp he)).2.1
  inside e he := (h.forall_edit e (mem_reverse.mp he)).2.2.1
  covers := by
    have := h.covers [] (Same.refl _ _)
    rwa [append_nil] at this

end Built

end Hc.Compare
