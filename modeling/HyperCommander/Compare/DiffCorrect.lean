import HyperCommander.Compare.DiffLemmas

/-!
# `Diff` is exact and minimal

* `diff_isScript_apply`: the edits are a canonical script, and `Apply` turns the left text into
  the right one. `Apply` counts the lines again under the default limit, which `Diff` does not do
  for equal texts; `diff_apply_lineLimit` is the text where this shows.
* `diff_minimal`: the edits delete and insert as few lines as any script.
-/

namespace Hc.Compare

open List EditGraph Lcs

section Exact

variable {limits : Budget} {lib : Library} {left right : Bytes} {edits : List Edit} {w w' : Work}

/-- What `Diff` returns is a canonical script; with its replacements, `Apply` makes the right text
of the left one, byte for byte, unless its own clock runs out. The left text is within the line
limit whenever the texts differ. `sizeMax` bounds every string of the source. -/
theorem diff_isScript_apply (h : (diff limits lib left right).run w = .ok (edits, w')) :
    IsScript (lines left) (lines right) edits ∧
    (left ≠ right → (lines left).length ≤ defaultMaxLines) ∧
    (limits.rangesOnly = false → (lines left).length ≤ defaultMaxLines → left.length ≤ sizeMax →
      ∀ expired, Yields (fun e => e = ⟨"Timeout"⟩ ∧ ∃ t, expired t) (apply expired left edits)
        fun out => out = right) := by
  obtain ⟨⟨hb, -⟩, hlimit⟩ := (diff_yields limits lib left right).of_ok h
  have hs : IsScript (lines left) (lines right) edits := by
    have := hb.isScript
    rwa [reverse_reverse] at this
  refine ⟨hs, fun hne => by have := hlimit hne; omega, fun hro hl hsize expired => ?_⟩
  refine apply_yields expired hs (fun e he => ?_) hl hsize
  have := (hb.forall_edit e (mem_reverse.mpr he)).2.2.2
  rw [this, replacementOf, hro]
  rfl

/-- As many lines are deleted and inserted as a longest common subsequence leaves over, on any
path; so two budgets agree on the size of a difference. -/
theorem diff_minimal (h : (diff limits lib left right).run w = .ok (edits, w')) :
    scriptSize edits + 2 * lcs (lines left) (lines right) =
      (lines left).length + (lines right).length ∧
    ∀ limits₂ lib₂ w₂ edits₂ w₂', (diff limits₂ lib₂ left right).run w₂ = .ok (edits₂, w₂') →
      scriptSize edits₂ = scriptSize edits := by
  have hsize := ((diff_yields limits lib left right).of_ok h).1.2
  refine ⟨?_, fun limits₂ lib₂ w₂ edits₂ w₂' h₂ => ?_⟩
  · rw [hsize, distance_add_lcs]
  · rw [hsize, ((diff_yields limits₂ lib₂ left right).of_ok h₂).1.2]

end Exact

/-- A library for runs on fixed inputs. -/
def plainLibrary : Library := ⟨fun line => line.foldl (fun h c => 31 * h + c.toNat) 7, fun n _ => n⟩

theorem diff_run_abc : (diff .unlimited plainLibrary [97, 10, 98, 10] [98, 10, 99, 10]).run {} =
    .ok ([⟨0, 1, 0, 0, []⟩, ⟨2, 2, 1, 2, [99, 10]⟩], ⟨8, 27⟩) := by decide +kernel

theorem diff_isScript_apply_abc :
    IsScript (lines [97, 10, 98, 10]) (lines [98, 10, 99, 10])
      [⟨0, 1, 0, 0, []⟩, ⟨2, 2, 1, 2, [99, 10]⟩] ∧
    (lines [97, 10, 98, 10]).length ≤ defaultMaxLines ∧
    ∀ expired, Yields (fun e => e = ⟨"Timeout"⟩ ∧ ∃ t, expired t)
      (apply expired [97, 10, 98, 10] [⟨0, 1, 0, 0, []⟩, ⟨2, 2, 1, 2, [99, 10]⟩])
      fun out => out = [98, 10, 99, 10] :=
  have h := diff_isScript_apply diff_run_abc
  ⟨h.1, h.2.1 (by decide), h.2.2 rfl (by decide) (by decide)⟩

theorem diff_minimal_abc :
    scriptSize [⟨0, 1, 0, 0, []⟩, ⟨2, 2, 1, 2, [99, 10]⟩] +
      2 * lcs (lines [97, 10, 98, 10]) (lines [98, 10, 99, 10]) = 4 :=
  (diff_minimal diff_run_abc).1

theorem lines_replicate_lf (n : Nat) : lines (List.replicate n lf) = List.replicate n [lf] := by
  unfold lines
  induction n with
  | zero => rfl
  | succ n ih =>
    cases n with
    | zero => rfl
    | succ n =>
      rw [replicate_succ] at ih ⊢
      rw [replicate_succ, linesFrom, if_neg (by decide), if_pos (by decide), ih]
      rfl

/-- Beyond the line limit `Apply` fails. -/
theorem apply_lineLimit {base : Bytes} (edits : List Edit) (w : Work)
    (hl : defaultMaxLines < (lines base).length) (hb : base.length ≤ sizeMax) :
    (apply (fun _ => false) base edits).run w = .error ⟨"LineLimit"⟩ := by
  have hy : Yields (fun e => e = ⟨"LineLimit"⟩) (apply (fun _ => false) base edits)
      fun _ => False := by
    refine (splitLines_yields (E := fun e => e = ⟨"LineLimit"⟩) (fun e he => ?_)
      (fun _ => rfl) fun h => absurd hb (Nat.not_le.mpr h)).bind fun ls hls => ?_
    swap
    · rw [hls.1] at hls
      exact absurd hls.2 (Nat.not_le.mpr hl)
    obtain ⟨-, t, ht⟩ := Budget.unattended_outside he
    cases ht
  rcases hr : (apply (fun _ => false) base edits).run w with e | ⟨out, w'⟩
  · rw [hy.of_error hr]
  · exact (hy.of_ok hr).elim

theorem diff_apply_lineLimit :
    (diff .unlimited plainLibrary (List.replicate 2000001 lf) (List.replicate 2000001 lf)).run {} =
      .ok ([], ⟨0, 1⟩) ∧
    (apply (fun _ => false) (List.replicate 2000001 lf) []).run {} = .error ⟨"LineLimit"⟩ := by
  constructor
  · rw [diff]
    simp only [if_true]
    rfl
  · refine apply_lineLimit [] {} ?_ ?_
    · rw [lines_replicate_lf, length_replicate]; decide
    · rw [length_replicate]; decide

end Hc.Compare
