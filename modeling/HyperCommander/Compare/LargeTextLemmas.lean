import HyperCommander.Compare.LargeTextSession
import HyperCommander.Compare.MergePlanLemmas

/-!
# What the operations on large texts do

`Holds disk d text` says that the pieces of `d` make `text`. Reading, replacing, appending,
comparing and indexing are each described by it: `replaceLargeText_yields`, `range_yields`,
`appendLargeText_yields`, `equal_yields`, `indexLargeText_yields`.
-/

namespace Hc.Compare

open List Slice Pieces

/-- The pieces of the document make the text. -/
structure Holds (disk : Disk) (d : LargeTextDocument) (text : Bytes) : Prop where
  fits : ∀ p ∈ d.pieces, p.Fits disk
  bytes : d.bytes = text.length
  content : content disk d.pieces = text

theorem Holds.empty (disk : Disk) : Holds disk {} [] where
  fits p hp := by cases hp
  bytes := rfl
  content := rfl

variable {limits : Budget} {disk : Disk} {d e : LargeTextDocument} {s t : Bytes} {a b : Nat}
  {E : Failure → Prop}

theorem check_any : Yields (fun _ => True) limits.check fun _ => True := .any

/-! ## Reading -/

theorem readPart_yields (hE : ∀ e, limits.Outside e → E e) {file : Bytes}
    {fuel at_ remaining : Nat} (hf : remaining ≤ fuel) (hin : at_ + remaining ≤ file.length) :
    Yields E (readPart limits file fuel at_ remaining) fun out =>
      out = slice file at_ (at_ + remaining) := by
  induction fuel generalizing at_ remaining with
  | zero =>
    obtain rfl : remaining = 0 := by omega
    exact .pure (by simp)
  | succ fuel ih =>
    unfold readPart
    by_cases h0 : remaining = 0
    · subst h0
      exact .pure (by simp)
    · rw [if_neg h0]
      have hlen : (slice file at_ (at_ + min remaining chunkBytes)).length =
          min remaining chunkBytes := by
        rw [length_slice (by omega), Nat.add_sub_cancel_left]
      have hpos : 0 < chunkBytes := by decide
      refine (Budget.check_yields hE).skip fun _ =>
        (throwIf_yields fun hnil => ?_).bind fun _ _ => ?_
      · rw [hnil, length_nil] at hlen
        omega
      rw [hlen]
      refine (ih (by omega) (by omega)).bind fun more hm => .pure ?_
      rw [hm, slice_append (by omega) (by omega)]
      congr 1
      omega

theorem visitFrom_yields (hE : ∀ e, limits.Outside e → E e) {ps : List LargeTextPiece}
    {offset : Nat} (h : ∀ p ∈ ps, p.Fits disk) :
    Yields E (visitFrom limits disk a b offset ps) fun out =>
      out = content disk (cut a b offset ps) := by
  induction ps generalizing offset with
  | nil => exact .pure rfl
  | cons p ps ih =>
    have hp : p.begin_ + p.bytes ≤ (disk p.backing).length := h p mem_cons_self
    have ih := fun offset => @ih offset fun q hq => h q (mem_cons_of_mem _ hq)
    unfold visitFrom cut
    refine (Budget.check_yields hE).skip fun _ => ?_
    dsimp only
    by_cases hlt : max a offset < min b (offset + p.bytes)
    · rw [if_pos hlt, if_pos hlt]
      refine (readPart_yields hE (Nat.le_refl _) (by omega)).bind fun part hpart => ?_
      refine (ih _).bind fun more hm => .pure ?_
      rw [hpart, hm, content_cons]
      rfl
    · rw [if_neg hlt, if_neg hlt]
      refine (.pure rfl : Yields _ (pure []) (· = ([] : Bytes))).bind fun part hpart => ?_
      refine (ih _).bind fun more hm => .pure ?_
      rw [hpart, hm, nil_append]

/-- A visit within the text fails only by the outside. -/
theorem visit_settles (hE : ∀ e, limits.Outside e → E e)
    (hR : a > b ∨ b > t.length → E ⟨"LargeTextRangeInvalid"⟩) (h : Holds disk d t) :
    Yields E (visit limits disk d a b) fun out => out = slice t a b := by
  refine (throwIf_yields fun hc => hR (by rwa [h.bytes] at hc)).bind fun _ _ => ?_
  refine (visitFrom_yields hE h.fits).weaken fun out ho => ?_
  rw [ho, content_cut h.fits, h.content]
  rfl

/-- A page within the text is read but for the outside. -/
theorem readLargeTextRange_settles (hE : ∀ e, limits.Outside e → E e)
    (hP : b < a ∨ b - a > largeTextPageMaximum → E ⟨"LargeTextPageLimit"⟩)
    (hR : a > b ∨ b > t.length → E ⟨"LargeTextRangeInvalid"⟩) (h : Holds disk d t) :
    Yields E (readLargeTextRange limits disk d a b) fun out => out = slice t a b :=
  (throwIf_yields hP).bind fun _ _ => visit_settles hE hR h

theorem readLargeTextRange_yields (h : Holds disk d t) :
    Yields (fun _ => True) (readLargeTextRange limits disk d a b) fun out => out = slice t a b :=
  readLargeTextRange_settles (fun _ _ => trivial) (fun _ => trivial) (fun _ => trivial) h

/-! ## Replacing -/

theorem replaceLargeText_yields {c f : Nat} (hd : Holds disk d t) (he : Holds disk e s) :
    Yields (fun _ => True) (replaceLargeText limits disk d a b e c f) fun out =>
      Holds disk out (splice t a (b - a) (slice s c f)) ∧ a ≤ b ∧ b ≤ t.length := by
  refine check_any.skip fun _ => throwIf_past fun hr => ?_
  have hin := hd.bytes
  have hin' := he.bytes
  refine .past fun _ => .past fun _ => .past fun _ =>
    .past fun _ => ?_
  refine throwIf_past fun _ => ?_
  refine throwIf_past fun _ => .pure ⟨⟨?_, ?_, ?_⟩, by omega, by omega⟩
  · intro p hp
    rcases mem_append.mp hp with hp | hp
    · rcases mem_append.mp hp with hp | hp
      · exact fits_cut hd.fits p hp
      · exact fits_cut he.fits p hp
    · exact fits_cut hd.fits p hp
  · rw [length_splice (by omega), length_slice (by omega)]
    dsimp only
    omega
  · dsimp only
    rw [content_append, content_append, content_cut hd.fits, content_cut he.fits,
      content_cut hd.fits,
      hd.content, he.content, splice, hin]
    simp only [Nat.sub_zero]
    rw [slice_zero, slice_to_length, Nat.add_sub_cancel' (by omega)]

theorem range_yields (h : Holds disk d t) :
    Yields (fun _ => True) (range limits disk d a b) fun out => Holds disk out (slice t a b) :=
  (replaceLargeText_yields (.empty disk) h).weaken fun out ho => by
    have := ho.1
    simpa [splice] using this

theorem appendLargeText_yields (hd : Holds disk d t) (he : Holds disk e s) :
    Yields (fun _ => True) (appendLargeText d e) fun out => Holds disk out (t ++ s) := by
  refine throwIf_past fun _ => ?_
  have hloop : ∀ ps qs : List LargeTextPiece, (∀ p ∈ ps, p.Fits disk) → (∀ p ∈ qs, p.Fits disk) →
      Yields (fun _ => True) (ps.foldlM appendPiece qs) fun out =>
        (∀ p ∈ out, p.Fits disk) ∧ content disk out = content disk qs ++ content disk ps := by
    intro ps
    induction ps with
    | nil => exact fun qs _ hq => .pure ⟨hq, (append_nil _).symm⟩
    | cons p ps ih =>
      intro qs hps hqs
      have hp := hps p mem_cons_self
      rw [foldlM_cons]
      have hpush : Yields (fun _ => True) (appendPiece qs p) fun out => out = push qs p :=
        throwIf_past fun _ => .pure rfl
      refine hpush.bind fun qs' hq => ?_
      subst hq
      refine (ih (push qs p) (fun q hq => hps q (mem_cons_of_mem _ hq))
        (fits_push qs hqs hp)).weaken fun out ho => ⟨ho.1, ?_⟩
      rw [ho.2, content_push, content_cons, append_assoc]
  refine (hloop e.pieces d.pieces he.fits hd.fits).bind fun pieces hp => .pure ⟨hp.1, ?_, ?_⟩
  · rw [length_append, ← hd.bytes, ← he.bytes]
  · rw [← hd.content, ← he.content]
    exact hp.2

theorem equal_yields (hd : Holds disk d t) (he : Holds disk e s) :
    Yields (fun _ => True) (equal limits disk d e) fun out => out = true ↔ t = s := by
  have hpos : 0 < chunkBytes := by decide
  unfold equal
  rw [hd.bytes, he.bytes]
  refine .ite (fun hne => .pure ?_) fun heq => ?_
  · exact ⟨nofun, fun h => absurd (congrArg length h) hne⟩
  rw [not_not] at heq
  have hloop : ∀ fuel offset, t.length < offset + fuel →
      Yields (fun _ => True) (equalFrom limits disk d e fuel offset) fun out =>
        out = true ↔ t.drop offset = s.drop offset := by
    intro fuel
    induction fuel with
    | zero =>
      intro offset hf
      refine .pure ⟨fun _ => ?_, fun _ => rfl⟩
      rw [drop_of_length_le (by omega), drop_of_length_le (by omega)]
    | succ fuel ih =>
      intro offset hf
      unfold equalFrom
      rw [hd.bytes]
      refine .ite (fun hlt => ?_) fun hge => .pure ⟨fun _ => ?_, fun _ => rfl⟩
      · refine check_any.skip fun _ => ?_
        refine (readLargeTextRange_yields hd).bind fun x hx => ?_
        refine (readLargeTextRange_yields he).bind fun y hy => ?_
        have hsplit : ∀ u : Bytes, u.length = t.length → u.drop offset =
            slice u offset (min (offset + chunkBytes) t.length) ++
              u.drop (offset + chunkBytes) := by
          intro u hu
          rcases Nat.le_total (offset + chunkBytes) t.length with hle | hle
          · rw [Nat.min_eq_left hle, ← slice_to_length, ← slice_to_length,
              slice_append (by omega) (by omega)]
          · rw [Nat.min_eq_right hle, drop_of_length_le
              (by omega : u.length ≤ offset + chunkBytes), ← hu, slice_to_length, append_nil]
        rw [hsplit t rfl, hsplit s heq.symm, ← hx, ← hy]
        have hlen : x.length = y.length := by
          rw [hx, hy, length_slice (by omega), length_slice (by omega)]
        refine .ite (fun hne => .pure ⟨nofun, fun h => ?_⟩)
          fun hxy => (ih _ (by omega)).weaken fun out ho => ?_
        · exact absurd (append_inj h hlen).1 hne
        · rw [ho, not_not.mp hxy, append_cancel_left_eq]
      · rw [drop_of_length_le (by omega), drop_of_length_le (by omega)]
  exact (hloop _ 0 (by omega)).weaken fun out ho => by simpa using ho

/-! ## Lines -/

theorem mapPiece_yields {p : LargeTextPiece} (hp : p.Fits disk) :
    Yields E (mapPiece disk p) fun out => out = p.text disk := by
  refine .ite (fun h0 => .pure ?_) fun _ => ?_
  · have hlen := hp.length_text
    rw [h0] at hlen
    exact (length_eq_zero_iff.mp hlen).symm
  · exact (throwIf_yields fun hc => absurd hp (Nat.not_le.mpr hc)).bind fun _ _ => .pure rfl

theorem contiguous_yields (hE : ∀ e, limits.Outside e → E e)
    (hS : largeTextMaximum < t.length → E ⟨"LargeTextSizeLimit"⟩) (h : Holds disk d t) :
    Yields E (contiguous limits disk d) fun out => out = t := by
  have hcopy : Yields E (if d.bytes = 0 then pure [] else do
      let bytes ← visit limits disk d 0 d.bytes
      throwIf (bytes.length > largeTextMaximum) "LargeTextSizeLimit"
      pure bytes) fun out => out = t := by
    refine .ite (fun h0 => .pure ?_) fun _ => ?_
    · rw [h.bytes] at h0
      exact (length_eq_zero_iff.mp h0).symm
    · refine (visit_settles hE (fun hc => ?_) h).bind fun bytes hb => ?_
      · rw [h.bytes] at hc
        omega
      rw [h.bytes, slice_full] at hb
      subst hb
      exact (throwIf_yields hS).bind fun _ _ => .pure rfl
  unfold contiguous
  split
  · rename_i p hp
    refine (mapPiece_yields (h.fits p (by rw [hp]; exact mem_cons_self))).weaken fun out ho => ?_
    rw [ho, ← h.content, hp]
    exact (append_nil _).symm
  · exact hcopy

theorem closeLines_cons (n s x : Nat) (xs : List Nat) :
    closeLines n (s :: x :: xs) = s :: closeLines n (x :: xs) := by
  unfold closeLines
  rw [getLast?_cons_cons]
  split <;> rfl

/-- The ends of the lines, from a position inside of a line that starts at `start`. -/
theorem indexFrom_yields (hE : ∀ e, limits.Outside e → E e) (text : Bytes) (line : Line)
    {start i : Nat} (hi : i = start + line.length) :
    Yields E (indexFrom limits text i) fun ends =>
      closeLines (i + text.length) (start :: ends) = offsetsFrom start (linesFrom text line) := by
  have check : ∀ c : Prop, [Decidable c] →
      Yields E (if c then limits.check else pure ()) fun _ => True := by
    intro c _
    exact .ite (fun _ => Budget.check_yields hE) fun _ => .pure trivial
  induction text, line using linesFrom.induct generalizing start i with
  | case1 line h =>
    refine .pure ?_
    obtain rfl := isEmpty_iff.mp h
    simp [closeLines, linesFrom, offsetsFrom, hi]
  | case2 line h =>
    refine .pure ?_
    have hpos : line.length ≠ 0 := by simpa using h
    simp [closeLines, linesFrom, offsetsFrom, hi, h, hpos]
  | case3 c line =>
    refine (check _).skip fun _ => .pure ?_
    by_cases hc : isTerminator c
    · simp [closeLines, linesFrom, offsetsFrom, hi, hc, Nat.add_assoc]
    · simp [closeLines, linesFrom, offsetsFrom, hi, hc, Nat.add_assoc]
  | case4 c d rest line h ih =>
    refine (check _).skip fun _ => ?_
    rw [if_pos h]
    refine (@ih (i + 2) (i + 2) rfl).bind fun more hm => .pure ?_
    rw [closeLines_cons, linesFrom, if_pos h, offsetsFrom, length_append, ← Nat.add_assoc, ← hi]
    rw [show i + (c :: d :: rest).length = i + 2 + rest.length by simp; omega, hm]
    rfl
  | case5 c d rest line h hc ih =>
    refine (check _).skip fun _ => ?_
    rw [if_neg h]
    refine (@ih (i + 1) (i + 1) rfl).bind fun more hm => .pure ?_
    rw [if_pos hc, closeLines_cons, linesFrom, if_neg h, if_pos hc, offsetsFrom, length_append,
      ← Nat.add_assoc, ← hi]
    rw [show i + (c :: d :: rest).length = i + 1 + (d :: rest).length by simp; omega, hm]
    rfl
  | case6 c d rest line h hc ih =>
    refine (check _).skip fun _ => ?_
    rw [if_neg h]
    have hi' : i + 1 = start + (line ++ [c]).length := by
      rw [length_append, length_singleton]
      omega
    refine (ih hi').bind fun more hm => .pure ?_
    rw [if_neg hc, linesFrom, if_neg h, if_neg hc, ← hm]
    congr 1
    simp only [length_cons]
    omega

theorem hashChunks_yields (hE : ∀ e, limits.Outside e → E e) {size : Nat} (fuel offset : Nat) :
    Yields E (hashChunks limits size fuel offset) fun _ => True := by
  induction fuel generalizing offset with
  | zero => exact .pure trivial
  | succ fuel ih =>
    exact .ite (fun _ => (Budget.check_yields hE).skip fun _ => ih _) fun _ => .pure trivial

/-- The index of a document is the line index of its text. It fails by itself only on too many
lines and at most on a text beyond the limit. -/
theorem indexLargeText_settles (hE : ∀ e, limits.Outside e → E e)
    (hS : largeTextMaximum < t.length → E ⟨"LargeTextSizeLimit"⟩)
    (hL : defaultMaxLines < (lines t).length → E ⟨"LineLimit"⟩)
    (hB : sizeMax < t.length → E ⟨"LongLineLimit"⟩) (h : Holds disk d t) :
    Yields E (indexLargeText limits disk d) fun out =>
      out = (t, (lines t).length, offsetsFrom 0 (lines t)) ∧
      (lines t).length ≤ defaultMaxLines := by
  refine (Budget.check_yields hE).skip fun _ => (contiguous_yields hE hS h).bind fun view hv => ?_
  subst hv
  refine (countLines_yields hE hL hB).bind fun n hn => ?_
  refine (Budget.reserve_yields hE).skip fun _ => (hashChunks_yields hE _ _).skip fun _ => ?_
  refine (indexFrom_yields hE view [] (rfl : 0 = 0 + _)).bind fun ends he => .pure ?_
  obtain ⟨rfl, hle⟩ := hn
  refine ⟨?_, hle⟩
  rw [← Nat.zero_add view.length, he]
  rfl

theorem indexLargeText_yields (h : Holds disk d t) :
    Yields (fun _ => True) (indexLargeText limits disk d) fun out =>
      out = (t, (lines t).length, offsetsFrom 0 (lines t)) :=
  (indexLargeText_settles (fun _ _ => trivial) (fun _ => trivial) (fun _ => trivial)
    (fun _ => trivial) h).weaken fun _ ho => ho.1

/-- Where the lines start, the first one at `offset`. -/
def lineStarts : (offset : Nat) → List Line → List Nat
  | _, [] => []
  | offset, line :: rest => offset :: lineStarts (offset + line.length) rest

theorem offsetsFrom_eq (offset : Nat) (ls : List Line) :
    offsetsFrom offset ls = lineStarts offset ls ++ [offset + ls.flatten.length] := by
  induction ls generalizing offset with
  | nil => rfl
  | cons line ls ih =>
    rw [offsetsFrom, ih, lineStarts, cons_append, flatten_cons, length_append,
      Nat.add_assoc]

/-- How a line index of a text can fail: by the outside or for the size of the text. -/
def IndexFailure (limits : Budget) (text : Bytes) (e : Failure) : Prop :=
  limits.Outside e ∨ (e = ⟨"LineLimit"⟩ ∧ defaultMaxLines < (lines text).length) ∨
    (e = ⟨"LargeTextSizeLimit"⟩ ∧ largeTextMaximum < text.length) ∨
    (e = ⟨"LongLineLimit"⟩ ∧ sizeMax < text.length)

/-- Whatever pieces a text is kept in, its index has the lines that `SplitLines` finds in its bytes:
their number, where each of them starts, and the end of the last one. -/
theorem lineIndex_agrees (limits limits' : Budget) {text : Bytes} (h : Holds disk d text) :
    Yields (IndexFailure limits text) (indexLargeText limits disk d) fun index =>
      Yields (IndexFailure limits' text) (splitLines limits' text) fun ls =>
        index.1 = text ∧ index.2.1 = ls.length ∧ index.2.2 = lineStarts 0 ls ++ [text.length] := by
  refine (indexLargeText_settles (fun _ he => .inl he) (fun hs => .inr (.inr (.inl ⟨rfl, hs⟩)))
    (fun hl => .inr (.inl ⟨rfl, hl⟩)) (fun hb => .inr (.inr (.inr ⟨rfl, hb⟩))) h).weaken
      fun index hindex => ?_
  obtain ⟨rfl, -⟩ := hindex
  refine (splitLines_yields (fun _ he => .inl he) (fun hl => .inr (.inl ⟨rfl, hl⟩))
    (fun hb => .inr (.inr (.inr ⟨rfl, hb⟩)))).weaken fun ls hls => ?_
  obtain ⟨rfl, -⟩ := hls
  refine ⟨rfl, rfl, ?_⟩
  rw [offsetsFrom_eq, lines_flatten, Nat.zero_add]

/-- A text in two pieces that share a line break. -/
def cutDocument : LargeTextDocument := ⟨[⟨0, 0, 2⟩, ⟨1, 0, 2⟩], 4⟩

def cutDisk : Disk
  | 0 => [97, cr]
  | _ => [lf, 98]

theorem cutDocument_holds : Holds cutDisk cutDocument [97, cr, lf, 98] where
  fits p hp := by
    rcases mem_cons.mp hp with rfl | hp
    · exact Nat.le_refl 2
    · obtain rfl := mem_singleton.mp hp
      exact Nat.le_refl 2
  bytes := rfl
  content := rfl

theorem lineIndex_agrees_cut :
    Yields (IndexFailure Budget.unlimited [97, cr, lf, 98])
      (indexLargeText Budget.unlimited cutDisk cutDocument) fun index =>
        Yields (IndexFailure Budget.unlimited [97, cr, lf, 98])
          (splitLines Budget.unlimited [97, cr, lf, 98]) fun ls =>
            index.1 = [97, cr, lf, 98] ∧ index.2.1 = ls.length ∧
              index.2.2 = lineStarts 0 ls ++ [4] :=
  @lineIndex_agrees cutDisk cutDocument Budget.unlimited Budget.unlimited [97, cr, lf, 98]
    cutDocument_holds

/-- The ranges that `Diff` finds for the texts, and the line tables of both. -/
structure Compared (limits : Budget) (lib : Library) (left right : Bytes)
    (out : LargeTextComparison) :
    Prop where
  changes : Returns (diff { limits with rangesOnly := true } lib left right) out.changes
  left : out.left = offsetsFrom 0 (lines left)
  right : out.right = offsetsFrom 0 (lines right)

theorem compareLargeText_yields {lib : Library} (hd : Holds disk d t) (he : Holds disk e s) :
    Yields (fun _ => True) (compareLargeText limits lib disk d e) (Compared limits lib t s) := by
  refine check_any.skip fun _ => ?_
  refine (indexLargeText_yields hd).bind fun x hx => (indexLargeText_yields he).bind fun y hy => ?_
  refine throwIf_past fun _ => ?_
  subst hx hy
  refine (Yields.returns _).bind fun changes hc => ?_
  refine .past fun _ => .past fun _ => Yields.pure ?_
  exact ⟨hc, rfl, rfl⟩

theorem compareSession_yields {lib : Library} (hd : Holds disk d t) (he : Holds disk e s) :
    Yields (fun _ => True) (compareSession limits lib disk d e) (Compared limits lib t s) :=
  check_any.skip fun _ => (compareLargeText_yields hd he).bind fun _ hv =>
    .past fun _ => Yields.pure hv

/-- A range between two line ends holds these lines. -/
theorem range_lines_yields {x y : Nat} (h : Holds disk d t) (hxy : x ≤ y)
    (hy : y ≤ (lines t).length) :
    Yields (fun _ => True) (range limits disk d ((offsetsFrom 0 (lines t)).getD x 0)
      ((offsetsFrom 0 (lines t)).getD y 0)) fun out => Holds disk out (append (lines t) x y) := by
  refine (range_yields h).weaken fun out ho => ?_
  rw [getD_offsetsFrom 0 (by omega), getD_offsetsFrom 0 hy, Nat.zero_add, Nat.zero_add] at ho
  have hcut := cut_lines hxy hy
  have hlen : (append (lines t) 0 x).length + (append (lines t) x y).length =
      (append (lines t) 0 y).length := length_add_append hxy
  rw [lines_flatten] at hcut
  rwa [← hcut, show (append (lines t) x y).length =
    (append (lines t) 0 y).length - (append (lines t) 0 x).length by omega]

end Hc.Compare
