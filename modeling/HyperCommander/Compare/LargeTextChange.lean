import HyperCommander.Compare.LargeTextEdit
import HyperCommander.Compare.LineSeams

/-!
# Merging a change of a large text (`HyperCompare/runtime/largeText.cpp`, `MergeLargeTextChange`)

A change takes lines of one text to lines of the other, and a selection takes a part of them. Where
the part goes in the target is found by its lines and characters.

* `project_yields`: the place that `project` finds.
* `projection_mem`, `projection_mono`: it lies in the lines of the change, in the order of the
  source.
* `merge_change_local`: what a merged change replaces, and how it can fail.
-/

namespace Hc.Compare

open List Slice

/-! ## The lines of a side -/

/-- The lines from `first` up to `last` of a text. -/
structure LineRange where
  text : Bytes
  first : Nat
  last : Nat

namespace LineRange

/-- Where a line starts; the line behind the last one starts at the end. -/
def start (r : LineRange) (row : Nat) : Nat := (append (lines r.text) 0 row).length

/-- The range has its lines in the text. -/
def Fits (r : LineRange) : Prop := r.first ≤ r.last ∧ r.last ≤ (lines r.text).length

/-- The line that a position is in: `upper_bound` in the line table. -/
def rowAt (r : LineRange) (position : Nat) : Nat :=
  ((offsetsFrom 0 (lines r.text)).takeWhile (· ≤ position)).length - 1

/-- The end of a line without the byte in front of it. -/
def dropEnd (text : Bytes) (line limit : Nat) (terminator : UInt8) : Nat :=
  if line < limit ∧ text[limit - 1]? = some terminator then limit - 1 else limit

/-- The end of a line without its terminator. -/
def lineEnd (r : LineRange) (row : Nat) : Nat :=
  dropEnd r.text (r.start row) (dropEnd r.text (r.start row) (r.start (row + 1)) lf) cr

variable {r : LineRange} {row row' p : Nat}

theorem start_le_start (h : row ≤ row') : r.start row ≤ r.start row' := by
  have : _ + (append (lines r.text) row row').length = _ := length_add_append h
  unfold start
  omega

theorem start_lt_succ (h : row < (lines r.text).length) : r.start row < r.start (row + 1) := by
  have hne : (lines r.text)[row] ≠ [] := linesFrom_ne_nil r.text [] _ (getElem_mem h)
  have hpos := length_pos_of_ne_nil hne
  have hadd : _ + (append (lines r.text) row (row + 1)).length = _ :=
    length_add_append (Nat.le_succ row)
  rw [append, append, append, slice_cons (Nat.lt_succ_self row) (getElem?_eq_getElem h),
    flatten_cons, length_append] at hadd
  unfold start append
  omega

theorem start_length : r.start (lines r.text).length = r.text.length := by
  rw [start, append, slice_full, lines_flatten]

theorem start_le_length (row : Nat) : r.start row ≤ r.text.length := by
  have hlen : ∀ row ≤ (lines r.text).length, r.start row ≤ r.text.length := fun row h => by
    rw [← start_length]
    exact start_le_start h
  by_cases h : row ≤ (lines r.text).length
  · exact hlen row h
  · have hle : slice (lines r.text) 0 row = lines r.text := by
      rw [slice_zero, take_of_length_le (by omega)]
    rw [start, append, hle, lines_flatten]

theorem lt_of_start_lt (h : r.start row < r.start row') : row < row' := by
  by_contra hge
  have : r.start row' ≤ r.start row := start_le_start (Nat.le_of_not_lt hge)
  omega

theorem getD_table (h : row ≤ (lines r.text).length) :
    (offsetsFrom 0 (lines r.text)).getD row 0 = r.start row := by
  rw [getD_offsetsFrom 0 h, Nat.zero_add]
  rfl

/-- The line of a position is the one that starts at or before it and ends behind it. -/
theorem rowAt_spec (h : p < r.text.length) :
    r.rowAt p < (lines r.text).length ∧ r.start (r.rowAt p) ≤ p ∧ p < r.start (r.rowAt p + 1) := by
  have hlen := length_offsetsFrom 0 (lines r.text)
  have hprefix := takeWhile_prefix (fun x => decide (x ≤ p)) (l := offsetsFrom 0 (lines r.text))
  have hle := hprefix.length_le
  have hat : ∀ row ≤ (lines r.text).length,
      (offsetsFrom 0 (lines r.text))[row]? = some (r.start row) := by
    intro row hrow
    rw [← getD_table hrow, getD_eq_getElem _ _ (by omega), getElem?_eq_getElem (by omega)]
  -- The starts that are counted, and the first one that is not.
  have hbelow : ∀ row < ((offsetsFrom 0 (lines r.text)).takeWhile (· ≤ p)).length,
      r.start row ≤ p := by
    intro row hrow
    have hmem := all_eq_true.mp all_takeWhile _ (getElem_mem hrow)
    have hget := prefix_iff_getElem?.mp hprefix row hrow
    rw [hat row (by omega)] at hget
    rw [← Option.some.inj hget] at hmem
    exact of_decide_eq_true hmem
  have habove : ∀ row ≤ (lines r.text).length,
      row = ((offsetsFrom 0 (lines r.text)).takeWhile (· ≤ p)).length → p < r.start row := by
    intro row hrow heq
    have hdrop := head?_dropWhile_not (fun x => decide (x ≤ p)) (offsetsFrom 0 (lines r.text))
    have hsplit := takeWhile_append_dropWhile (p := fun x => decide (x ≤ p))
      (l := offsetsFrom 0 (lines r.text))
    have hhead : ((offsetsFrom 0 (lines r.text)).dropWhile fun x => decide (x ≤ p)).head? =
        some (r.start row) := by
      rw [head?_eq_getElem?, ← hat row hrow, ← hsplit, getElem?_append_right (by omega), hsplit,
        heq, Nat.sub_self]
    rw [hhead] at hdrop
    simpa using hdrop
  have hzero : 0 < ((offsetsFrom 0 (lines r.text)).takeWhile (· ≤ p)).length := by
    by_contra hnone
    have h0 := habove 0 (Nat.zero_le _) (by omega)
    rw [start, append, slice_zero, take_zero, flatten_nil, length_nil] at h0
    omega
  have hlast : ((offsetsFrom 0 (lines r.text)).takeWhile (· ≤ p)).length ≤
      (lines r.text).length := by
    by_contra hall
    have h0 := hbelow (lines r.text).length (by omega)
    rw [start_length] at h0
    omega
  have hrow : r.rowAt p + 1 = ((offsetsFrom 0 (lines r.text)).takeWhile (· ≤ p)).length := by
    unfold rowAt
    omega
  exact ⟨by omega, hbelow _ (by omega), habove _ (by omega) hrow⟩

/-- A position in the range is in one of its lines. -/
theorem rowAt_mem (hlo : r.start r.first ≤ p) (hhi : p < r.start r.last) :
    r.first ≤ r.rowAt p ∧ r.rowAt p < r.last := by
  have hlen : r.start r.last ≤ r.text.length := start_le_length _
  obtain ⟨-, h1, h2⟩ := rowAt_spec (r := r) (by omega : p < r.text.length)
  exact ⟨Nat.lt_succ_iff.mp (lt_of_start_lt (hlo.trans_lt h2)), lt_of_start_lt (h1.trans_lt hhi)⟩

theorem rowAt_mono {q : Nat} (h : p ≤ q) (hq : q < r.text.length) : r.rowAt p ≤ r.rowAt q := by
  obtain ⟨-, h1, -⟩ := rowAt_spec (r := r) (by omega : p < r.text.length)
  obtain ⟨-, -, h2⟩ := rowAt_spec hq
  exact Nat.lt_succ_iff.mp (lt_of_start_lt (h1.trans_lt (h.trans_lt h2)))

/-! ### Ends of lines -/

theorem dropEnd_mem {text : Bytes} {line limit : Nat} {t : UInt8} (h : line ≤ limit) :
    line ≤ dropEnd text line limit t ∧ dropEnd text line limit t ≤ limit := by
  unfold dropEnd
  split <;> omega

theorem lineEnd_mem (row : Nat) :
    r.start row ≤ r.lineEnd row ∧ r.lineEnd row ≤ r.start (row + 1) := by
  have h : r.start row ≤ r.start (row + 1) := start_le_start (Nat.le_succ row)
  obtain ⟨h1, h2⟩ := @dropEnd_mem r.text _ _ lf h
  obtain ⟨h3, h4⟩ := @dropEnd_mem r.text _ _ cr h1
  exact ⟨h3, h4.trans h2⟩

end LineRange

/-! ## The projection -/

section Project

variable {limit offset remaining i : Nat} {bytes : Bytes}

/-- The place is in the line, or at its end. -/
theorem projectFrom_mem (h : limit = offset + bytes.length) (remaining : Nat) :
    offset ≤ projectFrom limit bytes offset remaining ∧
      projectFrom limit bytes offset remaining ≤ limit := by
  induction bytes generalizing offset remaining with
  | nil =>
    rw [length_nil] at h
    rw [projectFrom]
    omega
  | cons byte bytes ih =>
    rw [length_cons] at h
    rw [projectFrom]
    have := fun remaining => @ih (offset + 1) (by omega) remaining
    split
    · have := this remaining
      omega
    · split
      · omega
      · have := this (remaining - 1)
        omega

/-- More characters in front lead further. -/
theorem projectFrom_mono (h : limit = offset + bytes.length) {less more : Nat} (hle : less ≤ more) :
    projectFrom limit bytes offset less ≤ projectFrom limit bytes offset more := by
  induction bytes generalizing offset less more with
  | nil => exact Nat.le_refl _
  | cons byte bytes ih =>
    rw [length_cons] at h
    have ih := fun less more => @ih (offset + 1) (by omega) less more
    have hmem := fun n => @projectFrom_mem limit (offset + 1) bytes
      (by omega) n
    rw [projectFrom, projectFrom]
    split
    · exact ih less more hle
    · split
      · split
        · exact Nat.le_refl _
        · have := hmem (more - 1)
          omega
      · rw [if_neg (by omega)]
        exact ih _ _ (by omega)

/-- The place is in front of a character, or at the end of the line. -/
theorem projectFrom_boundary (h : limit = offset + bytes.length) (remaining : Nat) :
    projectFrom limit bytes offset remaining = limit ∨
      ∃ b, bytes[projectFrom limit bytes offset remaining - offset]? = some b ∧
        isContinuation b = false := by
  induction bytes generalizing offset remaining with
  | nil => exact .inl rfl
  | cons byte bytes ih =>
    rw [length_cons] at h
    have hstep : ∀ n, projectFrom limit bytes (offset + 1) n = limit ∨
        ∃ b, (byte :: bytes)[projectFrom limit bytes (offset + 1) n - offset]? = some b ∧
          isContinuation b = false := by
      intro n
      have hmem := @projectFrom_mem limit (offset + 1) bytes (by omega) n
      refine (@ih (offset + 1) (by omega) n).imp_right ?_
      rintro ⟨b, hb, hc⟩
      refine ⟨b, ?_, hc⟩
      have hsub : projectFrom limit bytes (offset + 1) n - offset =
          projectFrom limit bytes (offset + 1) n - (offset + 1) + 1 := by omega
      rw [hsub, getElem?_cons_succ]
      exact hb
    rw [projectFrom]
    split
    · exact hstep remaining
    · split
      · rename_i hc _
        refine .inr ⟨byte, ?_, Bool.eq_false_iff.mpr hc⟩
        rw [Nat.sub_self, getElem?_cons_zero]
      · exact hstep (remaining - 1)

end Project

/-- The characters in front of a position in its line. -/
def LineRange.charactersBefore (r : LineRange) (position : Nat) : Nat :=
  (slice r.text (r.start (r.rowAt position)) position).countP fun byte => !isContinuation byte

/-- Where a position of the source goes in the target. -/
def projection (src dst : LineRange) (position : Nat) : Nat :=
  let row := dst.first + src.rowAt position - src.first
  if position = src.start src.last ∨ dst.last ≤ row then dst.start dst.last
  else projectFrom (dst.lineEnd row) (slice dst.text (dst.start row) (dst.lineEnd row))
    (dst.start row)
    (src.charactersBefore position)

section Projection

variable {src dst : LineRange} {p q : Nat}

theorem lineEnd_slice (dst : LineRange) (row : Nat) : dst.lineEnd row =
    dst.start row + (slice dst.text (dst.start row) (dst.lineEnd row)).length := by
  have h := dst.lineEnd_mem row
  rw [length_slice (h.2.trans (LineRange.start_le_length _))]
  omega

/-- A projected position lies in the lines of the change. -/
theorem projection_mem (hd : dst.Fits) (hlo : src.start src.first ≤ p)
    (hhi : p ≤ src.start src.last) :
    dst.start dst.first ≤ projection src dst p ∧ projection src dst p ≤ dst.start dst.last := by
  have hle : dst.start dst.first ≤ dst.start dst.last := LineRange.start_le_start hd.1
  unfold projection
  dsimp only
  split
  · omega
  · rename_i hin
    obtain ⟨hne, hrow⟩ := not_or.mp hin
    obtain ⟨h1, h2⟩ := LineRange.rowAt_mem hlo (by omega : p < src.start src.last)
    have hmem := projectFrom_mem (lineEnd_slice dst (dst.first + src.rowAt p - src.first))
      (src.charactersBefore p)
    have hend := dst.lineEnd_mem (dst.first + src.rowAt p - src.first)
    have hfirst : dst.start dst.first ≤ dst.start (dst.first + src.rowAt p - src.first) :=
      LineRange.start_le_start (by omega)
    have hlast : dst.start (dst.first + src.rowAt p - src.first + 1) ≤ dst.start dst.last :=
      LineRange.start_le_start (by omega)
    omega

/-- Positions keep their order. -/
theorem projection_mono (hd : dst.Fits) (hlo : src.start src.first ≤ p) (hpq : p ≤ q)
    (hhi : q ≤ src.start src.last) : projection src dst p ≤ projection src dst q := by
  by_cases hq : q = src.start src.last ∨ dst.last ≤ dst.first + src.rowAt q - src.first
  · have := (projection_mem hd hlo (hpq.trans hhi)).2
    rwa [show projection src dst q = dst.start dst.last by rw [projection]; exact if_pos hq]
  obtain ⟨hqne, hqrow⟩ := not_or.mp hq
  have hlen : src.start src.last ≤ src.text.length := LineRange.start_le_length _
  obtain ⟨hp1, hp2⟩ := LineRange.rowAt_mem hlo (by omega : p < src.start src.last)
  have hrows : src.rowAt p ≤ src.rowAt q := LineRange.rowAt_mono hpq (by omega)
  have hp : ¬ (p = src.start src.last ∨ dst.last ≤ dst.first + src.rowAt p - src.first) := by omega
  have hpmem := projectFrom_mem (lineEnd_slice dst (dst.first + src.rowAt p - src.first))
    (src.charactersBefore p)
  have hqmem := projectFrom_mem (lineEnd_slice dst (dst.first + src.rowAt q - src.first))
    (src.charactersBefore q)
  rw [projection, projection, if_neg hp, if_neg hq]
  rcases Nat.eq_or_lt_of_le hrows with heq | hlt
  · -- In one line the characters in front decide.
    rw [← heq]
    refine projectFrom_mono (lineEnd_slice _ _) ?_
    unfold LineRange.charactersBefore
    rw [← heq, ← slice_append (LineRange.rowAt_spec (by omega : p < src.text.length)).2.1 hpq,
      countP_append]
    exact Nat.le_add_right _ _
  · have hend := dst.lineEnd_mem (dst.first + src.rowAt p - src.first)
    have hstart : dst.start (dst.first + src.rowAt p - src.first + 1) ≤
        dst.start (dst.first + src.rowAt q - src.first) := LineRange.start_le_start (by omega)
    omega

/-! ## What the operations yield -/

variable {limits : Budget} {disk : Disk} {d e : LargeTextDocument} {s t : Bytes}
  {E : Failure → Prop}

/-- The byte at a position is read but for the outside. -/
theorem readByte_yields (hE : ∀ e, limits.Outside e → E e) (h : Holds disk d t) {i : Nat}
    (hi : i < t.length) :
    Yields E (readLargeTextRange limits disk d i (i + 1)) fun out => out.head? = t[i]? := by
  have hpage : (1 : Nat) ≤ largeTextPageMaximum := by decide
  refine (readLargeTextRange_settles hE (fun hc => ?_) (fun hc => ?_) h).weaken fun out ho => ?_
  · omega
  · omega
  · rw [ho, slice_cons (Nat.lt_succ_self i) (getElem?_eq_getElem hi), head?_cons,
      getElem?_eq_getElem hi]

theorem dropByte_yields (hE : ∀ e, limits.Outside e → E e) (h : Holds disk d t) {line limit : Nat}
    (hl : limit ≤ t.length) (terminator : UInt8) :
    Yields E (dropByte limits disk d line limit terminator) fun out =>
      out = LineRange.dropEnd t line limit terminator := by
  unfold dropByte LineRange.dropEnd
  refine .ite (fun hlt => ?_) fun hge => .pure (if_neg fun hc => hge hc.1).symm
  have hread := readByte_yields hE h (by omega : limit - 1 < t.length)
  rw [show limit - 1 + 1 = limit by omega] at hread
  refine hread.bind fun byte hb => .pure ?_
  rw [hb]
  simp only [hlt, true_and]

/-- The side of a change in a document. -/
structure SideHolds (disk : Disk) (side : ChangeSide) (r : LineRange) : Prop where
  holds : Holds disk side.document r.text
  table : side.lines = offsetsFrom 0 (lines r.text)
  first : side.first = r.first
  last : side.last = r.last
  fits : r.Fits

theorem SideHolds.line {side : ChangeSide} {r : LineRange} (h : SideHolds disk side r) {row : Nat}
    (hrow : row ≤ (lines r.text).length) : side.line row = r.start row := by
  rw [ChangeSide.line, h.table, LineRange.getD_table hrow]

/-- `project` finds the projection, and fails only by the outside. -/
theorem project_yields (hE : ∀ e, limits.Outside e → E e) {source target : ChangeSide}
    (hs : SideHolds disk source src) (ht : SideHolds disk target dst)
    (hlo : src.start src.first ≤ p) (hhi : p ≤ src.start src.last) :
    Yields E (project limits disk source target p) fun out => out = projection src dst p := by
  have hlast : source.line source.last = src.start src.last := by
    rw [hs.last, hs.line hs.fits.2]
  have htlast : target.line target.last = dst.start dst.last := by
    rw [ht.last, ht.line ht.fits.2]
  have hrow : (source.lines.takeWhile (· ≤ p)).length - 1 = src.rowAt p := by
    rw [hs.table]
    rfl
  unfold project
  rw [hlast, htlast]
  refine .ite (fun heq => .pure ?_) fun hne => ?_
  · rw [projection]
    exact (if_pos (.inl heq)).symm
  rw [hrow, ht.first, ht.last, hs.first]
  refine .ite (fun hge => .pure ?_) fun hlt => ?_
  · rw [projection]
    exact (if_pos (.inr hge)).symm
  have hfits := ht.fits
  obtain ⟨h1, h2⟩ := LineRange.rowAt_mem hlo (by omega : p < src.start src.last)
  have hlen : src.start src.last ≤ src.text.length := LineRange.start_le_length _
  obtain ⟨hrowlt, hp1, -⟩ := LineRange.rowAt_spec (by omega : p < src.text.length)
  have hend := dst.lineEnd_mem (dst.first + src.rowAt p - src.first)
  have hnext : dst.start (dst.first + src.rowAt p - src.first + 1) ≤ dst.text.length :=
    LineRange.start_le_length _
  have hsucc : dst.start (dst.first + src.rowAt p - src.first) ≤
      dst.start (dst.first + src.rowAt p - src.first + 1) :=
        LineRange.start_le_start (Nat.le_succ _)
  unfold LineRange.Fits at hfits
  rw [hs.line (by omega), ht.line (by omega), ht.line (by omega)]
  refine (visit_settles hE (fun hc => by omega) hs.holds).bind fun before hbefore => ?_
  refine (dropByte_yields hE ht.holds hnext lf).bind fun limit hlimit => ?_
  have hle := (@LineRange.dropEnd_mem dst.text _ _ lf hsucc).2
  refine (dropByte_yields hE ht.holds (by omega) cr).bind fun limit' hlimit' => ?_
  obtain rfl : limit' = dst.lineEnd (dst.first + src.rowAt p - src.first) := by
    rw [hlimit', hlimit]
    rfl
  refine (visit_settles hE (fun hc => by omega) ht.holds).bind fun line hline => .pure ?_
  rw [hline, hbefore, projection]
  exact (if_neg (not_or.mpr ⟨hne, hlt⟩)).symm

end Projection

/-! ## Boundaries -/

section Boundary

variable {r src dst : LineRange} {row p : Nat}

theorem isTerminator_lt {c : UInt8} (h : isTerminator c = true) : c < 0x80 := by
  rw [isTerminator, Bool.or_eq_true, beq_iff_eq, beq_iff_eq] at h
  rcases h with rfl | rfl <;> decide

theorem isTerminator_lead {c : UInt8} (h : isTerminator c = true) : isContinuation c = false := by
  rw [isTerminator, Bool.or_eq_true, beq_iff_eq, beq_iff_eq] at h
  rcases h with rfl | rfl <;> decide

/-- The bytes of lines. -/
theorem slice_start {a b : Nat} (hab : a ≤ b) (hb : b ≤ (lines r.text).length) :
    slice r.text (r.start a) (r.start b) = append (lines r.text) a b := by
  have hcut := cut_lines hab hb
  have hlen : _ + (append (lines r.text) a b).length = _ := length_add_append hab
  rw [lines_flatten] at hcut
  rw [slice, show r.start b - r.start a = (append (lines r.text) a b).length by
    unfold LineRange.start; omega]
  exact hcut

/-- A line starts with a character. -/
theorem start_boundary (hv : Utf8.Valid r.text) (row : Nat) :
    Utf8.Boundary r.text (r.start row) := by
  intro b hb
  have hlt := (List.getElem?_eq_some_iff.mp hb).1
  have hrow : row < (lines r.text).length := by
    rw [← LineRange.start_length] at hlt
    exact LineRange.lt_of_start_lt hlt
  cases row with
  | zero =>
    have hzero : r.start 0 = 0 := by
      rw [LineRange.start, append, slice_zero, take_zero, flatten_nil, length_nil]
    rw [hzero] at hb
    exact hv.boundary_zero b hb
  | succ row =>
    -- The line in front is not the last one, so it has its terminator.
    have hchain : (lines r.text).IsChain fun x y => ¬ seam x y := unseamed_linesFrom r.text []
    have hterm := isChain_iff_getElem.mp hchain row hrow
    rw [seam, Bool.or_eq_true, not_or, Bool.not_eq_true', Bool.not_eq_false, terminated,
      Option.any_eq_true] at hterm
    obtain ⟨⟨c, hc, hct⟩, -⟩ := hterm
    have hline : (lines r.text)[row] = slice r.text (r.start row) (r.start (row + 1)) := by
      rw [slice_start (Nat.le_succ row) (by omega), append,
        slice_cons (Nat.lt_succ_self row) (getElem?_eq_getElem (by omega))]
      simp [slice]
    have hstart : r.start row < r.start (row + 1) := LineRange.start_lt_succ (by omega)
    have hlen : (slice r.text (r.start row) (r.start (row + 1))).length =
        r.start (row + 1) - r.start row := length_slice (LineRange.start_le_length _)
    rw [hline, getLast?_eq_getElem?, hlen, getElem?_slice (by omega)] at hc
    have hb' := hv.boundary_succ hc (isTerminator_lt hct)
    have hrow : r.start row + (r.start (row + 1) - r.start row - 1) + 1 = r.start (row + 1) := by
      omega
    rw [hrow] at hb'
    exact hb' b hb

theorem dropEnd_boundary {text : Bytes} {line limit : Nat} {t : UInt8} (ht : isTerminator t = true)
    (h : Utf8.Boundary text limit) : Utf8.Boundary text (LineRange.dropEnd text line limit t) := by
  unfold LineRange.dropEnd
  split
  · rename_i hc
    intro b hb
    rw [hc.2] at hb
    exact Option.some.inj hb ▸ isTerminator_lead ht
  · exact h

/-- A projected position is in front of a character or at the end. -/
theorem projection_boundary (hv : Utf8.Valid dst.text) (p : Nat) :
    Utf8.Boundary dst.text (projection src dst p) := by
  unfold projection
  dsimp only
  split
  · exact start_boundary hv _
  · rcases projectFrom_boundary (lineEnd_slice dst (dst.first + src.rowAt p - src.first))
      (src.charactersBefore p) with hend | ⟨b, hb, hc⟩
    · rw [hend]
      exact dropEnd_boundary rfl (dropEnd_boundary rfl (start_boundary hv _))
    · have hmem := projectFrom_mem (lineEnd_slice dst (dst.first + src.rowAt p - src.first))
        (src.charactersBefore p)
      have hin := (List.getElem?_eq_some_iff.mp hb).1
      have hend := dst.lineEnd_mem (dst.first + src.rowAt p - src.first)
      have hnext : dst.start (dst.first + src.rowAt p - src.first + 1) ≤ dst.text.length :=
        LineRange.start_le_length _
      rw [length_slice (by omega)] at hin
      rw [getElem?_slice hin, Nat.add_sub_cancel' hmem.1] at hb
      intro x hx
      rw [hb] at hx
      exact Option.some.inj hx ▸ hc

end Boundary

/-! ## Replacing -/

section Replace

variable {limits : Budget} {disk : Disk} {d e : LargeTextDocument} {s t : Bytes}
  {E : Failure → Prop} {a b c f : Nat}

theorem checkBoundary_settles (hE : ∀ e, limits.Outside e → E e) (h : Holds disk d t)
    (hB : ¬ Utf8.Boundary t a → E ⟨"LargeTextCharacterBoundary"⟩) :
    Yields E (checkBoundary limits disk d a) fun _ => True := by
  refine .ite (fun hlt => ?_) fun _ => .pure trivial
  rw [h.bytes] at hlt
  refine (readByte_yields hE h hlt).bind fun byte hb =>
    (throwIf_yields fun hc => hB fun hbound => ?_).weaken
    fun _ _ => trivial
  rw [hb, getElem?_eq_getElem hlt, Option.any_some] at hc
  exact Bool.false_ne_true ((hbound _ (getElem?_eq_getElem hlt)).symm.trans hc)

/-- A replacement of ranges within the texts fails by the outside, inside of a character, or for the
size of what it makes. -/
theorem replaceLargeText_settles (hE : ∀ e, limits.Outside e → E e) (hd : Holds disk d t)
    (he : Holds disk e s) (hab : a ≤ b ∧ b ≤ t.length) (hcf : c ≤ f ∧ f ≤ s.length)
    (hB : ¬ (Utf8.Boundary t a ∧ Utf8.Boundary t b ∧ Utf8.Boundary s c ∧ Utf8.Boundary s f) →
      E ⟨"LargeTextCharacterBoundary"⟩)
    (hS : largeTextMaximum < t.length - (b - a) + (f - c) → E ⟨"LargeTextSizeLimit"⟩)
    (hP : E ⟨"LargeTextPieceLimit"⟩) :
    Yields E (replaceLargeText limits disk d a b e c f) fun out =>
      Holds disk out (t.take a ++ slice s c f ++ t.drop b) := by
  have hok := @replaceLargeText_yields limits disk d e s t a b c f hd he
  have hfail : Yields E (replaceLargeText limits disk d a b e c f) fun _ => True := by
    have hcheck := fun {d t a} h hB => @checkBoundary_settles limits disk d t E a hE h hB
    refine (Budget.check_yields hE).skip fun _ => (throwIf_yields fun hc => ?_).bind fun _ _ => ?_
    · rw [hd.bytes, he.bytes] at hc
      omega
    refine (hcheck hd fun hn => hB fun hall => hn hall.1).skip fun _ => ?_
    refine (hcheck hd fun hn => hB fun hall => hn hall.2.1).skip fun _ => ?_
    refine (hcheck he fun hn => hB fun hall => hn hall.2.2.1).skip fun _ => ?_
    refine (hcheck he fun hn => hB fun hall => hn hall.2.2.2).skip fun _ => ?_
    refine (throwIf_yields fun hc => hS ?_).bind fun _ _ => ?_
    · rw [hd.bytes] at hc
      omega
    exact (throwIf_yields fun _ => hP).bind fun _ _ => .pure trivial
  refine .of_runs (fun w out w' hrun => ?_) fun w e hrun => hfail.of_error hrun
  have hout := (hok.of_ok hrun).1
  rwa [splice, Nat.add_sub_cancel' hab.1] at hout

end Replace

/-! ## Merging a change -/

/-- The comparison has the line tables of two texts and changes within their lines. -/
structure ComparisonOf (l r : Bytes) (comparison : LargeTextComparison) : Prop where
  left : comparison.left = offsetsFrom 0 (lines l)
  right : comparison.right = offsetsFrom 0 (lines r)
  fits : ∀ e ∈ comparison.changes, e.begin_ ≤ e.end_ ∧ e.end_ ≤ (lines l).length ∧
    e.otherBegin ≤ e.otherEnd ∧ e.otherEnd ≤ (lines r).length

/-- The lines of a change in the text that it is taken from. -/
def sourceLines (left right : Bytes) (edit : Edit) (source : Int) : LineRange :=
  if source = 1 then ⟨right, edit.otherBegin, edit.otherEnd⟩ else ⟨left, edit.begin_, edit.end_⟩

/-- The lines of a change in the text that it is put into. -/
def targetLines (left right : Bytes) (edit : Edit) (source : Int) : LineRange :=
  if source = 1 then ⟨left, edit.begin_, edit.end_⟩ else ⟨right, edit.otherBegin, edit.otherEnd⟩

/-- The bytes of a change, or the selected ones of them. -/
def sourceRange (src : LineRange) : Option (Nat × Nat) → Nat × Nat
  | none => (src.start src.first, src.start src.last)
  | some (low, high) => (max (src.start src.first) low, min (src.start src.last) high)

/-- Where they go. -/
def targetRange (src dst : LineRange) : Option (Nat × Nat) → Nat × Nat
  | none => (dst.start dst.first, dst.start dst.last)
  | some selection => (projection src dst (sourceRange src (some selection)).1,
      projection src dst (sourceRange src (some selection)).2)

/-- The projection goes up and stays in the lines of the change. -/
def ProjectsInside (src dst : LineRange) : Prop :=
  ∀ p q, src.start src.first ≤ p → p ≤ q → q ≤ src.start src.last →
    dst.start dst.first ≤ projection src dst p ∧ projection src dst p ≤ projection src dst q ∧
      projection src dst q ≤ dst.start dst.last

/-- The text with the change in it. -/
structure ChangeMerged (src dst : LineRange) (selection : Option (Nat × Nat)) (text : Bytes) :
    Prop where
  replaced : text = dst.text.take (targetRange src dst selection).1 ++
    slice src.text (sourceRange src selection).1 (sourceRange src selection).2 ++
      dst.text.drop (targetRange src dst selection).2
  inside : dst.start dst.first ≤ (targetRange src dst selection).1 ∧
    (targetRange src dst selection).1 ≤ (targetRange src dst selection).2 ∧
    (targetRange src dst selection).2 ≤ dst.start dst.last
  /-- Without a selection it has the lines of the source in place of its own. -/
  whole : selection = none → text = dst.text.take (dst.start dst.first) ++
    append (lines src.text) src.first src.last ++ dst.text.drop (dst.start dst.last)
  /-- What is outside of the lines of the change stays. -/
  frame : ∃ middle, text = dst.text.take (dst.start dst.first) ++ middle ++
    dst.text.drop (dst.start dst.last)

/-- How a merge can fail: by the outside, for its arguments, inside of a character, or for the size
of what it makes. -/
inductive MergeFailure (limits : Budget) (left right : Bytes) (comparison : LargeTextComparison)
    (source : Int) (change : Nat) (selection : Option (Nat × Nat)) : Failure → Prop
  | outside {e : Failure} (h : limits.Outside e) :
      MergeFailure limits left right comparison source change selection e
  | change (h : source < 0 ∨ source > 1 ∨ comparison.changes.length ≤ change) :
      MergeFailure limits left right comparison source change selection ⟨"LargeTextChangeInvalid"⟩
  | selection {edit : Edit} (h : comparison.changes[change]? = some edit)
      (hr : (sourceRange (sourceLines left right edit source) selection).2 ≤
        (sourceRange (sourceLines left right edit source) selection).1) :
      MergeFailure limits left right comparison source change selection
        ⟨"LargeTextSelectionOutsideChange"⟩
  | character {edit : Edit} (h : comparison.changes[change]? = some edit)
      (hb : ¬ (Utf8.Boundary (sourceLines left right edit source).text
          (sourceRange (sourceLines left right edit source) selection).1 ∧
        Utf8.Boundary (sourceLines left right edit source).text
          (sourceRange (sourceLines left right edit source) selection).2)) :
      MergeFailure limits left right comparison source change selection
        ⟨"LargeTextCharacterBoundary"⟩
  | size (h : largeTextMaximum < left.length + right.length) :
      MergeFailure limits left right comparison source change selection ⟨"LargeTextSizeLimit"⟩
  | pieces : MergeFailure limits left right comparison source change selection
      ⟨"LargeTextPieceLimit"⟩

section Merge

variable {limits : Budget} {disk : Disk} {d e : LargeTextDocument} {src dst : LineRange}
  {E : Failure → Prop}

theorem projectsInside (hd : dst.Fits) : ProjectsInside src dst := fun _ _ hlo hpq hhi =>
  ⟨(projection_mem hd hlo (hpq.trans hhi)).1, projection_mono hd hlo hpq hhi,
    (projection_mem hd (hlo.trans hpq) hhi).2⟩

/-- The replacement that a merged change makes. -/
theorem replace_change (hE : ∀ e, limits.Outside e → E e) (hd : Holds disk d dst.text)
    (he : Holds disk e src.text) (hdf : dst.Fits) (hsf : src.Fits) (hdv : Utf8.Valid dst.text)
    (selection : Option (Nat × Nat))
    (hlt : selection ≠ none → (sourceRange src selection).1 < (sourceRange src selection).2)
    (hB : ¬ (Utf8.Boundary src.text (sourceRange src selection).1 ∧
      Utf8.Boundary src.text (sourceRange src selection).2) → E ⟨"LargeTextCharacterBoundary"⟩)
    (hS : largeTextMaximum < dst.text.length + src.text.length → E ⟨"LargeTextSizeLimit"⟩)
    (hP : E ⟨"LargeTextPieceLimit"⟩) :
    Yields E (replaceLargeText limits disk d (targetRange src dst selection).1
      (targetRange src dst selection).2 e (sourceRange src selection).1
        (sourceRange src selection).2)
      fun out => ∃ text, Holds disk out text ∧ ChangeMerged src dst selection text := by
  have hsle : src.start src.first ≤ src.start src.last := LineRange.start_le_start hsf.1
  have hdle : dst.start dst.first ≤ dst.start dst.last := LineRange.start_le_start hdf.1
  have hslen : src.start src.last ≤ src.text.length := LineRange.start_le_length _
  have hdlen : dst.start dst.last ≤ dst.text.length := LineRange.start_le_length _
  have hsrc : src.start src.first ≤ (sourceRange src selection).1 ∧
      (sourceRange src selection).1 ≤ (sourceRange src selection).2 ∧
      (sourceRange src selection).2 ≤ src.start src.last := by
    cases selection with
    | none => exact ⟨Nat.le_refl _, hsle, Nat.le_refl _⟩
    | some s =>
      have := hlt (Option.some_ne_none s)
      exact ⟨Nat.le_max_left _ _, this.le, Nat.min_le_left _ _⟩
  have hdst : dst.start dst.first ≤ (targetRange src dst selection).1 ∧
      (targetRange src dst selection).1 ≤ (targetRange src dst selection).2 ∧
      (targetRange src dst selection).2 ≤ dst.start dst.last := by
    cases selection with
    | none => exact ⟨Nat.le_refl _, hdle, Nat.le_refl _⟩
    | some s => exact projectsInside hdf _ _ hsrc.1 hsrc.2.1 hsrc.2.2
  have hbound : Utf8.Boundary dst.text (targetRange src dst selection).1 ∧
      Utf8.Boundary dst.text (targetRange src dst selection).2 := by
    cases selection with
    | none => exact ⟨start_boundary hdv _, start_boundary hdv _⟩
    | some s => exact ⟨projection_boundary hdv _, projection_boundary hdv _⟩
  refine (replaceLargeText_settles hE hd he ⟨hdst.2.1, by omega⟩ ⟨hsrc.2.1, by omega⟩
    (fun hn => hB fun hs => hn ⟨hbound.1, hbound.2, hs⟩) (fun hs => hS (by omega)) hP).weaken
      fun out hout => ⟨_, hout, rfl, hdst, fun hnone => ?_, ?_⟩
  · subst hnone
    rw [targetRange, sourceRange, slice_start hsf.1 hsf.2]
  · refine ⟨slice dst.text (dst.start dst.first) (targetRange src dst selection).1 ++
      slice src.text (sourceRange src selection).1 (sourceRange src selection).2 ++
      slice dst.text (targetRange src dst selection).2 (dst.start dst.last), ?_⟩
    have htake : dst.text.take (targetRange src dst selection).1 =
        dst.text.take (dst.start dst.first) ++
          slice dst.text (dst.start dst.first) (targetRange src dst selection).1 := by
      rw [← slice_zero, ← slice_zero, slice_append (Nat.zero_le _) hdst.1]
    have hdrop : dst.text.drop (targetRange src dst selection).2 =
        slice dst.text (targetRange src dst selection).2 (dst.start dst.last) ++
          dst.text.drop (dst.start dst.last) := by
      rw [← slice_to_length, ← slice_to_length, slice_append hdst.2.2 hdlen]
    rw [htake, hdrop]
    simp only [append_assoc]

/-- A selection in the lines of a change is projected and replaced. -/
theorem replace_selection (hE : ∀ e, limits.Outside e → E e) {source target : ChangeSide}
    (hs : SideHolds disk source src) (ht : SideHolds disk target dst) (hdv : Utf8.Valid dst.text)
    (selection : Nat × Nat)
    (hR : (sourceRange src (some selection)).2 ≤ (sourceRange src (some selection)).1 →
      E ⟨"LargeTextSelectionOutsideChange"⟩)
    (hB : ¬ (Utf8.Boundary src.text (sourceRange src (some selection)).1 ∧
      Utf8.Boundary src.text (sourceRange src (some selection)).2) →
      E ⟨"LargeTextCharacterBoundary"⟩)
    (hS : largeTextMaximum < dst.text.length + src.text.length → E ⟨"LargeTextSizeLimit"⟩)
    (hP : E ⟨"LargeTextPieceLimit"⟩) :
    Yields E (do
        throwIf ((sourceRange src (some selection)).1 ≥ (sourceRange src (some selection)).2)
          "LargeTextSelectionOutsideChange"
        let targetBegin ← project limits disk source target (sourceRange src (some selection)).1
        let targetEnd ← project limits disk source target (sourceRange src (some selection)).2
        replaceLargeText limits disk target.document targetBegin targetEnd source.document
          (sourceRange src (some selection)).1 (sourceRange src (some selection)).2) fun out =>
      ∃ text, Holds disk out text ∧ ChangeMerged src dst (some selection) text := by
  have hlo : src.start src.first ≤ (sourceRange src (some selection)).1 := Nat.le_max_left _ _
  have hhi : (sourceRange src (some selection)).2 ≤ src.start src.last := Nat.min_le_left _ _
  refine (throwIf_yields hR).bind fun _ hlt => ?_
  refine (project_yields hE hs ht hlo (by omega)).bind fun targetBegin hbegin => ?_
  refine (project_yields hE hs ht (by omega) hhi).bind fun targetEnd hend => ?_
  rw [hbegin, hend]
  exact replace_change hE ht.holds hs.holds ht.fits hs.fits hdv (some selection)
    (fun _ => by omega) hB hS hP

/-- A merged change replaces the lines of the change, or the projected part of them, by the lines or
the selected part of the source, and no other byte of the target; where a selection goes follows the
order of the source and stays in the change. -/
theorem merge_change_local (limits : Budget) (disk : Disk) (left right : LargeTextDocument)
    (l r : Bytes) (hl : Holds disk left l) (hr : Holds disk right r) (hvl : Utf8.Valid l)
    (hvr : Utf8.Valid r) (comparison : LargeTextComparison) (hc : ComparisonOf l r comparison)
    (source : Int) (change : Nat) (selection : Option (Nat × Nat)) :
    (∀ edit ∈ comparison.changes,
      ProjectsInside (sourceLines l r edit source) (targetLines l r edit source)) ∧
    Yields (MergeFailure limits l r comparison source change selection)
      (mergeLargeTextChange limits disk left right comparison source change selection) fun out =>
        ∃ edit, comparison.changes[change]? = some edit ∧ (source = 0 ∨ source = 1) ∧
          ∃ text, Holds disk out text ∧
            ChangeMerged (sourceLines l r edit source) (targetLines l r edit source)
              selection text := by
  have hsides : ∀ edit ∈ comparison.changes,
      SideHolds disk ⟨left, comparison.left, edit.begin_, edit.end_⟩ ⟨l, edit.begin_, edit.end_⟩ ∧
        SideHolds disk ⟨right, comparison.right, edit.otherBegin, edit.otherEnd⟩
          ⟨r, edit.otherBegin, edit.otherEnd⟩ := by
    intro edit hedit
    obtain ⟨h1, h2, h3, h4⟩ := hc.fits edit hedit
    exact ⟨⟨hl, hc.left, rfl, rfl, h1, h2⟩, ⟨hr, hc.right, rfl, rfl, h3, h4⟩⟩
  refine ⟨fun edit hedit => projectsInside ?_, ?_⟩
  · unfold targetLines
    split
    · exact (hsides edit hedit).1.fits
    · exact (hsides edit hedit).2.fits
  have hE : ∀ e, limits.Outside e → MergeFailure limits l r comparison source change selection e :=
    fun e he => .outside he
  refine (Budget.check_yields hE).skip fun _ => ?_
  cases hedit : comparison.changes[change]? with
  | none => exact .fail (.change (.inr (.inr (getElem?_eq_none_iff.mp hedit))))
  | some edit =>
    obtain ⟨hls, hrs⟩ := hsides edit (mem_of_getElem? hedit)
    refine (throwIf_yields fun hbad => .change (by omega)).bind fun _ hside => ?_
    have hsource : source = 0 ∨ source = 1 := by omega
    -- The side that the lines are taken from, and the one that they are put into.
    obtain ⟨a, b, ha, hb, has, hbs, hv, hsum⟩ : ∃ a b : ChangeSide,
        (if source = 1 then ⟨right, comparison.right, edit.otherBegin, edit.otherEnd⟩
          else ⟨left, comparison.left, edit.begin_, edit.end_⟩) = a ∧
        (if source = 1 then ⟨left, comparison.left, edit.begin_, edit.end_⟩
          else ⟨right, comparison.right, edit.otherBegin, edit.otherEnd⟩) = b ∧
        SideHolds disk a (sourceLines l r edit source) ∧
        SideHolds disk b (targetLines l r edit source) ∧
        Utf8.Valid (targetLines l r edit source).text ∧
        (targetLines l r edit source).text.length + (sourceLines l r edit source).text.length =
          l.length + r.length := by
      unfold sourceLines targetLines
      split
      · exact ⟨_, _, rfl, rfl, hrs, hls, hvl, rfl⟩
      · exact ⟨_, _, rfl, rfl, hls, hrs, hvr, Nat.add_comm _ _⟩
    have hB :=
      fun hn => @MergeFailure.character limits l r comparison source change selection edit hedit hn
    have hS := fun h => @MergeFailure.size limits l r comparison source change selection (hsum ▸ h)
    dsimp only
    rw [ha, hb, has.first, has.last, hbs.first, hbs.last, has.line (has.fits.1.trans has.fits.2),
      has.line has.fits.2, hbs.line (hbs.fits.1.trans hbs.fits.2), hbs.line hbs.fits.2]
    cases selection with
    | none =>
      exact (replace_change hE hbs.holds has.holds hbs.fits has.fits hv none (fun h => absurd rfl h)
        hB hS .pieces).weaken fun out hout => ⟨edit, rfl, hsource, hout⟩
    | some selection =>
      exact (replace_selection hE has hbs hv selection (fun h => .selection hedit h) hB hS
        .pieces).weaken fun out hout => ⟨edit, rfl, hsource, hout⟩

end Merge

/-- The first line of the text in two pieces is deleted on the other side. -/
def cutComparison : LargeTextComparison := ⟨[⟨0, 1, 0, 0, []⟩], [0, 3, 4], [0, 1]⟩

theorem cutComparison_of : ComparisonOf [97, cr, lf, 98] [98] cutComparison where
  left := by decide
  right := by decide
  fits e he := by
    obtain rfl := mem_singleton.mp he
    decide

theorem merge_change_local_cut :
    ∃ text, Holds cutDisk ⟨[⟨0, 0, 2⟩, ⟨1, 1, 1⟩], 3⟩ text ∧
      ChangeMerged ⟨[97, cr, lf, 98], 0, 1⟩ ⟨[98], 0, 0⟩ (some (0, 2)) text := by
  have hr : Holds cutDisk ⟨[⟨1, 1, 1⟩], 1⟩ [98] :=
    ⟨fun p hp => by obtain rfl := mem_singleton.mp hp; exact Nat.le_refl 2, rfl, rfl⟩
  have hrun : Returns (mergeLargeTextChange .unlimited cutDisk cutDocument ⟨[⟨1, 1, 1⟩], 1⟩
      cutComparison 0 0 (some (0, 2))) ⟨[⟨0, 0, 2⟩, ⟨1, 1, 1⟩], 3⟩ :=
    ⟨{}, ⟨0, 12⟩, by decide +kernel⟩
  obtain ⟨edit, hedit, -, text, htext, hmerged⟩ :=
    (merge_change_local .unlimited cutDisk cutDocument ⟨[⟨1, 1, 1⟩], 1⟩ [97, cr, lf, 98] [98]
      cutDocument_holds hr ⟨['a', '\r', '\n', 'b'], by decide +kernel⟩ ⟨['b'], by decide +kernel⟩
      cutComparison cutComparison_of 0 0 (some (0, 2))).2.of_returns hrun
  obtain rfl := Option.some.inj hedit
  exact ⟨text, htext, hmerged⟩

end Hc.Compare
