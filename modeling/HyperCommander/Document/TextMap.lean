import HyperCommander.Lib.Unicode
import Mathlib.Data.List.TakeWhile

/-!
# Offsets of a text with normalised line ends (`textSearchMatcher.cpp`)

A search runs over the text with every CRLF and CR made an LF. `TextMap` records only where a CR was
removed, and where the lines of the normalised text begin.

* `build_eq`: the loop over the CRs normalises the text.
* `source_cut`: an offset of the normalised text cuts both texts in the same place, and no CRLF.
* `source_spec`, `source_adjacent`: ranges of the original text.
* `line_spec`: lines and columns.
-/

namespace Hc.Document.Search

open List Unicode

def cr : UInt16 := 0x0d

def lf : UInt16 := 0x0a

/-- `Range`. -/
structure Range where
  start : Int := -1
  length : Int := 0
deriving DecidableEq, Repr

/-- `Range::Valid`. -/
def Range.Valid (r : Range) (size : Int) : Prop :=
  0 ≤ r.start ∧ 0 ≤ r.length ∧ r.start ≤ size ∧ r.length ≤ size - r.start

instance (r : Range) (size : Int) : Decidable (r.Valid size) := inferInstanceAs (Decidable (_ ∧ _))

/-- Where a range ends. -/
def Range.stop (r : Range) : Int := r.start + r.length

/-- `TextMap`. -/
structure TextMap where
  original : Units
  normalized : Units
  removed : List Int
  lines : List Int
deriving DecidableEq, Repr

/-- The loop over the carriage returns: the normalised text and the offsets in it before which a
carriage return was removed. -/
def normalizeLoop (normalized : Units) (removed : List Int) (text : Units) : Units × List Int :=
  match _h : text.dropWhile (· != cr) with
  | [] => (normalized ++ text, removed)
  | _ :: rest =>
    let normalized := normalized ++ text.takeWhile (· != cr)
    if rest.head? = some lf then
      normalizeLoop (normalized ++ [lf]) (removed ++ [(normalized.length : Int)]) rest.tail
    else normalizeLoop (normalized ++ [lf]) removed rest
termination_by text.length
decreasing_by
  all_goals
    have := (List.dropWhile_suffix (l := text) (· != cr)).length_le
    rw [_h, List.length_cons] at this
    try rw [List.length_tail]
    omega

/-- The offsets after each line feed; `offset` is that of the first unit. -/
def lineStarts (offset : Int) : Units → List Int
  | [] => []
  | u :: text =>
    if u = lf then (offset + 1) :: lineStarts (offset + 1) text else lineStarts (offset + 1) text

/-- `TextMap::TextMap`. -/
def TextMap.build (text : Units) : TextMap :=
  let made := normalizeLoop [] [] text
  { original := text, normalized := made.1, removed := made.2, lines := 0 :: lineStarts 0 made.1 }

/-- The offset of the original text: one more for each carriage return removed before it. -/
def TextMap.offset (map : TextMap) (p : Int) : Int :=
  p + (map.removed.takeWhile (· < p)).length

/-- `TextMap::Source`. -/
def TextMap.source (map : TextMap) (value : Range) : Range :=
  if value.Valid map.normalized.length then
    let start := map.offset value.start
    { start, length := map.offset (value.start + value.length) - start }
  else {}

/-- `TextMap::Line`. -/
def TextMap.line (map : TextMap) (position : Int) : Int :=
  (map.lines.takeWhile (· ≤ position)).length

/-- `TextMap::Column`. -/
def TextMap.column (map : TextMap) (position : Int) : Int :=
  position - map.lines.getD (map.line position - 1).toNat 0 + 1

/-! ### What a normalised text is -/

/-- A text with every CRLF and every CR made an LF. -/
def unify : Units → Units
  | [] => []
  | [u] => [if u = cr then lf else u]
  | u :: v :: text =>
    if u = cr ∧ v = lf then lf :: unify text
    else (if u = cr then lf else u) :: unify (v :: text)

/-- No CRLF begins at the end of `a` and ends at the front of `b`. -/
def WholeLines (a b : Units) : Prop := ¬(a.getLast? = some cr ∧ b.head? = some lf)

/-- The part of a text that a range names. -/
def Range.of (r : Range) (text : Units) : Units := (text.drop r.start.toNat).take r.length.toNat

/-- The offset is not inside a CRLF. -/
def OnBoundary (text : Units) (p : Int) : Prop := WholeLines (text.take p.toNat) (text.drop p.toNat)

/-- Position `p` of a text stands in line `line` at column `column`, both counted from one. -/
def StandsAt (text : Units) (p line column : Int) : Prop :=
  ∃ lines current : Units, text.take p.toNat = lines ++ current ∧ lf ∉ current ∧
    (lines = [] ∨ lines.getLast? = some lf) ∧ line = lines.count lf + 1 ∧
    column = current.length + 1

section Unify

variable {a b text : Units} {u : UInt16}

theorem lf_ne_cr : lf ≠ cr := by decide

@[simp] theorem wholeLines_nil_left : WholeLines [] b := by simp [WholeLines]

@[simp] theorem wholeLines_nil_right : WholeLines a [] := by simp [WholeLines]

theorem unify_crlf (text : Units) : unify (cr :: lf :: text) = lf :: unify text := by
  rw [unify, if_pos ⟨rfl, rfl⟩]

theorem unify_cons (h : WholeLines [u] text) :
    unify (u :: text) = (if u = cr then lf else u) :: unify text := by
  cases text with
  | nil => rfl
  | cons v text =>
    rw [unify, if_neg]
    simpa [WholeLines] using h

theorem WholeLines.left {c : Units} (h : WholeLines a (b ++ c)) : WholeLines a b := by
  cases b with
  | nil => exact wholeLines_nil_right
  | cons v b => simpa [WholeLines] using h

theorem unify_eq_nil_iff : unify a = [] ↔ a = [] := by
  fun_cases unify a <;> simp

theorem unify_append (h : WholeLines a b) : unify (a ++ b) = unify a ++ unify b := by
  induction a using unify.induct with
  | case1 => rfl
  | case2 u => exact unify_cons h
  | case3 u v a hc ih =>
    obtain ⟨rfl, rfl⟩ := hc
    rw [cons_append, cons_append, unify_crlf, unify_crlf, ih, cons_append]
    cases a with
    | nil => simp [WholeLines]
    | cons w a => simpa [WholeLines] using h
  | case4 u v a hc ih =>
    have hw : ∀ rest, WholeLines [u] (v :: rest) := fun rest => by simpa [WholeLines] using hc
    rw [cons_append, cons_append, unify_cons (hw _), unify_cons (hw _), ← cons_append, ih,
      cons_append]
    simpa [WholeLines] using h

/-- The offsets of the normalised text before which a carriage return is removed. -/
def removedFrom (offset : Int) : Units → List Int
  | [] => []
  | [_] => []
  | u :: v :: text =>
    if u = cr ∧ v = lf then offset :: removedFrom (offset + 1) text
    else removedFrom (offset + 1) (v :: text)

theorem removedFrom_cons (h : WholeLines [u] text) (offset : Int) :
    removedFrom offset (u :: text) = removedFrom (offset + 1) text := by
  cases text with
  | nil => rfl
  | cons v text =>
    rw [removedFrom, if_neg]
    simpa [WholeLines] using h

theorem le_removedFrom (offset : Int) (text : Units) :
    ∀ r ∈ removedFrom offset text, offset ≤ r := by
  induction offset, text using removedFrom.induct with
  | case1 offset => simp [removedFrom]
  | case2 offset u => simp [removedFrom]
  | case3 offset u v text hc ih =>
    rw [removedFrom, if_pos hc]
    intro r hr
    rcases mem_cons.1 hr with rfl | hr
    · exact le_refl _
    · exact le_trans (by omega) (ih r hr)
  | case4 offset u v text hc ih =>
    rw [removedFrom, if_neg hc]
    intro r hr
    exact le_trans (by omega) (ih r hr)

/-- Units without a carriage return stay as they are. -/
theorem unify_append_of_forall_ne (h : ∀ u ∈ a, u ≠ cr) (b : Units) (offset : Int) :
    unify (a ++ b) = a ++ unify b ∧
      removedFrom offset (a ++ b) = removedFrom (offset + a.length) b := by
  induction a generalizing offset with
  | nil => simp
  | cons u a ih =>
    have hu : u ≠ cr := h u (by simp)
    have hw : WholeLines [u] (a ++ b) := by simp [WholeLines, hu]
    obtain ⟨h1, h2⟩ := ih (fun v hv => h v (by simp [hv])) (offset + 1)
    rw [cons_append, unify_cons hw, removedFrom_cons hw, h1, h2, if_neg hu]
    refine ⟨rfl, ?_⟩
    rw [length_cons]
    congr 1
    omega

theorem normalizeLoop_eq (normalized : Units) (removed : List Int) (text : Units) :
    normalizeLoop normalized removed text =
      (normalized ++ unify text, removed ++ removedFrom normalized.length text) := by
  have hfront : ∀ text : Units, ∀ u ∈ text.takeWhile (· != cr), u ≠ cr := fun text u hu => by
    simpa using mem_takeWhile_imp hu
  fun_induction normalizeLoop normalized removed text with
  | case1 normalized removed text h =>
    have hall : ∀ u ∈ text, u ≠ cr := by simpa [dropWhile_eq_nil_iff] using h
    obtain ⟨h1, h2⟩ := unify_append_of_forall_ne hall [] (normalized.length : Int)
    rw [append_nil] at h1 h2
    simp [h1, h2, unify, removedFrom]
  | case2 normalized removed text c rest h front hlf ih =>
    obtain ⟨rest, rfl⟩ := head?_eq_some_iff.1 hlf
    obtain rfl : c = cr := by simpa [h] using head?_dropWhile_not (· != cr) text
    have htext := (takeWhile_append_dropWhile (p := (· != cr)) (l := text)).symm
    rw [h] at htext
    obtain ⟨h1, h2⟩ :=
      unify_append_of_forall_ne (hfront text) (cr :: lf :: rest) (normalized.length : Int)
    rw [← htext, unify_crlf] at h1
    rw [← htext, removedFrom, if_pos ⟨rfl, rfl⟩] at h2
    rw [ih, h1, h2]
    simp [front, Int.add_assoc]
  | case3 normalized removed text c rest h front hlf ih =>
    obtain rfl : c = cr := by simpa [h] using head?_dropWhile_not (· != cr) text
    have htext := (takeWhile_append_dropWhile (p := (· != cr)) (l := text)).symm
    rw [h] at htext
    have hw : WholeLines [cr] rest := by simpa [WholeLines] using hlf
    obtain ⟨h1, h2⟩ :=
      unify_append_of_forall_ne (hfront text) (cr :: rest) (normalized.length : Int)
    rw [← htext, unify_cons hw, if_pos rfl] at h1
    rw [← htext, removedFrom_cons hw] at h2
    rw [ih, h1, h2]
    simp [front, Int.add_assoc]

/-- The loop normalises the text. -/
theorem build_eq (text : Units) :
    TextMap.build text =
      { original := text, normalized := unify text, removed := removedFrom 0 text
        lines := 0 :: lineStarts 0 (unify text) } := by
  simp [TextMap.build, normalizeLoop_eq]

theorem takeWhile_removedFrom (offset : Int) (text : Units) :
    (removedFrom offset text).takeWhile (· < offset) = [] := by
  cases hr : removedFrom offset text with
  | nil => rfl
  | cons r rs =>
    have := le_removedFrom offset text r (by simp [hr])
    rw [takeWhile_cons_of_neg]
    simpa using this

theorem WholeLines.cons (h : WholeLines a b) (hu : a = [] → WholeLines [u] b) :
    WholeLines (u :: a) b := by
  cases a with
  | nil => exact hu rfl
  | cons w a => simpa [WholeLines] using h

/-- An offset of the normalised text cuts both texts in the same place. -/
theorem exists_cut (offset : Int) (text : Units) {k : Nat} (hk : k ≤ (unify text).length) :
    ∃ a b, text = a ++ b ∧ unify a = (unify text).take k ∧ unify b = (unify text).drop k ∧
      WholeLines a b ∧
      (a.length : Int) = k + ((removedFrom offset text).takeWhile (· < offset + k)).length := by
  have hzero : ∀ (offset : Int) (text : Units), ∃ a b, text = a ++ b ∧
      unify a = (unify text).take 0 ∧ unify b = (unify text).drop 0 ∧ WholeLines a b ∧
      (a.length : Int) =
        (0 : Nat) + ((removedFrom offset text).takeWhile (· < offset + (0 : Nat))).length := by
    intro offset text
    refine ⟨[], text, rfl, rfl, rfl, wholeLines_nil_left, ?_⟩
    simp [takeWhile_removedFrom]
  induction text using unify.induct generalizing offset k with
  | case1 =>
    obtain rfl : k = 0 := by simpa [unify] using hk
    exact hzero offset []
  | case2 u =>
    rcases k with _ | k
    · exact hzero offset [u]
    · obtain rfl : k = 0 := by simpa [unify] using hk
      refine ⟨[u], [], rfl, rfl, rfl, wholeLines_nil_right, ?_⟩
      simp [removedFrom]
  | case3 u v text hc ih =>
    rcases k with _ | k
    · exact hzero offset (u :: v :: text)
    obtain ⟨rfl, rfl⟩ := hc
    rw [unify_crlf, length_cons] at hk
    obtain ⟨a, b, rfl, ha, hb, hw, hlen⟩ := ih (offset + 1) (k := k) (by omega)
    refine ⟨cr :: lf :: a, b, rfl, ?_, ?_, (hw.cons ?_).cons (by simp), ?_⟩
    · rw [unify_crlf, unify_crlf, ha, take_succ_cons]
    · rw [unify_crlf, hb, drop_succ_cons]
    · rintro -
      simp [WholeLines, lf_ne_cr]
    · rw [removedFrom, if_pos ⟨rfl, rfl⟩, takeWhile_cons_of_pos (by simp)]
      rw [show offset + ((k + 1 : Nat) : Int) = offset + 1 + k by omega]
      simp only [length_cons]
      omega
  | case4 u v text hc ih =>
    rcases k with _ | k
    · exact hzero offset (u :: v :: text)
    have hseam : ∀ rest, WholeLines [u] (v :: rest) := fun rest => by simpa [WholeLines] using hc
    rw [unify_cons (hseam text), length_cons] at hk
    obtain ⟨a, b, hab, ha, hb, hw, hlen⟩ := ih (offset + 1) (k := k) (by omega)
    have hua : WholeLines [u] a := by
      cases a with
      | nil => exact wholeLines_nil_right
      | cons w a =>
        obtain ⟨rfl, -⟩ := cons.inj hab
        exact hseam a
    refine ⟨u :: a, b, by rw [hab]; rfl, ?_, ?_, hw.cons ?_, ?_⟩
    · rw [unify_cons hua, unify_cons (hseam text), ha, take_succ_cons]
    · rw [unify_cons (hseam text), hb, drop_succ_cons]
    · rintro rfl
      rw [nil_append] at hab
      exact hab ▸ hseam text
    · rw [removedFrom_cons (hseam text)]
      rw [show offset + ((k + 1 : Nat) : Int) = offset + 1 + k by omega]
      simp only [length_cons]
      omega

end Unify

theorem lt_lineStarts (offset : Int) (text : Units) : ∀ s ∈ lineStarts offset text, offset < s := by
  induction text generalizing offset with
  | nil => simp [lineStarts]
  | cons u text ih =>
    rw [lineStarts]
    intro s hs
    split at hs
    · rcases mem_cons.1 hs with rfl | hs
      · omega
      · exact lt_trans (by omega) (ih (offset + 1) s hs)
    · exact lt_trans (by omega) (ih (offset + 1) s hs)

theorem takeWhile_lineStarts {offset start : Int} (hs : start ≤ offset) (text : Units) :
    ((start :: lineStarts offset text).takeWhile (· ≤ offset + (0 : Nat))).length = 1 := by
  rw [takeWhile_cons_of_pos (by simpa using hs)]
  cases hr : lineStarts offset text with
  | nil => rfl
  | cons s ss =>
    have := lt_lineStarts offset text s (by simp [hr])
    rw [takeWhile_cons_of_neg (by simpa using this)]
    rfl

/-- The last line start that is not after an offset, and how many there are: `start` is that of the
line which the text begins in. -/
theorem exists_line (offset start : Int) (text : Units) {k : Nat} (hs : start ≤ offset)
    (hk : k ≤ text.length) :
    ∃ lines current, text.take k = lines ++ current ∧ lf ∉ current ∧
      (lines = [] ∨ lines.getLast? = some lf) ∧
      ((start :: lineStarts offset text).takeWhile (· ≤ offset + k)).length = lines.count lf + 1 ∧
      (start :: lineStarts offset text)[lines.count lf]? =
        some (if lines = [] then start else offset + lines.length) := by
  induction text generalizing offset start k with
  | nil =>
    obtain rfl : k = 0 := by simpa using hk
    exact ⟨[], [], rfl, not_mem_nil, .inl rfl, takeWhile_lineStarts hs [], rfl⟩
  | cons u text ih =>
    rcases k with _ | k
    · exact ⟨[], [], rfl, not_mem_nil, .inl rfl, takeWhile_lineStarts hs (u :: text), rfl⟩
    rw [length_cons] at hk
    have hat : offset + ((k + 1 : Nat) : Int) = offset + 1 + k := by omega
    rw [lineStarts, hat]
    by_cases hu : u = lf
    · -- a line begins after the unit
      subst hu
      obtain ⟨lines, current, htake, hno, hlast, hline, hcol⟩ :=
        ih (offset + 1) (offset + 1) (k := k) (le_refl _) (by omega)
      rw [if_pos rfl]
      refine ⟨lf :: lines, current, ?_, hno, .inr ?_, ?_, ?_⟩
      · rw [take_succ_cons, htake, cons_append]
      · rcases hlast with rfl | hlast
        · rfl
        · rw [getLast?_cons, hlast]
          rfl
      · rw [takeWhile_cons_of_pos (by simp; omega), length_cons, hline,
          count_cons_self]
      · rw [count_cons_self, getElem?_cons_succ, hcol, if_neg (cons_ne_nil _ _),
          length_cons]
        split
        · rename_i hnil
          rw [hnil]
          rfl
        · congr 1
          push_cast
          omega
    · obtain ⟨lines, current, htake, hno, hlast, hline, hcol⟩ :=
        ih (offset + 1) start (k := k) (by omega) (by omega)
      rw [if_neg hu]
      rcases hlast with rfl | hlast
      · refine ⟨[], u :: current, ?_, ?_, .inl rfl, hline, hcol⟩
        · rw [take_succ_cons, htake, nil_append, nil_append]
        · simp [Ne.symm hu, hno]
      · have hne : lines ≠ [] := by
          rintro rfl
          cases hlast
        refine ⟨u :: lines, current, ?_, hno, .inr ?_, ?_, ?_⟩
        · rw [take_succ_cons, htake, cons_append]
        · rw [getLast?_cons, hlast]
          rfl
        · rw [count_cons_of_ne hu, hline]
        · rw [count_cons_of_ne hu, hcol, if_neg hne, if_neg (cons_ne_nil _ _), length_cons]
          congr 1
          push_cast
          omega

section Source

variable {text : Units} {v w : Range}

/-- An offset of the normalised text cuts the original text, and no CRLF. -/
theorem source_cut (text : Units) {k : Nat} (hk : k ≤ (unify text).length) :
    ∃ a b, text = a ++ b ∧ unify a = (unify text).take k ∧ unify b = (unify text).drop k ∧
      WholeLines a b ∧ (TextMap.build text).offset k = a.length := by
  obtain ⟨a, b, hab, ha, hb, hw, hlen⟩ := exists_cut 0 text hk
  refine ⟨a, b, hab, ha, hb, hw, ?_⟩
  rw [hlen, build_eq, TextMap.offset]
  simp

theorem source_of_valid (h : v.Valid (unify text).length) :
    (TextMap.build text).source v =
      { start := (TextMap.build text).offset v.start
        length := (TextMap.build text).offset v.stop - (TextMap.build text).offset v.start } := by
  rw [TextMap.source, if_pos (by rw [build_eq]; exact h)]
  rfl

theorem onBoundary_length (hw : WholeLines a b) : OnBoundary (a ++ b) a.length := by
  simpa [OnBoundary] using hw

/-- Of two fronts the one with the shorter normal form begins the other. -/
theorem prefix_of_cut {a b a' b' : Units} (h : a ++ b = a' ++ b') (hw : WholeLines a' b')
    (hlen : (unify a).length ≤ (unify a').length) : ∃ mid, a' = a ++ mid ∧ b = mid ++ b' := by
  rcases append_eq_append_iff.1 h with ⟨mid, rfl, rfl⟩ | ⟨mid, rfl, rfl⟩
  · exact ⟨mid, rfl, rfl⟩
  · rw [unify_append (hw.left)] at hlen
    obtain rfl : mid = [] := by
      rw [← unify_eq_nil_iff]
      refine eq_nil_of_length_eq_zero ?_
      rw [length_append] at hlen
      omega
    exact ⟨[], by simp, rfl⟩

/-- A valid range leads to the part of the original text that it is the normal form of. -/
theorem source_spec (h : v.Valid (unify text).length) :
    ((TextMap.build text).source v).Valid text.length ∧
      unify (((TextMap.build text).source v).of text) = v.of (unify text) ∧
      OnBoundary text ((TextMap.build text).source v).start ∧
      OnBoundary text ((TextMap.build text).source v).stop := by
  obtain ⟨start, length⟩ := v
  obtain ⟨h0, h1, h2, h3⟩ := h
  dsimp only at h0 h1 h2 h3
  obtain ⟨i, rfl⟩ := Int.eq_ofNat_of_zero_le h0
  obtain ⟨n, rfl⟩ := Int.eq_ofNat_of_zero_le h1
  obtain ⟨a, b, hab, ha, hb, hw, hi⟩ := source_cut text (k := i) (by omega)
  obtain ⟨a', b', hab', ha', hb', hw', hj⟩ := source_cut text (k := i + n) (by omega)
  have hstop : Range.stop ⟨(i : Int), (n : Int)⟩ = ((i + n : Nat) : Int) := by simp [Range.stop]
  rw [source_of_valid ⟨h0, h1, h2, h3⟩, hstop, hi, hj]
  obtain ⟨mid, rfl, rfl⟩ := prefix_of_cut (hab.symm.trans hab') hw' (by
    rw [ha, ha', length_take, length_take]
    omega)
  have hof : Range.of ⟨(a.length : Int), ((a ++ mid).length : Int) - a.length⟩ text = mid := by
    simp [Range.of, hab]
  have hlen : text.length = a.length + (mid.length + b'.length) := by simp [hab]
  refine ⟨⟨?_, ?_, ?_, ?_⟩, ?_, ?_, ?_⟩
  · simp
  · simp
  · dsimp only
    omega
  · simp only [length_append]
    omega
  · -- what the longer front adds is the range of the normalised text
    have hseam : WholeLines a mid := hw.left
    rw [unify_append hseam, ha] at ha'
    rw [hof, Range.of]
    simp only [Int.toNat_natCast]
    rw [take_drop, ← ha']
    simp only [drop_append, length_take]
    rw [Nat.min_eq_left (by omega)]
    simp
  · rw [hab]
    exact onBoundary_length hw
  · rw [Range.stop]
    rw [add_sub_cancel, hab']
    exact onBoundary_length hw'

/-- Ranges that meet lead to ranges that meet. -/
theorem source_adjacent (hv : v.Valid (unify text).length) (hw : w.Valid (unify text).length)
    (h : v.stop = w.start) :
    ((TextMap.build text).source v).stop = ((TextMap.build text).source w).start := by
  rw [source_of_valid hv, source_of_valid hw, Range.stop, h]
  dsimp only
  omega

/-- `Line` and `Column` are counted from the last line feed before the position. -/
theorem line_spec {p : Int} (h0 : 0 ≤ p) (hp : p ≤ (unify text).length) :
    StandsAt (unify text) p ((TextMap.build text).line p) ((TextMap.build text).column p) := by
  obtain ⟨k, rfl⟩ := Int.eq_ofNat_of_zero_le h0
  obtain ⟨lines, current, htake, hno, hlast, hline, hcol⟩ :=
    exists_line 0 0 (unify text) (k := k) (le_refl _) (by omega)
  rw [Int.zero_add] at hline
  refine ⟨lines, current, htake, hno, hlast, ?_, ?_⟩
  · rw [build_eq, TextMap.line, hline]
    rfl
  · have hlen := congrArg length htake
    rw [length_take, length_append] at hlen
    have hindex : ((((TextMap.build text).lines.takeWhile
        (· ≤ (k : Int))).length : Int) - 1).toNat = lines.count lf := by
      rw [build_eq, hline]
      simp
    rw [TextMap.column, TextMap.line, hindex, build_eq, getD_eq_getElem?_getD, hcol]
    split
    · rename_i hnil
      subst hnil
      simp only [Option.getD_some, length_nil] at *
      omega
    · simp only [Option.getD_some]
      omega

end Source

end Hc.Document.Search
