import HyperCommander.Compare.MergeGroups
import Mathlib.Data.List.SplitBy

/-!
# Lines put together

A text made of whole lines has these lines again, but for its seams: a line without a terminator
runs into the next one, and a CR takes an LF behind it.

* `lines_flatten_eq`: the lines of a concatenation are the maximal runs of lines joined by seams.
* `merge_lines`: what this says about the text of `Merge`.
-/

namespace Hc.Compare

open List

/-- The line has its terminator. -/
def terminated (x : Line) : Bool := x.getLast?.any isTerminator

/-- The two lines become one when they are put together. -/
def seam (x y : Line) : Bool := !terminated x || (x.getLast? == some cr && y.head? == some lf)

/-- What a line of a text looks like. -/
inductive IsLine : Line → Prop
  | bare {u : Bytes} (hu : ∀ c ∈ u, ¬ isTerminator c) (hne : u ≠ []) : IsLine u
  | ended {u : Bytes} {c : UInt8} (hu : ∀ c ∈ u, ¬ isTerminator c) (hc : isTerminator c) :
    IsLine (u ++ [c])
  | crlf {u : Bytes} (hu : ∀ c ∈ u, ¬ isTerminator c) : IsLine (u ++ [cr, lf])

theorem isLine_linesFrom (text : Bytes) (line : Line) (hl : ∀ c ∈ line, ¬ isTerminator c) :
    ∀ x ∈ linesFrom text line, IsLine x := by
  induction text, line using linesFrom.induct with
  | case1 line h =>
    rw [linesFrom, if_pos h]
    intro x hx
    cases hx
  | case2 line h =>
    rw [linesFrom, if_neg h]
    intro x hx
    rw [mem_singleton.mp hx]
    exact .bare hl (by simpa using h)
  | case3 c line =>
    rw [linesFrom]
    intro x hx
    rw [mem_singleton.mp hx]
    by_cases hc : isTerminator c
    · exact .ended hl hc
    · refine .bare (fun d hd => ?_) (by simp)
      rcases mem_append.mp hd with hd | hd
      · exact hl d hd
      · rwa [mem_singleton.mp hd]
  | case4 c d rest line h ih =>
    rw [linesFrom, if_pos h]
    intro x hx
    rcases mem_cons.mp hx with rfl | hx
    · rw [h.1, h.2]
      exact .crlf hl
    · exact ih (fun c hc => by cases hc) x hx
  | case5 c d rest line h hc ih =>
    rw [linesFrom, if_neg h, if_pos hc]
    intro x hx
    rcases mem_cons.mp hx with rfl | hx
    · exact .ended hl hc
    · exact ih (fun c hc => by cases hc) x hx
  | case6 c d rest line h hc ih =>
    rw [linesFrom, if_neg h, if_neg hc]
    refine ih fun e he => ?_
    rcases mem_append.mp he with he | he
    · exact hl e he
    · rwa [mem_singleton.mp he]

variable {text base left right : Bytes} {x y : Line}

theorem isLine_of_mem (h : x ∈ lines text) : IsLine x :=
  isLine_linesFrom text [] (fun c hc => by cases hc) x h

theorem IsLine.ne_nil (h : IsLine x) : x ≠ [] := by
  cases h with
  | bare _ hne => exact hne
  | ended | crlf => simp

/-- A line without a terminator is the last one. -/
theorem getLast?_of_not_terminated (text : Bytes) (line : Line) :
    ∀ x ∈ linesFrom text line, ¬ terminated x → (linesFrom text line).getLast? = some x := by
  have hcons : ∀ (y : Line) (ys : List Line) (x : Line), terminated y → x ∈ y :: ys →
      ¬ terminated x → (x ∈ ys → ¬ terminated x → ys.getLast? = some x) →
      (y :: ys).getLast? = some x := by
    intro y ys x hy hx hn ih
    rcases mem_cons.mp hx with rfl | hx
    · exact absurd hy hn
    · rw [getLast?_cons, ih hx hn, Option.getD_some]
  induction text, line using linesFrom.induct with
  | case1 line h =>
    rw [linesFrom, if_pos h]
    intro x hx
    cases hx
  | case2 line h =>
    rw [linesFrom, if_neg h]
    intro x hx _
    rw [mem_singleton.mp hx]
    rfl
  | case3 c line =>
    rw [linesFrom]
    intro x hx _
    rw [mem_singleton.mp hx]
    rfl
  | case4 c d rest line h ih =>
    rw [linesFrom, if_pos h]
    refine fun x hx hn => hcons _ _ x ?_ hx hn (ih x)
    simp [terminated, h.2, isTerminator]
  | case5 c d rest line h hc ih =>
    rw [linesFrom, if_neg h, if_pos hc]
    refine fun x hx hn => hcons _ _ x ?_ hx hn (ih x)
    simp [terminated, hc]
  | case6 c d rest line h hc ih =>
    rw [linesFrom, if_neg h, if_neg hc]
    exact ih

/-! ## A line in front of a text -/

/-- Bytes without a terminator become the start of the next line. -/
theorem linesFrom_bare {u : Bytes} (hu : ∀ c ∈ u, ¬ isTerminator c) (ht : text ≠ [])
    (line : Line) : linesFrom (u ++ text) line = linesFrom text (line ++ u) := by
  induction u generalizing line with
  | nil => rw [nil_append, append_nil]
  | cons c u ih =>
    have hc := hu c mem_cons_self
    have hne : c ≠ cr := by
      rintro rfl
      exact hc (by decide)
    have ih := ih (fun d hd => hu d (mem_cons_of_mem _ hd)) (line ++ [c])
    rw [append_assoc] at ih
    cases hut : u ++ text with
    | nil => exact absurd (append_eq_nil_iff.mp hut).2 ht
    | cons d rest =>
      rw [hut] at ih
      rw [cons_append, hut, linesFrom, if_neg fun h => hne h.1, if_neg hc, ih]
      rfl

/-- The first line takes what the scan already holds. -/
theorem linesFrom_start (ht : text ≠ []) (line : Line) :
    ∃ x xs, lines text = x :: xs ∧ linesFrom text line = (line ++ x) :: xs := by
  have key : ∀ (text : Bytes) (held line : Line), text ≠ [] →
      ∃ x xs, linesFrom text held = (held ++ x) :: xs ∧
        linesFrom text line = (line ++ x) :: xs := by
    intro text
    induction text with
    | nil => exact fun _ _ h => absurd rfl h
    | cons c rest ih =>
      intro held line _
      cases rest with
      | nil => exact ⟨[c], [], rfl, rfl⟩
      | cons d rest =>
        unfold linesFrom
        by_cases h : c = cr ∧ d = lf
        · rw [if_pos h, if_pos h]
          exact ⟨_, _, rfl, rfl⟩
        · rw [if_neg h, if_neg h]
          by_cases hc : isTerminator c
          · rw [if_pos hc, if_pos hc]
            exact ⟨_, _, rfl, rfl⟩
          · rw [if_neg hc, if_neg hc]
            obtain ⟨x, xs, h1, h2⟩ := ih (held ++ [c]) (line ++ [c]) (cons_ne_nil _ _)
            refine ⟨c :: x, xs, ?_, ?_⟩
            · rw [h1, append_assoc]
              rfl
            · rw [h2, append_assoc]
              rfl
  exact key text [] line ht

/-- A line in front of a text joins its first line at a seam, and stays by itself elsewhere. -/
theorem lines_line_append (hx : IsLine x) {ys : List Line} (hy : lines text = y :: ys) :
    lines (x ++ text) = if seam x y then (x ++ y) :: ys else x :: y :: ys := by
  have ht : text ≠ [] := by
    rintro rfl
    cases hy
  obtain ⟨c, rest, rfl⟩ := exists_cons_of_ne_nil ht
  have hhead : y.head? = some c := by
    have hne : y ≠ [] := linesFrom_ne_nil _ _ y (hy ▸ mem_cons_self)
    obtain ⟨d, y, rfl⟩ := exists_cons_of_ne_nil hne
    have h := lines_flatten (c :: rest)
    rw [hy, flatten_cons, cons_append] at h
    rw [head?_cons, (cons.inj h).1]
  cases hx with
  | bare hu hne =>
    obtain ⟨z, zs, h1, h2⟩ := linesFrom_start ht x
    rw [hy] at h1
    obtain ⟨rfl, rfl⟩ := cons.inj h1
    have hseam : seam x y := by
      have hlast : ¬ terminated x := by
        rw [terminated, getLast?_eq_some_getLast hne]
        exact hu _ (getLast_mem hne)
      simp [seam, hlast]
    rw [if_pos hseam, lines, linesFrom_bare hu ht, nil_append, h2]
  | @ended u d hu hd =>
    have hterm : terminated (u ++ [d]) := by simp [terminated, hd]
    have hseam : seam (u ++ [d]) y ↔ d = cr ∧ c = lf := by
      simp [seam, hterm, hhead]
    rw [lines, append_assoc, linesFrom_bare hu (by simp), nil_append, singleton_append,
      linesFrom]
    by_cases hcl : d = cr ∧ c = lf
    · rw [if_pos hcl, if_pos (hseam.mpr hcl)]
      obtain ⟨rfl, rfl⟩ := hcl
      have hlf : lines (lf :: rest) = [lf] :: lines rest := by
        cases rest with
        | nil => rfl
        | cons e rest =>
          rw [lines, linesFrom, if_neg fun h => absurd h.1 (by decide), if_pos (by decide)]
          rfl
      rw [hy] at hlf
      obtain ⟨rfl, rfl⟩ := cons.inj hlf
      rw [append_assoc]
      rfl
    · rw [if_neg hcl, if_pos hd, if_neg fun h => hcl (hseam.mp h), ← hy]
      rfl
  | @crlf u hu =>
    have hseam : ¬ seam (u ++ [cr, lf]) y := by
      have : terminated (u ++ [cr, lf]) := by simp [terminated, isTerminator]
      simp only [seam, this, Bool.not_true, Bool.false_or, Bool.and_eq_true, beq_iff_eq]
      intro h
      rw [getLast?_append, getLast?_cons_cons, getLast?_singleton] at h
      exact absurd (Option.some.inj h.1) (by decide)
    rw [if_neg hseam, lines, append_assoc, linesFrom_bare hu (by simp), nil_append,
      cons_append, singleton_append, linesFrom, if_pos ⟨rfl, rfl⟩, ← hy]
    rfl

theorem lines_line (h : IsLine x) : lines x = [x] := by
  cases h with
  | bare hu hne =>
    obtain ⟨v, c, rfl⟩ : ∃ v c, x = v ++ [c] :=
      ⟨_, _, (dropLast_append_getLast hne).symm⟩
    rw [lines, linesFrom_bare (fun d hd => hu d (mem_append_left _ hd)) (by simp)]
    rfl
  | ended hu hc =>
    rw [lines, linesFrom_bare hu (by simp)]
    rfl
  | crlf hu =>
    rw [lines, linesFrom_bare hu (by simp), linesFrom, if_pos ⟨rfl, rfl⟩]
    rfl

/-! ## Consecutive lines -/

/-- Between two lines of one text there is no seam. -/
theorem unseamed_linesFrom (text : Bytes) (line : Line) :
    (linesFrom text line).IsChain fun x y => ¬ seam x y := by
  have hhead : ∀ (d : UInt8) (rest : Bytes), ∀ y ∈ (linesFrom (d :: rest) []).head?,
      y.head? = some d := by
    intro d rest y hy
    have hne : y ≠ [] := linesFrom_ne_nil _ _ y (mem_of_mem_head? hy)
    obtain ⟨ys, hys⟩ := head?_eq_some_iff.mp hy
    obtain ⟨e, y, rfl⟩ := exists_cons_of_ne_nil hne
    have h := lines_flatten (d :: rest)
    rw [lines, hys, flatten_cons, cons_append] at h
    rw [head?_cons, (cons.inj h).1]
  induction text, line using linesFrom.induct with
  | case1 line h =>
    rw [linesFrom, if_pos h]
    exact .nil
  | case2 line h =>
    rw [linesFrom, if_neg h]
    exact .singleton _
  | case3 c line =>
    rw [linesFrom]
    exact .singleton _
  | case4 c d rest line h ih =>
    rw [linesFrom, if_pos h, isChain_cons]
    refine ⟨fun y _ => ?_, ih⟩
    simp [seam, terminated, h.2, isTerminator, lf, cr]
  | case5 c d rest line h hc ih =>
    rw [linesFrom, if_neg h, if_pos hc, isChain_cons]
    refine ⟨fun y hy => ?_, ih⟩
    simpa [seam, terminated, hc, hhead d rest y hy] using h
  | case6 c d rest line h hc ih =>
    rw [linesFrom, if_neg h, if_neg hc]
    exact ih

/-- Lines without a seam are the lines of their concatenation. -/
theorem lines_flatten_of_unseamed {ls : List Line} (hl : ∀ x ∈ ls, IsLine x)
    (hc : ls.IsChain fun x y => ¬ seam x y) : lines ls.flatten = ls := by
  induction ls with
  | nil => rfl
  | cons x ls ih =>
    have hx := hl x mem_cons_self
    have ih := ih (fun y hy => hl y (mem_cons_of_mem _ hy)) hc.tail
    cases ls with
    | nil => rw [flatten_singleton, lines_line hx]
    | cons y ys =>
      rw [flatten_cons, lines_line_append hx ih, if_neg (isChain_cons_cons.mp hc).1]

theorem lines_append (text : Bytes) (a b : Nat) :
    lines (append (lines text) a b) = Slice.slice (lines text) a b := by
  have hfront : Slice.slice (lines text) a b <+: (lines text).drop a := take_prefix _ _
  have hsub : Slice.slice (lines text) a b <:+: lines text :=
    hfront.isInfix.trans (drop_suffix _ _).isInfix
  exact lines_flatten_of_unseamed (fun x hx => isLine_of_mem (hsub.subset hx))
    <| IsChain.infix (unseamed_linesFrom text []) hsub

/-- Ranges of lines with the same bytes are the same lines. -/
theorem append_eq_iff (s t : Bytes) (a b c d : Nat) : append (lines s) a b = append (lines t) c d ↔
    Slice.slice (lines s) a b = Slice.slice (lines t) c d := by
  refine ⟨fun h => ?_, congrArg flatten⟩
  rw [← lines_append, h, lines_append]

/-! ## Runs of lines -/

theorem splitBy_cons_of_rel {α : Type} {r : α → α → Bool} {x y : α} (ys : List α) (h : r x y) :
    ∃ g gs, (y :: ys).splitBy r = g :: gs ∧ (x :: y :: ys).splitBy r = (x :: g) :: gs := by
  obtain ⟨g, gs, hg⟩ := exists_cons_of_ne_nil
    (splitBy_ne_nil.mpr (cons_ne_nil y ys) : (y :: ys).splitBy r ≠ [])
  refine ⟨g, gs, hg, ?_⟩
  obtain ⟨hflat, hnil, hruns, hgaps⟩ := splitBy_eq_iff.mp hg
  rw [flatten_cons] at hflat
  have hne : g ≠ [] := fun h => hnil (h ▸ mem_cons_self)
  obtain ⟨z, g', rfl⟩ := exists_cons_of_ne_nil hne
  obtain ⟨rfl, hflat⟩ := cons.inj hflat
  refine splitBy_eq_iff.mpr ⟨?_, ?_, ?_, ?_⟩
  · rw [hflat]
    rfl
  · rw [mem_cons, not_or] at hnil ⊢
    exact ⟨(cons_ne_nil _ _).symm, hnil.2⟩
  · intro m hm
    rcases mem_cons.mp hm with rfl | hm
    · exact .cons_cons h (hruns _ mem_cons_self)
    · exact hruns m (mem_cons_of_mem _ hm)
  · cases gs with
    | nil => exact .singleton _
    | cons f gs =>
      obtain ⟨⟨_, hb, hr⟩, hrest⟩ := isChain_cons_cons.mp hgaps
      refine .cons_cons ⟨cons_ne_nil _ _, hb, ?_⟩ hrest
      rwa [getLast_cons (cons_ne_nil _ _)]

/-- The lines of a concatenation are its maximal runs of lines joined by seams. -/
theorem lines_flatten_eq {ls : List Line} (hl : ∀ x ∈ ls, IsLine x) :
    lines ls.flatten = (ls.splitBy seam).map List.flatten := by
  induction ls with
  | nil => rfl
  | cons x ls ih =>
    have hx := hl x mem_cons_self
    have ih := ih fun y hy => hl y (mem_cons_of_mem _ hy)
    cases ls with
    | nil =>
      rw [flatten_singleton, lines_line hx]
      exact (congrArg (fun y => [y]) (flatten_singleton (l := x))).symm
    | cons y ys =>
      have hy := (hl y (mem_cons_of_mem _ mem_cons_self)).ne_nil
      obtain ⟨g, gs, hg⟩ := exists_cons_of_ne_nil
        (splitBy_ne_nil.mpr (cons_ne_nil y ys) : (y :: ys).splitBy seam ≠ [])
      rw [hg, map_cons] at ih
      have hhead : g.flatten.head? = y.head? := by
        have h := congrArg flatten hg
        rw [flatten_splitBy] at h
        obtain ⟨z, g', rfl⟩ := exists_cons_of_ne_nil (ne_nil_of_mem_splitBy
          (hg ▸ mem_cons_self : g ∈ (y :: ys).splitBy seam))
        rw [flatten_cons, cons_append] at h
        rw [← (cons.inj h).1, flatten_cons, head?_append_of_ne_nil _ hy]
      have hseam : seam x g.flatten = seam x y := by
        unfold seam
        rw [hhead]
      rw [flatten_cons, lines_line_append hx ih, hseam]
      by_cases hxy : seam x y
      · obtain ⟨g', gs', h1, h2⟩ := splitBy_cons_of_rel ys hxy
        rw [hg] at h1
        obtain ⟨rfl, rfl⟩ := cons.inj h1
        rw [if_pos hxy, h2, map_cons, flatten_cons]
      · have hsplit : (x :: y :: ys).splitBy seam = [x] :: (y :: ys).splitBy seam := by
          refine splitBy_append_cons (l := [x]) ys fun z hz => ?_
          rw [← Option.some.inj hz]
          simpa using hxy
        rw [if_neg hxy, hsplit, hg, map_cons, map_cons, flatten_singleton]

/-! ## The text of a merge -/

/-- Why a line runs into the next one: it is the end of an input and has no terminator, or it ends
in a CR and the next line is an LF alone. -/
def Glued (base left right : Bytes) (x y : Line) : Prop :=
  (¬ terminated x ∧ ∃ text ∈ [base, left, right], (lines text).getLast? = some x) ∨
    (x.getLast? = some cr ∧ y = [lf])

theorem IsLine.eq_lf (h : IsLine y) (hy : y.head? = some lf) : y = [lf] := by
  have hbare : ∀ u t : Bytes, (∀ c ∈ u, ¬ isTerminator c) → (u ++ t).head? = some lf → u = [] := by
    intro u t hu hh
    cases u with
    | nil => rfl
    | cons c u =>
      rw [cons_append, head?_cons] at hh
      exact absurd (Option.some.inj hh ▸ by decide) (hu c mem_cons_self)
  cases h with
  | @bare u hu hne => exact absurd (hbare _ [] hu (by rwa [append_nil])) hne
  | @ended u c hu hc =>
    obtain rfl : u = [] := hbare _ _ hu hy
    exact congrArg (fun d => [d]) (Option.some.inj hy)
  | @crlf u hu =>
    obtain rfl : u = [] := hbare _ _ hu hy
    exact absurd (Option.some.inj hy) (by decide)

theorem LineOf.exists_text (h : LineOf (lines base) (lines left) (lines right) x) :
    ∃ text ∈ [base, left, right], x ∈ lines text := by
  rcases h with h | h | h
  · exact ⟨base, by simp, h⟩
  · exact ⟨left, by simp, h⟩
  · exact ⟨right, by simp, h⟩

theorem glued_of_seam (hx : LineOf (lines base) (lines left) (lines right) x)
    (hy : LineOf (lines base) (lines left) (lines right) y) (h : seam x y) :
    Glued base left right x y := by
  obtain ⟨text, ht, hx⟩ := hx.exists_text
  obtain ⟨_, _, hy⟩ := hy.exists_text
  simp only [seam, Bool.or_eq_true, Bool.not_eq_true', Bool.and_eq_true, beq_iff_eq] at h
  rcases h with h | ⟨h1, h2⟩
  · have hn : ¬ terminated x := by simp [h]
    exact .inl ⟨hn, text, ht, getLast?_of_not_terminated text [] x hx hn⟩
  · exact .inr ⟨h1, (isLine_of_mem hy).eq_lf h2⟩

/-- What becomes of the lines of the inputs. -/
structure LinesKept (base left right text : Bytes) : Prop where
  /-- The text is made of whole input lines, and its lines are their runs joined at seams. -/
  runs : ∃ pieces : List Line, (∀ x ∈ pieces, LineOf (lines base) (lines left) (lines right) x) ∧
    text = pieces.flatten ∧ lines text = (pieces.splitBy seam).map List.flatten
  /-- A line of the text is an input line, or input lines joined. -/
  line : ∀ x ∈ lines text, LineOf (lines base) (lines left) (lines right) x ∨
    ∃ run : List Line, 2 ≤ run.length ∧ x = run.flatten ∧
      (∀ y ∈ run, LineOf (lines base) (lines left) (lines right) y) ∧
      run.IsChain (Glued base left right)
  /-- Where all input lines end in an LF nothing is joined. -/
  ended : (∀ x, LineOf (lines base) (lines left) (lines right) x → x.getLast? = some lf) →
    ∀ x ∈ lines text, LineOf (lines base) (lines left) (lines right) x

theorem LinesKept.of_madeOf (h : MadeOf (LineOf (lines base) (lines left) (lines right)) text) :
    LinesKept base left right text := by
  obtain ⟨pieces, hp, rfl⟩ := h
  have hlines := lines_flatten_eq fun x hx => by
    obtain ⟨_, _, h⟩ := (hp x hx).exists_text
    exact isLine_of_mem h
  have hline : ∀ x ∈ lines pieces.flatten,
      LineOf (lines base) (lines left) (lines right) x ∨
        ∃ run : List Line, 2 ≤ run.length ∧ x = run.flatten ∧
          (∀ y ∈ run, LineOf (lines base) (lines left) (lines right) y) ∧
          run.IsChain (Glued base left right) := by
    intro x hx
    rw [hlines] at hx
    obtain ⟨run, hrun, rfl⟩ := mem_map.mp hx
    have hmem : ∀ y ∈ run, LineOf (lines base) (lines left) (lines right) y := fun y hy =>
      hp y (flatten_splitBy seam pieces ▸ mem_flatten_of_mem hrun hy)
    rcases Nat.lt_or_ge run.length 2 with hlen | hlen
    · have hne := length_pos_iff.mpr (ne_nil_of_mem_splitBy hrun)
      obtain ⟨y, rfl⟩ := length_eq_one_iff.mp (by omega : run.length = 1)
      rw [flatten_singleton]
      exact .inl (hmem y mem_cons_self)
    · refine .inr ⟨run, hlen, rfl, hmem, ?_⟩
      exact (isChain_of_mem_splitBy hrun).imp_of_mem_imp fun y z hy hz h =>
        glued_of_seam (hmem y hy) (hmem z hz) h
  refine ⟨⟨pieces, hp, rfl, hlines⟩, hline, fun hended x hx => ?_⟩
  rcases hline x hx with h | ⟨run, hlen, -, hmem, hglued⟩
  · exact h
  · obtain ⟨y, z, rest, rfl⟩ : ∃ y z rest, run = y :: z :: rest := by
      rcases run with _ | ⟨y, _ | ⟨z, rest⟩⟩
      · exact absurd hlen (by simp)
      · exact absurd hlen (by simp)
      · exact ⟨y, z, rest, rfl⟩
    have hy := hended y (hmem y mem_cons_self)
    rcases (isChain_cons_cons.mp hglued).1 with ⟨hn, -⟩ | ⟨hcr, -⟩
    · exact absurd (by simp [terminated, hy, isTerminator]) hn
    · rw [hy] at hcr
      exact absurd (Option.some.inj hcr) (by decide)

/-- `Merge` puts whole lines of its inputs together. It adds no terminator where a chosen block has
none, so that two of them can become one line. -/
theorem merge_lines (limits : Budget) (lib : Library) (base left right : Bytes) :
    Yields (fun _ => True) (merge limits lib base left right) fun out =>
      LinesKept base left right out.text :=
  (merge_yields limits lib base left right).weaken fun _ h => .of_madeOf h.1.rest

/-- The left side drops the terminator of the last line and the right side adds a line behind it:
the two become one. -/
theorem merge_joins_lines :
    ∃ out,
      Returns (merge .unlimited ⟨fun _ => 0, fun _ _ => 0⟩ [97, 10] [98] [97, 10, 99, 10]) out ∧
        out.conflicts = [] ∧ ∃ x ∈ lines out.text,
          ¬ LineOf (lines [97, 10]) (lines [98]) (lines [97, 10, 99, 10]) x := by
  have hrun : (merge .unlimited ⟨fun _ => 0, fun _ _ => 0⟩ [97, 10] [98] [97, 10, 99, 10]).run {} =
      .ok (⟨[98, 99, 10], [], [⟨0, 1, 0, 0, 1, 2, 0, 1, .left⟩, ⟨1, 1, 1, 1, 0, 2, 1, 3, .right⟩]⟩,
        ⟨3, 61⟩) := by
    decide +kernel
  refine ⟨_, ⟨_, _, hrun⟩, rfl, [98, 99, 10], by decide, ?_⟩
  unfold LineOf
  decide

end Hc.Compare
