import HyperCommander.Document.Epub.SourceMap

/-!
# The spans of a source map

* `scanMarkup_ordered`: the tokens stand in order.
* `Nested`: spans are nested or apart, texts hold no span, and their tables are sorted.
* `nested_of_run`: every run over ordered tokens keeps that.
* `spans_of_load`: so what is loaded is nested.
-/

namespace Hc.Document.Epub

open Option List Unicode

/-! ### Tokens in order -/

/-- Tokens from `lo` on, up to `hi`. -/
def Ordered (hi : Nat) : (lo : Nat) → List MarkupToken → Prop
  | lo, [] => lo ≤ hi
  | lo, t :: rest => lo ≤ t.begin_ ∧ t.begin_ ≤ t.end_ ∧ (t.kind ≠ .cdata → t.begin_ < t.end_) ∧
      ∃ lo', t.end_ ≤ lo' ∧ Ordered hi lo' rest

theorem tagEnd_lt {brackets : Int} {quote : UInt16} {source : Units} {n : Nat}
    (h : tagEnd brackets quote source = some n) : n < source.length := by
  induction source generalizing brackets quote n with
  | nil => cases h
  | cons c rest ih =>
    rw [tagEnd] at h
    simp only [length_cons]
    split_ifs at h
    all_goals first
      | (obtain ⟨k, hk, rfl⟩ := map_eq_some_iff.1 h
         have := ih hk
         omega)
      | (cases h
         omega)

theorem scanFront_spec {source : Units} {t : MarkupToken} {n : Nat} (hs : source ≠ [])
    (h : scanFront source = some (t, n)) :
    t.begin_ ≤ t.end_ ∧ (t.kind ≠ .cdata → t.begin_ < t.end_) ∧ t.end_ ≤ n ∧ n ≤ source.length := by
  obtain ⟨c, rest, rfl⟩ := exists_cons_of_ne_nil hs
  have hpos := pos_of_scanFront h
  unfold scanFront at h
  split at h
  · unfold scanConstruct at h
    split at h
    · obtain ⟨k, hk, hkn⟩ := map_eq_some_iff.1 h
      cases hkn
      have hle := findText_le hk
      have hlit : (lit "-->").length = 3 := rfl
      rw [hlit, length_drop] at hle
      exact ⟨by simp, fun _ => by simp, le_rfl, by omega⟩
    · split at h
      · obtain ⟨k, hk, hkn⟩ := map_eq_some_iff.1 h
        cases hkn
        have hle := findText_le hk
        have hlit : (lit "]]>").length = 3 := rfl
        rw [hlit, length_drop] at hle
        refine ⟨?_, fun hc => absurd rfl hc, ?_, ?_⟩
        · dsimp only
          omega
        · dsimp only
          omega
        · omega
      · obtain ⟨k, hk, hkn⟩ := map_eq_some_iff.1 h
        cases hkn
        have hlt := tagEnd_lt hk
        rw [tail_cons] at hlt
        refine ⟨by simp, fun _ => by simp, le_rfl, ?_⟩
        simp only [length_cons]
        omega
  · cases h
    refine ⟨by simp, fun _ => hpos, le_rfl, ?_⟩
    have htext : (c :: rest).takeWhile (· ≠ 0x3c) <+: c :: rest := takeWhile_prefix _
    exact htext.length_le

theorem scanFrom_ordered {pos : Nat} {source : Units} {tokens : List MarkupToken}
    (h : scanFrom pos source = some tokens) : Ordered (pos + source.length) pos tokens := by
  induction hn : source.length using Nat.strongRecOn generalizing pos source tokens with
  | ind m ih =>
    by_cases hs : source = []
    · subst hs
      rw [scanFrom_nil] at h
      cases h
      simp [Ordered]
    · rw [scanFrom_eq hs] at h
      obtain ⟨⟨t, n⟩, hf, h⟩ := bind_eq_some_iff.1 h
      obtain ⟨rest, hrest, rfl⟩ := map_eq_some_iff.1 h
      obtain ⟨hle, hlt, hend, hn'⟩ := scanFront_spec hs hf
      have hpos : 0 < n := by
        obtain ⟨c, tail, rfl⟩ := exists_cons_of_ne_nil hs
        exact pos_of_scanFront hf
      have hrec := ih (source.drop n).length (by rw [length_drop]; omega) hrest rfl
      rw [length_drop] at hrec
      refine ⟨by simp [MarkupToken.shift], ?_, ?_, pos + n, ?_, ?_⟩
      · simpa [MarkupToken.shift] using hle
      · simpa [MarkupToken.shift] using hlt
      · simpa [MarkupToken.shift] using hend
      · rwa [show pos + n + (source.length - n) = pos + m by omega] at hrec

theorem scanMarkup_ordered {source : Units} {tokens : List MarkupToken}
    (h : scanMarkup source = some tokens) :
    Ordered source.length 0 tokens := by
  have := scanFrom_ordered h
  rwa [Nat.zero_add] at this

/-! ### Tables of positions -/

section Tables

variable {table : List Nat} {v : Nat}

/-- In a sorted table the entries up to a bound are those in front. -/
theorem lt_takeWhile_iff {P : Nat → Bool} (hP : ∀ a b, a ≤ b → P b = true → P a = true)
    (h : table.Pairwise (· ≤ ·)) {i : Nat} (hi : i < table.length) :
    i < (table.takeWhile P).length ↔ P table[i] = true := by
  induction table generalizing i with
  | nil => simp at hi
  | cons a table ih =>
    rw [pairwise_cons] at h
    by_cases ha : P a = true
    · rw [takeWhile_cons_of_pos ha]
      cases i with
      | zero => simpa using ha
      | succ i => simpa using ih h.2 (by simpa using hi)
    · rw [takeWhile_cons_of_neg ha]
      cases i with
      | zero => simpa using ha
      | succ i =>
        have hlt : i < table.length := by simpa using hi
        have hle := h.1 table[i] (getElem_mem hlt)
        simp only [length_nil, Nat.not_lt_zero, getElem_cons_succ, false_iff]
        exact fun hi => ha (hP _ _ hle hi)

theorem lt_upperBound_iff (h : table.Pairwise (· ≤ ·)) {i : Nat} (hi : i < table.length) :
    i < upperBound table v ↔ table[i] ≤ v := by
  rw [upperBound, lt_takeWhile_iff _ h hi, decide_eq_true_eq]
  intro a b hab hb
  rw [decide_eq_true_eq] at hb ⊢
  omega

theorem lt_lowerBound_iff (h : table.Pairwise (· ≤ ·)) {i : Nat} (hi : i < table.length) :
    i < lowerBound table v ↔ table[i] < v := by
  rw [lowerBound, lt_takeWhile_iff _ h hi, decide_eq_true_eq]
  intro a b hab hb
  rw [decide_eq_true_eq] at hb ⊢
  omega

theorem upperBound_le : upperBound table v ≤ table.length := by
  have hfront : table.takeWhile (· ≤ v) <+: table := takeWhile_prefix _
  exact hfront.length_le

/-- The last entry that is not after a position, and the first of its copies. -/
theorem offset_spec (h : table.Pairwise (· ≤ ·)) {p : Nat} (hp : 0 < upperBound table p) :
    ∃ q, table[lowerBound table (table.getD (upperBound table p - 1) 0)]? = some q ∧ q ≤ p ∧
      0 < upperBound table q ∧
      lowerBound table (table.getD (upperBound table q - 1) 0) =
        lowerBound table (table.getD (upperBound table p - 1) 0) := by
  have hle : upperBound table p ≤ table.length := upperBound_le
  have hk : upperBound table p - 1 < table.length := by omega
  have hmono : ∀ {i j : Nat} (hi : i < table.length) (hj : j < table.length), i ≤ j →
      table[i] ≤ table[j] := by
    intro i j hi hj hij
    rcases Nat.eq_or_lt_of_le hij with rfl | hij
    · exact le_rfl
    · exact pairwise_iff_getElem.1 h i j hi hj hij
  have hget : ∀ {i : Nat} (hi : i < table.length), table.getD i 0 = table[i] := by
    intro i hi
    rw [getD_eq_getElem?_getD, getElem?_eq_getElem hi, getD_some]
  rw [hget hk]
  have hvp : table[upperBound table p - 1] ≤ p := (lt_upperBound_iff h hk).1 (by omega)
  generalize hv : table[upperBound table p - 1] = v at hvp ⊢
  -- the first copy
  have hj : lowerBound table v ≤ upperBound table p - 1 := by
    have := (lt_lowerBound_iff (v := v) h hk).not
    rw [hv] at this
    omega
  have hjlt : lowerBound table v < table.length := by omega
  have hjv : table[lowerBound table v] = v := by
    have h1 := (lt_lowerBound_iff (v := v) h hjlt).not
    have h2 := hmono hjlt hk hj
    rw [hv] at h2
    omega
  -- the last copy
  have hm : upperBound table p - 1 < upperBound table v := (lt_upperBound_iff h hk).2 (by omega)
  have hmle : upperBound table v ≤ table.length := upperBound_le
  have hmlt : upperBound table v - 1 < table.length := by omega
  have hmv : table[upperBound table v - 1] = v := by
    have h1 := (lt_upperBound_iff (v := v) h hmlt).1 (by omega)
    have h2 := hmono hk hmlt (by omega)
    rw [hv] at h2
    omega
  refine ⟨v, ?_, hvp, by omega, ?_⟩
  · rw [getElem?_eq_getElem hjlt, hjv]
  · rw [hget hmlt, hmv]

end Tables

/-! ### The table of a text -/

theorem entityUnits_pos {qt : XmlQt} {entity : Units} {n : Nat}
    (h : entityUnits qt entity = some n) :
    0 < n := by
  unfold entityUnits at h
  split at h
  · obtain ⟨point, _, rfl⟩ := map_eq_some_iff.1 h
    split <;> decide
  · cases h
    decide

/-- Entries at one position in front of entries further on. -/
theorem table_cons {pos pos' stop units : Nat} {os : List Nat} (hu : 0 < units) (hpos : pos < pos')
    (hle : pos' ≤ stop) (hs : os.Pairwise (· ≤ ·)) (hb : ∀ o ∈ os, pos' ≤ o ∧ o < stop) :
    (List.replicate units pos ++ os).Pairwise (· ≤ ·) ∧
      (∀ o ∈ List.replicate units pos ++ os, pos ≤ o ∧ o < stop) ∧
      (List.replicate units pos ++ os).head? = some pos := by
  obtain ⟨n, rfl⟩ : ∃ n, units = n + 1 := ⟨units - 1, by omega⟩
  refine ⟨?_, ?_, by simp [replicate_succ]⟩
  · rw [pairwise_append]
    refine ⟨pairwise_replicate.2 (.inr le_rfl), hs, fun a ha b hb' => ?_⟩
    rw [eq_of_mem_replicate ha]
    have := (hb b hb').1
    omega
  · intro o ho
    rcases mem_append.1 ho with ho | ho
    · rw [eq_of_mem_replicate ho]
      omega
    · have := hb o ho
      omega

/-- The table of a text is sorted and lies inside of the text, and begins with its first
position. -/
theorem offsetsFrom_spec {qt : XmlQt} {cdata : Bool} {pos : Nat} {text : Units} {os : List Nat}
    (h : offsetsFrom qt cdata pos text = some os) :
    os.Pairwise (· ≤ ·) ∧ (∀ o ∈ os, pos ≤ o ∧ o < pos + text.length) ∧
      (text ≠ [] → os.head? = some pos) := by
  -- one step over `used` units in front of `rest`
  have step : ∀ (pos used units : Nat) (rest : Units) (os : List Nat) (stop : Nat),
      0 < used → 0 < units →
      stop = pos + used + rest.length →
      (os.Pairwise (· ≤ ·) ∧ (∀ o ∈ os, pos + used ≤ o ∧ o < pos + used + rest.length) ∧
        (rest ≠ [] → os.head? = some (pos + used))) →
      (replicate units pos ++ os).Pairwise (· ≤ ·) ∧
        (∀ o ∈ replicate units pos ++ os, pos ≤ o ∧ o < stop) ∧
        (replicate units pos ++ os).head? = some pos := by
    rintro pos used units rest os stop hused hunits rfl ⟨h1, h2, _⟩
    exact table_cons hunits (by omega) (by omega) h1 h2
  fun_induction offsetsFrom qt cdata pos text generalizing os with
  | case1 pos =>
    cases h
    exact ⟨.nil, by simp, fun hne => absurd rfl hne⟩
  | case2 pos c rest hamp hfind => cases h
  | case3 pos c rest hamp n hfind hunits => cases h
  | case4 pos c rest hamp n hfind units hunits ih =>
    obtain ⟨os', hos, rfl⟩ := map_eq_some_iff.1 h
    have hle := findText_le hfind
    obtain ⟨h1, h2, h3⟩ := step pos (n + 2) units (rest.drop (n + 1)) os' (pos + (c :: rest).length)
      (by omega) (entityUnits_pos hunits)
      (by simp only [length_cons, length_drop] at hle ⊢; omega)
      (by rw [← Nat.add_assoc]; exact ih hos)
    exact ⟨h1, h2, fun _ => h3⟩
  | case5 pos c rest hamp hcr ih =>
    obtain ⟨os', hos, rfl⟩ := map_eq_some_iff.1 h
    obtain ⟨d, tail, rfl⟩ : ∃ d tail, rest = d :: tail := by
      cases rest with
      | nil => simp at hcr
      | cons d tail => exact ⟨d, tail, rfl⟩
    obtain ⟨h1, h2, h3⟩ :=
      step pos 2 1 tail os' (pos + (c :: d :: tail).length) (by omega) (by omega)
      (by simp only [length_cons]; omega) (ih hos)
    exact ⟨h1, h2, fun _ => h3⟩
  | case6 pos c rest hamp hcr ih =>
    obtain ⟨os', hos, rfl⟩ := map_eq_some_iff.1 h
    obtain ⟨h1, h2, h3⟩ := step pos 1 1 rest os' (pos + (c :: rest).length) (by omega) (by omega)
      (by simp only [length_cons]; omega) (ih hos)
    exact ⟨h1, h2, fun _ => h3⟩

theorem length_slice {source : Units} (begin_ : Nat) {end_ : Nat} (h : end_ ≤ source.length) :
    (slice source begin_ end_).length = end_ - begin_ := by
  rw [slice, length_take, length_drop]
  omega

/-! ### Spans that are nested or apart -/

/-- A text has a sorted table from its first position to its end; an element has none. -/
structure Span.Good (s : Span) : Prop where
  nonempty : s.begin_ < s.end_
  depth : s.path.length ≤ 128
  kind : s.child = -1 ∧ s.offsets = [] ∨ 0 ≤ s.child ∧ ∃ os, s.offsets = os ++ [s.end_] ∧
    os.Pairwise (· ≤ ·) ∧ (∀ o ∈ os, s.begin_ ≤ o ∧ o < s.end_) ∧ os.head? = some s.begin_

/-- Two spans in the order in which they were found: the second begins later, and it lies behind the
first, inside of it, or the first is still open. -/
def Apart (opened : List Span) (s t : Span) : Prop :=
  s.begin_ < t.begin_ ∧ (s ∈ opened ∨ s.end_ ≤ t.begin_ ∨ s.child = -1 ∧
  t.end_ < s.end_ ∧ t ∉ opened)

/-- The paths of open elements get shorter by one. -/
def Depths : List (Frame × Span) → Prop
  | [] => True
  | x :: rest => x.2.path.length = rest.length ∧ Depths rest

/-- What the visitor keeps up to a position; `opened` are the open elements with their spans. -/
structure Nested (s : Loading) (opened : List (Frame × Span)) (pos : Nat) : Prop where
  stack : s.stack = opened.map Prod.fst
  spans : ∀ x ∈ opened, s.spans[x.1.span]? = some x.2 ∧ x.2.child = -1
  later : opened.Pairwise fun x y => y.2.begin_ < x.2.begin_
  depths : Depths opened
  order : s.spans.Pairwise (Apart (opened.map Prod.snd))
  good : ∀ sp ∈ s.spans, sp.Good
  before : ∀ sp ∈ s.spans, sp.begin_ < pos ∧ sp.end_ ≤ pos

section Run

variable {qt : XmlQt} {source : Units} {s s' : Loading} {opened : List (Frame × Span)} {pos : Nat}

theorem Nested.later_pos (h : Nested s opened pos) {pos' : Nat} (hp : pos ≤ pos') :
    Nested s opened pos' :=
  { h with
    before := fun sp hsp => by
      obtain ⟨h1, h2⟩ := h.before sp hsp
      exact ⟨by omega, by omega⟩ }

theorem nested_start : Nested {} [] 0 :=
  ⟨rfl, by simp, .nil, trivial, .nil, by simp, by simp⟩

variable {sp : Span} {f : Frame} {rest : List (Frame × Span)} {begin_ end_ : Nat}

/-- A span is added behind everything. -/
theorem Nested.append (h : Nested s opened pos) (hb : pos ≤ sp.begin_) (hg : sp.Good) :
    (s.spans ++ [sp]).Pairwise (Apart (opened.map Prod.snd)) ∧ (∀ x ∈ s.spans ++ [sp], x.Good) ∧
      (∀ x ∈ s.spans ++ [sp], x.begin_ < sp.end_ ∧ x.end_ ≤ sp.end_) ∧
      (∀ x ∈ opened, (s.spans ++ [sp])[x.1.span]? = some x.2 ∧ x.2.child = -1) := by
  refine ⟨?_, ?_, ?_, ?_⟩
  · rw [pairwise_append]
    refine ⟨h.order, pairwise_singleton _ _, fun a ha b hb' => ?_⟩
    rw [mem_singleton] at hb'
    subst hb'
    obtain ⟨h1, h2⟩ := h.before a ha
    exact ⟨by omega, .inr (.inl (by omega))⟩
  · simp only [mem_append, mem_singleton]
    rintro x (hx | rfl)
    · exact h.good x hx
    · exact hg
  · have := hg.nonempty
    simp only [mem_append, mem_singleton]
    rintro x (hx | rfl)
    · obtain ⟨h1, h2⟩ := h.before x hx
      exact ⟨by omega, by omega⟩
    · exact ⟨this, le_rfl⟩
  · intro x hx
    obtain ⟨h1, h2⟩ := h.spans x hx
    rw [List.getElem?_append_left (List.getElem?_eq_some_iff.1 h1).1]
    exact ⟨h1, h2⟩

/-- The innermost open element with other counters. -/
theorem Nested.retop (h : Nested s ((f, sp) :: rest) pos) (f' : Frame) (hf : f'.span = f.span) :
    Nested { s with stack := f' :: rest.map Prod.fst } ((f', sp) :: rest) pos := by
  refine ⟨rfl, ?_, ?_, h.depths, h.order, h.good, h.before⟩
  · intro x hx
    rcases mem_cons.1 hx with rfl | hx
    · have := h.spans (f, sp) mem_cons_self
      rwa [hf]
    · exact h.spans x (mem_cons_of_mem _ hx)
  · have := h.later
    rw [pairwise_cons] at this ⊢
    exact this

theorem Nested.path_eq (h : Nested s ((f, sp) :: rest) pos) : s.path = sp.path := by
  have hsp := (h.spans (f, sp) mem_cons_self).1
  rw [Loading.path, h.stack, map_cons, head?_cons, bind_some, hsp]
  rfl

theorem Nested.length_path
    (h : Nested s ((f, sp) :: rest) pos) : sp.path.length = rest.length := h.depths.1

theorem Nested.countChild (h : Nested s opened pos) :
    ∃ opened', Nested s.countChild opened' pos ∧ opened'.length = opened.length := by
  unfold Loading.countChild
  cases opened with
  | nil =>
    rw [show s.stack = [] from h.stack]
    exact ⟨[], h, rfl⟩
  | cons x rest =>
    obtain ⟨f, sp⟩ := x
    rw [show s.stack = f :: rest.map Prod.fst from h.stack]
    exact ⟨_, h.retop _ rfl, rfl⟩

theorem Nested.addText (h : Nested s opened pos) {cdata : Bool} (hb : pos ≤ begin_)
    (hlt : begin_ ≤ end_) (he : end_ ≤ source.length) (hdepth : s.stack.length ≤ 128) :
    ∃ opened', Nested (s.addText qt source begin_ end_ cdata) opened' end_ ∧
      opened'.length = opened.length := by
  unfold Loading.addText
  cases opened with
  | nil =>
    rw [show s.stack = [] from h.stack]
    exact ⟨[], h.later_pos (by omega), rfl⟩
  | cons x rest =>
    obtain ⟨f, sp⟩ := x
    have hstack : s.stack = f :: rest.map Prod.fst := h.stack
    have hcount : s.countChild =
        { s with stack := { f with children := f.children + 1 } :: rest.map Prod.fst } := by
      rw [Loading.countChild, hstack]
    have hnext := h.retop { f with children := f.children + 1 } rfl
    rw [hcount]
    simp only [hstack]
    split
    · exact ⟨_, h.later_pos (by omega), rfl⟩
    · rename_i hne
      split
      · exact ⟨_, hnext.later_pos (by omega), rfl⟩
      · rename_i os hos
        obtain ⟨hsorted, hin, hhead⟩ := offsetsFrom_spec hos
        rw [length_slice begin_ he, show begin_ + (end_ - begin_) = end_ by omega] at hin
        have hsome : slice source begin_ end_ ≠ [] := by
          intro hnil
          have := length_slice begin_ he
          rw [hnil, length_nil] at this
          omega
        have hgood : Span.Good
            { path := s.path, child := f.children, begin_, end_, offsets := os ++ [end_] } := by
          refine ⟨?_, ?_, .inr ⟨by simp, os, rfl, hsorted, hin, hhead hsome⟩⟩
          · dsimp only
            omega
          · dsimp only
            rw [h.path_eq, h.length_path]
            rw [hstack] at hdepth
            simp only [length_cons, length_map] at hdepth
            omega
        obtain ⟨horder, hgoods, hbefore, hspans⟩ := hnext.append hb hgood
        exact ⟨_, ⟨rfl, hspans, hnext.later, hnext.depths, horder, hgoods, hbefore⟩, rfl⟩

theorem Nested.addElement (h : Nested s opened pos) {isStart : Bool} (hb : pos ≤ begin_)
    (hlt : begin_ < end_) (hdepth : s.stack.length ≤ 128) :
    ∃ opened', Nested (s.addElement begin_ end_ isStart) opened' end_ := by
  -- the new element, and what it does to the open ones
  have push : ∀ {opened : List (Frame × Span)} {stack : List Frame},
    Nested { s with stack } opened pos →
      ∀ sp : Span, sp.Good → sp.child = -1 → sp.begin_ = begin_ → sp.end_ = end_ →
      sp.path.length = opened.length → ∃ opened', Nested { spans := s.spans ++ [sp], stack :=
        if isStart then { span := s.spans.length } :: stack else stack } opened' end_ := by
    intro opened stack h sp hg hchild hsb hse hpath
    obtain ⟨horder, hgoods, hbefore, hspans⟩ := h.append (by omega) hg
    rw [hse] at hbefore
    cases isStart with
    | false => exact ⟨opened, h.stack, hspans, h.later, h.depths, horder, hgoods, hbefore⟩
    | true =>
      refine ⟨({ span := s.spans.length }, sp) :: opened, congrArg _ h.stack, ?_, ?_,
        ⟨hpath, h.depths⟩, ?_,
        hgoods, hbefore⟩
      · intro x hx
        rcases mem_cons.1 hx with rfl | hx
        · exact ⟨by simp, hchild⟩
        · exact hspans x hx
      · refine pairwise_cons.2 ⟨fun x hx => ?_, h.later⟩
        have := (h.before x.2 (mem_of_getElem? (h.spans x hx).1)).1
        dsimp only
        omega
      · -- only the new span changes from closed to open, and nothing is behind it
        rw [pairwise_append] at horder ⊢
        refine ⟨?_, pairwise_singleton _ _, fun a ha b hb' => ?_⟩
        · refine horder.1.imp_of_mem fun {a b} ha hb' hab => ?_
          have hnb : b ≠ sp := by
            rintro rfl
            have := (h.before b hb').1
            omega
          refine ⟨hab.1, ?_⟩
          rcases hab.2 with ho | ho | ⟨h1, h2, h3⟩
          · exact .inl (mem_cons_of_mem _ ho)
          · exact .inr (.inl ho)
          · exact .inr (.inr ⟨h1, h2, fun hm => (mem_cons.1 hm).elim hnb h3⟩)
        · rw [mem_singleton] at hb'
          subst hb'
          obtain ⟨h1, h2⟩ := h.before a ha
          exact ⟨by omega, .inr (.inl (by omega))⟩
  unfold Loading.addElement
  cases opened with
  | nil =>
    have hstack : s.stack = [] := h.stack
    simp only [hstack]
    refine push (?_ : Nested { s with stack := [] } [] pos) _ ⟨hlt, by simp, .inl ⟨rfl, rfl⟩⟩
      rfl rfl rfl rfl
    rw [← hstack]
    exact h
  | cons x rest =>
    obtain ⟨f, sp⟩ := x
    have hstack : s.stack = f :: rest.map Prod.fst := h.stack
    have hlength := h.length_path
    rw [hstack] at hdepth
    simp only [hstack]
    refine push (h.retop { f with elements := f.elements + 1, children := f.children + 1 } rfl) _
      ⟨hlt, ?_, .inl ⟨rfl, rfl⟩⟩ rfl rfl rfl ?_
    · dsimp only
      rw [h.path_eq, length_append, hlength]
      simpa using hdepth
    · dsimp only
      rw [h.path_eq, length_append, hlength]
      rfl

/-- An end tag closes the innermost open element. -/
theorem Nested.close {f : Frame} {sp : Span} {rest : List (Frame × Span)}
    (h : Nested s ((f, sp) :: rest) pos) {end_ : Nat} (he : pos < end_) :
    Nested
      { spans := s.spans.modify f.span fun sp => { sp with end_ }, stack := rest.map Prod.fst } rest
      end_ := by
  obtain ⟨hsp, hchild⟩ := h.spans (f, sp) mem_cons_self
  dsimp only at hsp hchild
  obtain ⟨hlt, hget⟩ := List.getElem?_eq_some_iff.1 hsp
  have hsplit : s.spans = s.spans.take f.span ++ sp :: s.spans.drop (f.span + 1) := by
    rw [← hget, getElem_cons_drop, take_append_drop]
  have hmodify : (s.spans.modify f.span fun sp => { sp with end_ }) =
      s.spans.take f.span ++ { sp with end_ } :: s.spans.drop (f.span + 1) := by
    rw [modify_eq_take_cons_drop hlt, hget]
  have hlater := pairwise_cons.1 h.later
  have hmem : sp ∈ s.spans := mem_of_getElem? hsp
  have hgood := h.good sp hmem
  have horder := h.order
  have hbefore := h.before
  have hgoods := h.good
  have hpos := h.before sp hmem
  rw [hmodify]
  refine ⟨rfl, ?_, hlater.2, h.depths.2, ?_, ?_, ?_⟩
  · intro x hx
    obtain ⟨hx1, hx2⟩ := h.spans x (mem_cons_of_mem _ hx)
    have hne : f.span ≠ x.1.span := by
      intro heq
      rw [← heq, hsp] at hx1
      cases hx1
      have := hlater.1 x hx
      dsimp only at this
      omega
    refine ⟨?_, hx2⟩
    rw [← hmodify, getElem?_modify_ne _ _ hne]
    exact hx1
  · rw [hsplit] at horder
    -- the closed element is open no more
    have hclosed : ∀ {a b : Span}, a.begin_ ≠ sp.begin_ →
      Apart ((f, sp) :: rest |>.map Prod.snd) a b →
        Apart (rest.map Prod.snd) a b := by
      intro a b ha hab
      refine ⟨hab.1, ?_⟩
      rcases hab.2 with ho | ho | ⟨h1, h2, h3⟩
      · rcases mem_cons.1 ho with rfl | ho
        · exact absurd rfl ha
        · exact .inl ho
      · exact .inr (.inl ho)
      · exact .inr (.inr ⟨h1, h2, fun hm => h3 (mem_cons_of_mem _ hm)⟩)
    rw [pairwise_append, pairwise_cons] at horder ⊢
    obtain ⟨hpre, ⟨hpost, hposts⟩, hcross⟩ := horder
    have hbehind : ∀ b ∈ s.spans.drop (f.span + 1), sp.begin_ < b.begin_ :=
      fun b hb => (hpost b hb).1
    refine ⟨?_, ⟨fun b hb => ?_, ?_⟩, fun a ha b hb => ?_⟩
    · refine hpre.imp_of_mem fun {a b} ha hb hab => hclosed ?_ hab
      have := (hcross a ha sp mem_cons_self).1
      omega
    · have hbm : b ∈ s.spans := mem_of_mem_drop hb
      have hlt' := hbehind b hb
      refine ⟨hlt', .inr (.inr ⟨hchild, ?_, fun hm => ?_⟩)⟩
      · have := (hbefore b hbm).2
        dsimp only
        omega
      · obtain ⟨x, hx, rfl⟩ := mem_map.1 hm
        have := hlater.1 x hx
        dsimp only at this
        omega
    · refine hposts.imp_of_mem fun {a b} ha hb hab => hclosed ?_ hab
      have := hbehind a ha
      omega
    · have hne : a.begin_ ≠ sp.begin_ := by
        have := (hcross a ha sp mem_cons_self).1
        omega
      rcases mem_cons.1 hb with rfl | hb
      · have hab := hcross a ha sp mem_cons_self
        refine ⟨hab.1, ?_⟩
        rcases (hclosed hne hab).2 with ho | ho | ⟨_, _, _⟩
        · exact .inl ho
        · exact .inr (.inl ho)
        · rcases hab.2 with ho | ho | ⟨_, _, h3⟩
          · rcases mem_cons.1 ho with rfl | ho
            · exact absurd rfl hne
            · exact .inl ho
          · exact .inr (.inl ho)
          · exact absurd mem_cons_self h3
      · exact hclosed hne (hcross a ha b (mem_cons_of_mem _ hb))
  · rw [hsplit] at hgoods
    intro x hx
    rcases mem_append.1 hx with hx | hx
    · exact hgoods x (mem_append_left _ hx)
    · rcases mem_cons.1 hx with rfl | hx
      · refine ⟨?_, hgood.depth, .inl ⟨hchild, ?_⟩⟩
        · dsimp only
          omega
        · rcases hgood.kind with hk | hk
          · exact hk.2
          · rw [hchild] at hk
            exact absurd hk.1 (by decide)
      · exact hgoods x (mem_append_right _ (mem_cons_of_mem _ hx))
  · rw [hsplit] at hbefore
    intro x hx
    rcases mem_append.1 hx with hx | hx
    · have := hbefore x (mem_append_left _ hx)
      omega
    · rcases mem_cons.1 hx with rfl | hx
      · dsimp only
        omega
      · have := hbefore x (mem_append_right _ (mem_cons_of_mem _ hx))
        omega

theorem Nested.step (h : Nested s opened pos) {t : MarkupToken} (hb : pos ≤ t.begin_)
    (hle : t.begin_ ≤ t.end_) (hlt : t.kind ≠ .cdata → t.begin_ < t.end_)
    (he : t.end_ ≤ source.length) (hs : s.step qt source t = some s') :
    ∃ opened', Nested s' opened' t.end_ := by
  unfold Loading.step at hs
  split at hs
  · cases hs
  · rename_i hlimit
    have hdepth : s.stack.length ≤ 128 := by omega
    have hcount : ∃ opened', Nested s.countChild opened' t.end_ := by
      obtain ⟨opened', hn, _⟩ := h.countChild
      exact ⟨opened', hn.later_pos (by omega)⟩
    cases hk : t.kind <;> rw [hk] at hs <;> dsimp only at hs
    case text =>
      cases hs
      obtain ⟨opened', hn, _⟩ := h.addText hb hle he hdepth
      exact ⟨opened', hn⟩
    case cdata =>
      cases hs
      obtain ⟨opened', hn, _⟩ := h.addText hb hle he hdepth
      exact ⟨opened', hn⟩
    case comment =>
      cases hs
      exact hcount
    case other =>
      cases hs
      split
      · exact hcount
      · exact ⟨opened, h.later_pos (by omega)⟩
    case end_ =>
      have hpos : pos < t.end_ := by
        have := hlt (by rw [hk]; decide)
        omega
      cases opened with
      | nil =>
        rw [show s.stack = [] from h.stack] at hs
        cases hs
      | cons x rest =>
        obtain ⟨f, sp⟩ := x
        rw [show s.stack = f :: rest.map Prod.fst from h.stack] at hs
        cases hs
        exact ⟨rest, h.close hpos⟩
    case start =>
      cases hs
      exact h.addElement hb (hlt (by rw [hk]; decide)) hdepth
    case empty =>
      cases hs
      exact h.addElement hb (hlt (by rw [hk]; decide)) hdepth

theorem Ordered.le {hi lo : Nat} {tokens : List MarkupToken} (h : Ordered hi lo tokens) :
    lo ≤ hi := by
  induction tokens generalizing lo with
  | nil => exact h
  | cons t rest ih =>
    obtain ⟨h1, h2, _, lo', h3, h4⟩ := h
    have := ih h4
    omega

/-- Every run over ordered tokens keeps the spans nested. -/
theorem nested_of_run {tokens : List MarkupToken} (h : Nested s opened pos)
    (ho : Ordered source.length pos tokens) (hs : s.run qt source tokens = some s') :
    ∃ opened' pos', Nested s' opened' pos' := by
  induction tokens generalizing s opened pos with
  | nil =>
    cases hs
    exact ⟨opened, pos, h⟩
  | cons t rest ih =>
    obtain ⟨mid, hstep, hrest⟩ := bind_eq_some_iff.1 hs
    obtain ⟨h1, h2, h3, lo', h4, h5⟩ := ho
    have hle := h5.le
    obtain ⟨opened', hn⟩ := h.step h1 h2 h3 (by omega) hstep
    exact ih (hn.later_pos h4) h5 hrest

end Run

/-- The spans of a source that is accepted. -/
theorem spans_of_load {qt : XmlQt} {source : Units} {spans : List Span}
    (h : load qt source = some spans) :
    spans.Pairwise (Apart []) ∧ ∀ sp ∈ spans, sp.Good := by
  unfold load at h
  split_ifs at h with h1 h2
  split at h
  · cases h
  · rename_i s hs
    split at h
    · rename_i hdone
      cases h
      obtain ⟨tokens, hscan, hrun⟩ := bind_eq_some_iff.1 hs
      obtain ⟨opened, pos, hn⟩ := nested_of_run nested_start (scanMarkup_ordered hscan) hrun
      have hnone : opened = [] := by
        have := hn.stack
        rw [hdone.1] at this
        exact map_eq_nil_iff.1 this.symm
      subst hnone
      exact ⟨hn.order, hn.good⟩
    · cases h

end Hc.Document.Epub
