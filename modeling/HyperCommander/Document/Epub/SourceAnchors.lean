import HyperCommander.Document.Epub.SourceSpans
import Mathlib.Data.List.Nodup

/-!
# Anchors are stable (`commonLibs/document/epub/epubSourceMap.cpp`)

* `named_of_run`: with one outermost tag the spans have distinct paths and child indices.
* `roots_of_run`: each outermost tag makes a span with the path and the child index of the root.
* `nearest_eq`: the smallest span around a position that no inner span holds.
* `anchors_stable`: anchors of an accepted source are stable exactly if its scan has one outermost
  tag.
-/

namespace Hc.Document.Epub

open Option List Unicode

/-- The start and empty tags that lie outside of all other elements. -/
def rootTags : (depth : Nat) → List MarkupToken → Nat
  | _, [] => 0
  | depth, t :: rest =>
    match t.kind with
    | .start => (if depth = 0 then 1 else 0) + rootTags (depth + 1) rest
    | .empty => (if depth = 0 then 1 else 0) + rootTags depth rest
    | .end_ => rootTags (depth - 1) rest
    | _ => rootTags depth rest

/-- The path and the child index of a span. -/
def Span.key (s : Span) : List Nat × Int := (s.path, s.child)

/-- The keys of the spans so far. -/
def Loading.keys (s : Loading) : List (List Nat × Int) := s.spans.map Span.key

/-- The path of an open element. -/
def Loading.pathOf (s : Loading) (f : Frame) : Option (List Nat) := s.keys[f.span]?.map Prod.fst

/-- No key was given twice, and the counters of open elements are beyond the keys given below
them. -/
structure Named (s : Loading) : Prop where
  distinct : s.keys.Nodup
  used : ∀ f ∈ s.stack, ∀ path, s.pathOf f = some path → ∀ key ∈ s.keys,
    (∀ k, path ++ [k] <+: key.1 → k < f.elements) ∧ (key.1 = path → key.2 < f.children)
  root : ∀ key, s.keys.head? = some key → key = ([], -1)

section Keys

variable {qt : XmlQt} {source : Units} {s s' : Loading} {opened : List (Frame × Span)} {pos : Nat}

theorem map_modify {α β : Type} {g : α → β} {f : α → α} (h : ∀ a, g (f a) = g a) (l : List α)
    (i : Nat) :
    (l.modify i f).map g = l.map g := by
  induction l generalizing i with
  | nil => cases i <;> rfl
  | cons a l ih =>
    cases i with
    | zero => simp [h]
    | succ i => simp [ih]

/-- The end of a span is not in its key. -/
theorem keys_close (s : Loading) (i end_ : Nat) (stack : List Frame) :
    Loading.keys { spans := s.spans.modify i (fun sp => { sp with end_ }), stack := stack } =
      s.keys :=
  map_modify (g := Span.key) (f := fun sp => { sp with end_ }) (fun _ => rfl) _ _

theorem Depths.lt {rest : List (Frame × Span)} (h : Depths rest) {x : Frame × Span}
    (hx : x ∈ rest) :
    x.2.path.length < rest.length := by
  induction rest with
  | nil => cases hx
  | cons y rest ih =>
    obtain ⟨hy, hrest⟩ := h
    rcases mem_cons.1 hx with rfl | hx
    · rw [hy]
      exact Nat.lt_succ_self _
    · have := ih hrest hx
      rw [length_cons]
      omega

variable {f : Frame} {rest : List Frame} {tokens : List MarkupToken}

/-- The path of the innermost open element is a key, and those of the others are shorter. -/
theorem Nested.paths (h : Nested s opened pos) (hs : s.stack = f :: rest) :
    s.pathOf f = some s.path ∧ (∃ c, (s.path, c) ∈ s.keys) ∧
      ∀ g ∈ rest, g.span < s.keys.length ∧ ∀ path, s.pathOf g = some path →
        path.length < s.path.length := by
  have hlookup : ∀ x ∈ opened, s.pathOf x.1 = some x.2.path := by
    intro x hx
    rw [Loading.pathOf, Loading.keys, getElem?_map, (h.spans x hx).1]
    rfl
  cases opened with
  | nil =>
    have := h.stack
    rw [hs] at this
    cases this
  | cons x opened =>
    obtain ⟨f', sp⟩ := x
    have hstack := h.stack
    rw [hs, map_cons] at hstack
    obtain ⟨rfl, rfl⟩ := cons.inj hstack
    rw [h.path_eq]
    refine ⟨hlookup _ mem_cons_self, ⟨sp.child, ?_⟩, fun g hg => ?_⟩
    · exact mem_map.2 ⟨sp, mem_of_getElem? (h.spans _ mem_cons_self).1, rfl⟩
    · obtain ⟨x, hx, rfl⟩ := mem_map.1 hg
      have hspan := (h.spans x (mem_cons_of_mem _ hx)).1
      refine ⟨?_, fun path hp => ?_⟩
      · rw [Loading.keys, length_map]
        exact (List.getElem?_eq_some_iff.1 hspan).1
      · rw [hlookup x (mem_cons_of_mem _ hx)] at hp
        cases hp
        have := h.depths.2.lt hx
        rw [h.length_path]
        exact this

/-- A key that the counters of the innermost element are beyond. -/
theorem Named.push (hn : Named s) (h : Nested s opened pos)
    (hs : s.stack = f :: rest) (f' : Frame) (hspan : f'.span = f.span)
    (hel : f.elements ≤ f'.elements) (hch : f.children ≤ f'.children) {sp : Span}
    (hfresh : sp.key ∉ s.keys)
    (hkey : (∀ k, s.path ++ [k] <+: sp.path → k < f'.elements) ∧
      (sp.path = s.path → sp.child < f'.children))
    (hother : ∀ path : List Nat, path.length < s.path.length → sp.path ≠ path ∧
      ∀ k, path ++ [k] <+: sp.path → path ++ [k] <+: s.path) :
    Named { spans := s.spans ++ [sp], stack := f' :: rest } := by
  obtain ⟨htop, ⟨c, hc⟩, hlow⟩ := h.paths hs
  have hkeys : Loading.keys { spans := s.spans ++ [sp], stack := f' :: rest } =
      s.keys ++ [sp.key] := by
    simp [Loading.keys]
  have hlookup : ∀ g : Frame, g.span < s.keys.length →
      Loading.pathOf { spans := s.spans ++ [sp], stack := f' :: rest } g = s.pathOf g := by
    intro g hg
    rw [Loading.pathOf, hkeys, getElem?_append_left hg]
    rfl
  have htoplt : f.span < s.keys.length := by
    rw [Loading.pathOf, map_eq_some_iff] at htop
    obtain ⟨_, hget, _⟩ := htop
    exact (List.getElem?_eq_some_iff.1 hget).1
  refine ⟨?_, ?_, ?_⟩
  · rw [hkeys]
    refine nodup_append.2 ⟨hn.distinct, by simp, fun a ha b hb => ?_⟩
    rw [mem_singleton] at hb
    rintro rfl
    exact hfresh (hb ▸ ha)
  · intro g hg path hp key hk
    rw [hkeys] at hk
    rcases mem_cons.1 hg with rfl | hg
    · rw [hlookup g (by rw [hspan]; exact htoplt)] at hp
      have hpath : path = s.path := by
        rw [Loading.pathOf, hspan] at hp
        rw [Loading.pathOf, hp] at htop
        exact some.inj htop
      subst hpath
      rcases mem_append.1 hk with hk | hk
      · obtain ⟨h1, h2⟩ := hn.used f (by rw [hs]; exact mem_cons_self) _ htop key hk
        exact ⟨fun k hp => lt_of_lt_of_le (h1 k hp) hel,
          fun hp => lt_of_lt_of_le (h2 hp) (by omega)⟩
      · rw [mem_singleton] at hk
        subst hk
        exact hkey
    · obtain ⟨hlt, hshort⟩ := hlow g hg
      rw [hlookup g hlt] at hp
      have hused := hn.used g (by rw [hs]; exact mem_cons_of_mem _ hg) path hp
      rcases mem_append.1 hk with hk | hk
      · exact hused key hk
      · rw [mem_singleton] at hk
        subst hk
        obtain ⟨hne, hpre⟩ := hother path (hshort path hp)
        exact ⟨fun k hk => (hused _ hc).1 k (hpre k hk), fun hk => absurd hk hne⟩
  · intro key hk
    rw [hkeys] at hk
    cases hspans : s.keys with
    | nil =>
      rw [hspans] at htoplt
      simp at htoplt
    | cons k ks =>
      rw [hspans] at hk
      refine hn.root key ?_
      rw [hspans]
      exact hk

/-- Only the counters of the innermost open element grow. -/
theorem Named.retop (hn : Named s) {f' : Frame} (hs : s.stack = f :: rest)
    (hspan : f'.span = f.span) (hel : f.elements ≤ f'.elements) (hch : f.children ≤ f'.children) :
    Named { s with stack := f' :: rest } := by
  refine ⟨hn.distinct, fun g hg path hp key hk => ?_, hn.root⟩
  rcases mem_cons.1 hg with rfl | hg
  · have hp' : s.pathOf f = some path := by
      rw [Loading.pathOf, ← hspan]
      exact hp
    obtain ⟨h1, h2⟩ := hn.used f (by rw [hs]; exact mem_cons_self) path hp' key hk
    exact ⟨fun k hk => lt_of_lt_of_le (h1 k hk) hel, fun hk => lt_of_lt_of_le (h2 hk) (by omega)⟩
  · exact hn.used g (by rw [hs]; exact mem_cons_of_mem _ hg) path hp key hk

theorem Named.countChild (hn : Named s) : Named s.countChild := by
  unfold Loading.countChild
  split
  · exact hn
  · rename_i f rest hs
    exact hn.retop hs rfl le_rfl (Nat.le_succ _)

/-- A path with one more index is no longer than a path that it is in front of. -/
theorem not_append_isPrefix (path : List Nat) (k : Nat) : ¬path ++ [k] <+: path := by
  intro h
  have := h.length_le
  rw [length_append, length_singleton] at this
  omega

theorem Named.addText (hn : Named s) (h : Nested s opened pos) (begin_ end_ : Nat) (cdata : Bool) :
    Named (s.addText qt source begin_ end_ cdata) := by
  unfold Loading.addText
  split
  · exact hn
  · rename_i f rest hs
    split
    · exact hn
    · split
      · exact hn.countChild
      · rename_i os hos
        have hcount : s.countChild =
            { s with stack := { f with children := f.children + 1 } :: rest } := by
          rw [Loading.countChild, hs]
        rw [hcount]
        have hused := hn.used f (by rw [hs]; exact mem_cons_self) s.path (h.paths hs).1
        refine hn.push h hs { f with children := f.children + 1 } rfl le_rfl
          (Nat.le_succ _) ?_ ?_ ?_
        · intro hm
          have := (hused _ hm).2 rfl
          simp [Span.key] at this
        · exact ⟨fun k hk => absurd hk (not_append_isPrefix _ _), fun _ => by simp⟩
        · intro path hlt
          refine ⟨?_, fun k hk => hk⟩
          dsimp only
          rintro rfl
          omega

theorem Named.addElement (hn : Named s) (h : Nested s opened pos) (begin_ end_ : Nat)
    (isStart : Bool) (hroot : s.stack = [] → s.spans = []) :
    Named (s.addElement begin_ end_ isStart) := by
  unfold Loading.addElement
  split
  · rename_i hs
    rw [hroot hs]
    have hused : Named { spans := [{ begin_, end_ }], stack := [] } := by
      refine ⟨by simp [Loading.keys], by simp, ?_⟩
      rintro key ⟨⟩
      rfl
    cases isStart with
    | false => exact hused
    | true =>
      refine ⟨hused.distinct, ?_, hused.root⟩
      simp only [if_true, length_nil, nil_append, mem_singleton, forall_eq, Loading.keys,
        map_cons, map_nil, Loading.pathOf, getElem?_cons_zero, map_some,
        some.injEq]
      rintro path rfl
      exact ⟨fun k hk => absurd hk (not_append_isPrefix _ _), fun _ => by simp [Span.key]⟩
  · rename_i f rest hs
    have hused := hn.used f (by rw [hs]; exact mem_cons_self) s.path (h.paths hs).1
    have hfresh : ∀ key ∈ s.keys, ¬s.path ++ [f.elements] <+: key.1 := by
      intro key hk hp
      exact lt_irrefl _ ((hused key hk).1 _ hp)
    have hbase : Named {
        spans := s.spans ++ [{ path := s.path ++ [f.elements], begin_, end_ }]
        stack := { f with elements := f.elements + 1, children := f.children + 1 } :: rest } := by
      refine hn.push h hs { f with elements := f.elements + 1, children := f.children + 1 } rfl
        (Nat.le_succ _) (Nat.le_succ _) ?_ ?_ ?_
      · intro hm
        exact hfresh _ hm (prefix_refl _)
      · refine ⟨fun k hk => ?_, fun hp => ?_⟩
        · have := hk.eq_of_length (by simp)
          have := append_cancel_left this
          simp only [cons.injEq, and_true] at this
          simp [this]
        · simp at hp
      · intro path hlt
        refine ⟨?_, fun k hk => ?_⟩
        · rintro rfl
          rw [length_append, length_singleton] at hlt
          omega
        · refine prefix_of_prefix_length_le hk (prefix_append _ _) ?_
          rw [length_append, length_singleton]
          exact hlt
    cases isStart with
    | false => exact hbase
    | true =>
      refine ⟨hbase.distinct, fun g hg path hp key hk => ?_, hbase.root⟩
      rcases mem_cons.1 hg with rfl | hg
      · have hnew : path = s.path ++ [f.elements] := by
          rw [Loading.pathOf, Loading.keys, map_append, getElem?_append_right (by simp)] at hp
          simpa [Span.key, eq_comm] using hp
        subst hnew
        have hk' : key ∈ s.keys ++ [(s.path ++ [f.elements], -1)] := by
          simpa [Loading.keys, Span.key] using hk
        rcases mem_append.1 hk' with hk' | hk'
        · refine ⟨fun k hp => absurd ((prefix_append _ _).trans hp) (hfresh _ hk'), fun hp => ?_⟩
          exact absurd (hp ▸ prefix_refl _) (hfresh _ hk')
        · rw [mem_singleton] at hk'
          subst hk'
          exact ⟨fun k hp => absurd hp (not_append_isPrefix _ _), fun _ => by simp⟩
      · exact hbase.used g hg path hp key hk

/-! ### Outermost elements -/

/-- The spans with the key of the root. -/
def Loading.roots (s : Loading) : Nat := s.keys.count ([], -1)

theorem keys_countChild (s : Loading) : s.countChild.keys = s.keys ∧
    s.countChild.stack.length = s.stack.length := by
  unfold Loading.countChild
  cases hs : s.stack with
  | nil => exact ⟨rfl, by rw [hs]⟩
  | cons f rest => exact ⟨rfl, rfl⟩

theorem roots_addText (s : Loading) (begin_ end_ : Nat) (cdata : Bool) :
    (s.addText qt source begin_ end_ cdata).roots = s.roots ∧
      (s.addText qt source begin_ end_ cdata).stack.length = s.stack.length := by
  obtain ⟨hkeys, hlength⟩ := keys_countChild s
  unfold Loading.addText
  split
  · exact ⟨rfl, rfl⟩
  · rename_i f rest hs
    split
    · exact ⟨rfl, rfl⟩
    · split
      · exact ⟨by rw [Loading.roots, hkeys, Loading.roots], hlength⟩
      · refine ⟨?_, hlength⟩
        simp only [Loading.roots, Loading.keys, map_append, map_cons, map_nil,
          count_append, Span.key]
        rw [count_singleton, if_neg]
        · rfl
        · simp only [beq_iff_eq, Prod.mk.injEq, not_and]
          intro _ hc
          omega

theorem roots_addElement (s : Loading) (begin_ end_ : Nat) (isStart : Bool) :
    (s.addElement begin_ end_ isStart).roots = s.roots + (if s.stack.length = 0 then 1 else 0) ∧
      (s.addElement begin_ end_ isStart).stack.length =
        s.stack.length + (if isStart then 1 else 0) := by
  unfold Loading.addElement
  split
  · rename_i hs
    rw [hs]
    refine ⟨?_, by cases isStart <;> rfl⟩
    simp only [Loading.roots, Loading.keys, map_append, map_cons, map_nil,
      count_append, Span.key]
    rfl
  · rename_i f rest hs
    rw [hs]
    refine ⟨?_, by cases isStart <;> rfl⟩
    simp only [Loading.roots, Loading.keys, map_append, map_cons, map_nil,
      count_append, Span.key, length_cons, Nat.add_eq_zero_iff, one_ne_zero, and_false, if_false]
    rw [count_singleton, if_neg]
    simp

/-- A step adds the root that its tag makes. -/
theorem roots_step {t : MarkupToken} {rest : List MarkupToken} (hs : s.step qt source t = some s') :
    s'.roots + rootTags s'.stack.length rest = s.roots + rootTags s.stack.length (t :: rest) := by
  unfold Loading.step at hs
  split at hs
  · cases hs
  · cases hk : t.kind <;> rw [hk] at hs <;> dsimp only at hs <;> rw [rootTags, hk] <;> dsimp only
    case text =>
      cases hs
      rw [(roots_addText s _ _ _).1, (roots_addText s _ _ _).2]
    case cdata =>
      cases hs
      rw [(roots_addText s _ _ _).1, (roots_addText s _ _ _).2]
    case comment =>
      cases hs
      rw [Loading.roots, (keys_countChild s).1, (keys_countChild s).2, Loading.roots]
    case other =>
      cases hs
      split
      · rw [Loading.roots, (keys_countChild s).1, (keys_countChild s).2, Loading.roots]
      · rfl
    case end_ =>
      split at hs
      · cases hs
      · rename_i f stack hstack
        cases hs
        rw [hstack, Loading.roots, keys_close]
        rfl
    case start =>
      cases hs
      rw [(roots_addElement s _ _ _).1, (roots_addElement s _ _ _).2]
      simp only [if_true]
      omega
    case empty =>
      cases hs
      rw [(roots_addElement s _ _ _).1, (roots_addElement s _ _ _).2]
      simp only [Bool.false_eq_true, if_false, Nat.add_zero]
      omega

/-- All outermost tags of the scan end as spans with the key of the root. -/
theorem roots_of_run (hs : s.run qt source tokens = some s') :
    s'.roots = s.roots + rootTags s.stack.length tokens := by
  induction tokens generalizing s with
  | nil =>
    cases hs
    rfl
  | cons t rest ih =>
    obtain ⟨mid, hstep, hrest⟩ := bind_eq_some_iff.1 hs
    rw [ih hrest, roots_step hstep]

theorem Named.step (hn : Named s) (h : Nested s opened pos) {t : MarkupToken}
    {rest : List MarkupToken} (hone : s.roots + rootTags s.stack.length (t :: rest) ≤ 1)
    (hs : s.step qt source t = some s') :
    Named s' := by
  -- an outermost tag is the first one
  have hroot : t.kind = .start ∨ t.kind = .empty → s.stack = [] → s.spans = [] := by
    intro hk hstack
    have hzero : s.roots = 0 := by
      rw [hstack, rootTags] at hone
      rcases hk with hk | hk <;> rw [hk] at hone <;> dsimp only at hone <;>
        simp only [length_nil, if_true] at hone <;> omega
    cases hspans : s.spans with
    | nil => rfl
    | cons sp spans =>
      have hkey := hn.root sp.key (by rw [Loading.keys, hspans]; rfl)
      rw [Loading.roots, count_eq_zero] at hzero
      refine absurd ?_ hzero
      rw [Loading.keys, hspans, map_cons, hkey]
      exact mem_cons_self
  unfold Loading.step at hs
  split at hs
  · cases hs
  · cases hk : t.kind <;> rw [hk] at hs <;> dsimp only at hs
    case text =>
      cases hs
      exact hn.addText h _ _ _
    case cdata =>
      cases hs
      exact hn.addText h _ _ _
    case comment =>
      cases hs
      exact hn.countChild
    case other =>
      cases hs
      split
      · exact hn.countChild
      · exact hn
    case end_ =>
      split at hs
      · cases hs
      · rename_i f stack hstack
        cases hs
        have hkeys := keys_close s f.span t.end_ stack
        refine ⟨by rw [hkeys]; exact hn.distinct,
          fun g hg path hp => ?_, by rw [hkeys]; exact hn.root⟩
        rw [Loading.pathOf, hkeys] at hp
        rw [hkeys]
        exact hn.used g (by rw [hstack]; exact mem_cons_of_mem _ hg) path hp
    case start =>
      cases hs
      exact hn.addElement h _ _ _ (hroot (.inl hk))
    case empty =>
      cases hs
      exact hn.addElement h _ _ _ (hroot (.inr hk))

/-- With one outermost tag no key is given twice. -/
theorem named_of_run (hn : Named s) (h : Nested s opened pos)
    (ho : Ordered source.length pos tokens) (hone : s.roots + rootTags s.stack.length tokens ≤ 1)
    (hs : s.run qt source tokens = some s') : Named s' := by
  induction tokens generalizing s opened pos with
  | nil =>
    cases hs
    exact hn
  | cons t rest ih =>
    obtain ⟨mid, hstep, hrest⟩ := bind_eq_some_iff.1 hs
    obtain ⟨h1, h2, h3, lo', h4, h5⟩ := ho
    have hle := h5.le
    obtain ⟨opened', hnested⟩ := h.step h1 h2 h3 (by omega) hstep
    refine ih (hn.step h hone hstep) (hnested.later_pos h4) h5 ?_ hrest
    rw [roots_step hstep]
    exact hone

/-- Without an outermost tag there are no spans. -/
theorem run_of_no_roots (h : rootTags 0 tokens = 0)
    (hs : ({} : Loading).run qt source tokens = some s') : s' = {} := by
  induction tokens with
  | nil =>
    cases hs
    rfl
  | cons t rest ih =>
    obtain ⟨mid, hstep, hrest⟩ := bind_eq_some_iff.1 hs
    rw [rootTags] at h
    unfold Loading.step at hstep
    split at hstep
    · cases hstep
    · cases hk : t.kind <;> rw [hk] at h hstep <;> dsimp only at h hstep
      case end_ => cases hstep
      case start => simp at h
      case empty => simp at h
      case other =>
        have hmid : mid = {} := by
          cases hstep
          split <;> rfl
        subst hmid
        exact ih h hrest
      all_goals
        cases hstep
        exact ih h hrest

end Keys

/-! ### The smallest span -/

section Nearest

variable {spans : List Span} {s : Span} {p : Nat}

/-- A position lies in a span. -/
def Span.Holds (s : Span) (p : Nat) : Prop := s.begin_ ≤ p ∧ p < s.end_

theorem nearest_mem (h : nearest spans p = some s) : s ∈ spans ∧ s.Holds p := by
  have aux : ∀ (spans : List Span) (best : Option Span), spans.foldl (nearer p) best = some s →
      best = some s ∨ s ∈ spans ∧ s.Holds p := by
    intro spans
    induction spans with
    | nil => exact fun best h => .inl h
    | cons t spans ih =>
      intro best h
      rcases ih _ h with h | ⟨hm, hh⟩
      · unfold nearer at h
        split at h
        · rename_i hc
          cases h
          exact .inr ⟨mem_cons_self, hc.1, hc.2.1⟩
        · exact .inl h
      · exact .inr ⟨mem_cons_of_mem _ hm, hh⟩
  exact (aux spans none h).resolve_left (by simp)

/-- A span around a position is the smallest one if every other is longer. -/
theorem nearest_eq (hm : s ∈ spans) (hp : s.Holds p)
    (ho : ∀ t ∈ spans, t ≠ s → t.Holds p → s.end_ - s.begin_ < t.end_ - t.begin_) :
    nearest spans p = some s := by
  -- either it was found already, or it is still to come and everything so far is longer
  have aux : ∀ (spans : List Span) (best : Option Span),
      (∀ t ∈ spans, t ≠ s → t.Holds p → s.end_ - s.begin_ < t.end_ - t.begin_) →
      (best = some s ∨ s ∈ spans ∧
      best.all (fun b => s.end_ - s.begin_ < b.end_ - b.begin_) = true) →
      spans.foldl (nearer p) best = some s := by
    intro spans
    induction spans with
    | nil =>
      rintro best _ (rfl | ⟨hm, _⟩)
      · rfl
      · cases hm
    | cons t spans ih =>
      intro best ho hbest
      refine ih _ (fun t ht => ho t (mem_cons_of_mem _ ht)) ?_
      unfold nearer
      by_cases hts : t = s
      · subst hts
        rcases hbest with rfl | ⟨_, hall⟩
        · exact .inl (by simp)
        · exact .inl (if_pos ⟨hp.1, hp.2, hall⟩)
      · have hlonger := ho t mem_cons_self hts
        rcases hbest with rfl | ⟨hm, hall⟩
        · refine .inl (if_neg ?_)
          rintro ⟨h1, h2, h3⟩
          have := hlonger ⟨h1, h2⟩
          rw [all_some, decide_eq_true_eq] at h3
          omega
        · refine .inr ⟨(mem_cons.1 hm).resolve_left (Ne.symm hts), ?_⟩
          split
          · rename_i hc
            rw [all_some, decide_eq_true_eq]
            exact hlonger ⟨hc.1, hc.2.1⟩
          · exact hall
  exact aux spans none ho (.inr ⟨hm, rfl⟩)

/-- No other span around the first position of an element, or around a position of a text, is as
small. -/
theorem shorter_of_apart (ha : spans.Pairwise (Apart [])) (hm : s ∈ spans)
    (hp : s.Holds p) (hin : s.child = -1 → p = s.begin_) {t : Span} (ht : t ∈ spans) (hne : t ≠ s)
    (htp : t.Holds p) : s.end_ - s.begin_ < t.end_ - t.begin_ := by
  have heither : Apart [] s t ∨ Apart [] t s := by
    have hsymm : Std.Symm fun a b => Apart [] a b ∨ Apart [] b a := ⟨fun _ _ => Or.symm⟩
    have hpair : spans.Pairwise fun a b => Apart [] a b ∨ Apart [] b a := ha.imp fun h => .inl h
    exact hpair.forall hm ht (Ne.symm hne)
  obtain ⟨hp1, hp2⟩ := hp
  obtain ⟨ht1, ht2⟩ := htp
  rcases heither with ⟨hlt, ho | ho | ⟨hchild, _⟩⟩ | ⟨hlt, ho | ho | ⟨_, hend, _⟩⟩
  · cases ho
  · omega
  · have := hin hchild
    omega
  · cases ho
  · omega
  · omega

end Nearest

/-! ### Anchors -/

section Anchors

variable {spans : List Span} {s : Span} {p : Nat}

/-- A position of a text and the one that its offset stands for. -/
theorem Span.Good.offset (hg : s.Good) (hc : s.child ≠ -1) (hp : s.Holds p) :
    ∃ q, s.offsets[s.offsetOf p]? = some q ∧ q ≤ p ∧ s.begin_ ≤ q ∧
      s.offsetOf q = s.offsetOf p := by
  obtain ⟨hne, hdepth, hk | ⟨_, os, hos, hsorted, hin, hhead⟩⟩ := hg
  · exact absurd hk.1 hc
  · have hall : s.offsets.Pairwise (· ≤ ·) := by
      rw [hos, pairwise_append]
      refine ⟨hsorted, pairwise_singleton _ _, fun a ha b hb => ?_⟩
      rw [mem_singleton] at hb
      have := (hin a ha).2
      omega
    obtain ⟨rest, hcons⟩ : ∃ rest, s.offsets = s.begin_ :: rest := by
      cases os with
      | nil => cases hhead
      | cons o os =>
        cases hhead
        exact ⟨os ++ [s.end_], hos⟩
    have hge : ∀ o ∈ s.offsets, s.begin_ ≤ o := by
      intro o ho
      rw [hos] at ho
      rcases mem_append.1 ho with ho | ho
      · exact (hin o ho).1
      · rw [mem_singleton] at ho
        omega
    have hpos : ∀ v, s.begin_ ≤ v → 0 < upperBound s.offsets v := by
      intro v hv
      rw [upperBound, hcons, takeWhile_cons_of_pos (by simpa using hv)]
      simp
    have hnil : s.offsets ≠ [] := by simp [hcons]
    have hdef : ∀ v, s.begin_ ≤ v → s.offsetOf v =
        lowerBound s.offsets (s.offsets.getD (upperBound s.offsets v - 1) 0) := by
      intro v hv
      have := hpos v hv
      rw [Span.offsetOf, if_neg]
      rintro (h | h)
      · exact hnil h
      · omega
    obtain ⟨q, hget, hle, _, hsame⟩ := offset_spec hall (hpos p hp.1)
    have hqge := hge q (mem_of_getElem? hget)
    refine ⟨q, ?_, hle, hqge, ?_⟩
    · rw [hdef p hp.1]
      exact hget
    · rw [hdef q hqge, hdef p hp.1]
      exact hsame

/-- With distinct keys an anchor finds the span it was made from. -/
theorem find_key (hd : (spans.map Span.key).Nodup) (hm : s ∈ spans) :
    (spans.find? fun t => t.path = s.path ∧ t.child = s.child) = some s := by
  cases hf : spans.find? fun t => t.path = s.path ∧ t.child = s.child with
  | none =>
    rw [find?_eq_none] at hf
    exact absurd (by simp) (hf s hm)
  | some t =>
    have hkey : t.path = s.path ∧ t.child = s.child := by simpa using find?_some hf
    have ht := mem_of_find?_eq_some hf
    rw [inj_on_of_nodup_map hd ht hm (Prod.ext hkey.1 hkey.2)]

/-- The names of spans are distinct, and each anchor leads to a place at or before its position, in
the same span and with the same anchor. -/
structure StableAnchors (spans : List Span) : Prop where
  distinct : spans.Pairwise fun s t => (s.path, s.child) ≠ (t.path, t.child)
  anchored : ∀ p a, anchor spans p = some a → ∃ q, position spans a = some q ∧ q ≤ p ∧
    anchor spans q = some a ∧ nearest spans q = nearest spans p

theorem stable_of_distinct (ha : spans.Pairwise (Apart [])) (hg : ∀ s ∈ spans, s.Good)
    (hd : (spans.map Span.key).Nodup) : StableAnchors spans := by
  refine ⟨pairwise_map.1 hd, fun p a hanchor => ?_⟩
  obtain ⟨s, hs, rfl⟩ := map_eq_some_iff.1 hanchor
  obtain ⟨hm, hp⟩ := nearest_mem hs
  have hgood := hg s hm
  have hposition : ∀ offset, position spans { path := s.path, child := s.child, offset } =
      if s.child ≥ 0 then s.offsets[offset]? else some s.begin_ := by
    intro offset
    rw [position, if_neg (not_lt.2 hgood.depth), find_key hd hm, bind_some]
  -- the place in the span, and the same span around it
  have hsame : ∀ q, s.begin_ ≤ q → q < s.end_ → (s.child = -1 → q = s.begin_) →
      nearest spans q = some s :=
    fun q h1 h2 h3 => nearest_eq hm ⟨h1, h2⟩ fun t ht hne htp =>
      shorter_of_apart ha hm ⟨h1, h2⟩ h3 ht hne htp
  rcases hgood.kind with ⟨hchild, hnone⟩ | ⟨hchild, _⟩
  · have hfirst := hsame s.begin_ le_rfl hgood.nonempty fun _ => rfl
    refine ⟨s.begin_, ?_, hp.1, ?_, by rw [hfirst, hs]⟩
    · rw [hposition, if_neg (by omega)]
    · rw [anchor, hfirst, map_some, Span.offsetOf, Span.offsetOf, if_pos (.inl hnone),
        if_pos (.inl hnone)]
  · obtain ⟨q, hget, hle, hge, hoffset⟩ := hgood.offset (by omega) hp
    have hthere := hsame q hge (lt_of_le_of_lt hle hp.2) fun h => by omega
    refine ⟨q, ?_, hle, ?_, by rw [hthere, hs]⟩
    · rw [hposition, if_pos hchild, hget]
    · rw [anchor, hthere, map_some, hoffset]

end Anchors

/-- The scan of a source has one start or empty tag outside of all others. -/
def OneRoot (source : Units) : Prop := (scanMarkup source).map (rootTags 0) = some 1

/-- The runs of sources that are accepted. -/
theorem run_of_load {qt : XmlQt} {source : Units} {spans : List Span}
    (h : load qt source = some spans) :
    ∃ tokens s, scanMarkup source = some tokens ∧ ({} : Loading).run qt source tokens = some s ∧
      s.spans = spans ∧ spans ≠ [] := by
  unfold load at h
  split_ifs at h
  split at h
  · cases h
  · rename_i s hs
    split at h
    · rename_i hdone
      cases h
      obtain ⟨tokens, hscan, hrun⟩ := bind_eq_some_iff.1 hs
      exact ⟨tokens, s, hscan, hrun, rfl, hdone.2⟩
    · cases h

/-- The anchors of an accepted source are stable exactly if its scan has one outermost tag. -/
theorem anchors_stable (qt : XmlQt) (source : Units) (spans : List Span)
    (h : load qt source = some spans) :
    StableAnchors spans ↔ OneRoot source := by
  obtain ⟨ha, hg⟩ := spans_of_load h
  obtain ⟨tokens, s, hscan, hrun, rfl, hne⟩ := run_of_load h
  have hroots : s.roots = rootTags 0 tokens := by
    rw [roots_of_run hrun]
    exact Nat.zero_add _
  rw [OneRoot, hscan, map_some, some.injEq]
  constructor
  · rintro ⟨hdistinct, _⟩
    have hle : s.roots ≤ 1 := nodup_iff_count_le_one.1 (pairwise_map.2 hdistinct) _
    have hsome : rootTags 0 tokens ≠ 0 := by
      intro hzero
      rw [run_of_no_roots hzero hrun] at hne
      exact hne rfl
    omega
  · intro hone
    refine stable_of_distinct ha hg
      (named_of_run (s := {}) ?_ nested_start (scanMarkup_ordered hscan) ?_ hrun).distinct
    · exact ⟨nodup_nil, by simp, by simp [Loading.keys]⟩
    · rw [show Loading.roots {} = 0 from rfl, length_nil]
      omega

/-- A reader that gives these tokens. -/
def readerOf (tokens : List XmlToken) : XmlQt where
  read _ := (tokens, false)
  toUInt digits base := digits.foldl (fun value c => value.map fun v =>
    v * base + (if c < 0x3a then c.toNat - 0x30 else c.toNat % 32 + 9)) (some 0)

theorem anchors_stable_paragraph :
    ∃ spans, load (readerOf [.other, .startElement, .other, .endElement, .other])
        (lit "<p>a&#x1F600;b</p>") = some spans ∧
      (StableAnchors spans ↔ OneRoot (lit "<p>a&#x1F600;b</p>")) ∧
        OneRoot (lit "<p>a&#x1F600;b</p>") := by
  have hload : (load (readerOf [.other, .startElement, .other, .endElement, .other])
      (lit "<p>a&#x1F600;b</p>")).isSome = true := by
    decide +kernel
  obtain ⟨spans, hs⟩ := isSome_iff_exists.1 hload
  refine ⟨spans, hs, anchors_stable _ _ spans hs, ?_⟩
  unfold OneRoot
  decide +kernel

/-- The processing instruction ends for the scanner at its first `>`, and the tag in it is an
outermost one: the position 12 in the root has the anchor of that tag. -/
theorem anchors_unstable :
    load (readerOf [.other, .other, .startElement, .endElement, .other]) (lit "<?x ><a/>?><r/>") =
        some [{ begin_ := 5, end_ := 9 }, { begin_ := 11, end_ := 15 }] ∧
      ¬StableAnchors [{ begin_ := 5, end_ := 9 }, { begin_ := 11, end_ := 15 }] := by
  refine ⟨by decide +kernel, fun h => ?_⟩
  obtain ⟨q, hq, _, _, hsame⟩ := h.anchored 12 { path := [], child := -1, offset := 0 } (by decide)
  have hplace : position [{ begin_ := 5, end_ := 9 }, { begin_ := 11, end_ := 15 }]
      { path := [], child := -1, offset := 0 } = some 5 := by decide
  obtain rfl : q = 5 := some.inj (hq.symm.trans hplace)
  revert hsame
  decide

end Hc.Document.Epub
