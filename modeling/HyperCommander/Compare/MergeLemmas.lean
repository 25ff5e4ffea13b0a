import HyperCommander.Compare.Merge
import HyperCommander.Compare.DiffLemmas

/-!
# What `Merge` returns

* `Cut`: the edits of a side before and after a base line, and the line of the side it stands for.
  `Cut.sideLine_eq` and `Cut.variant_eq` say that `sideLine` and `variant` agree with it.
* `takeGroup_spec`: a group takes every edit that touches its range, and leaves edits behind it.
* `merge_yields`: the regions cut the result and all three inputs in step (`Splices`).
-/

namespace Hc.Compare

open List EditGraph Slice

/-! ## One side -/

theorem Same.mid {left right : List Line} {a b a' b' m : Nat} (h : Same left right a b a' b')
    (h1 : a ≤ m) (h2 : m ≤ a') :
    Same left right a b m (b + (m - a)) ∧ Same left right m (b + (m - a)) a' b' := by
  obtain ⟨k, rfl, rfl, hk⟩ := h
  refine ⟨⟨m - a, by omega, rfl, fun i hi => hk i (by omega)⟩,
    ⟨a + k - m, by omega, by omega, fun i hi => ?_⟩⟩
  have := hk (m - a + i) (by omega)
  rwa [show a + (m - a + i) = m + i by omega,
    show b + (m - a + i) = b + (m - a) + i by omega] at this

/-- The script of a side and the bytes it carries. -/
structure SideScript (base side : List Line) (edits : List Edit) : Prop extends
    IsScript base side edits where
  bytes : ∀ e ∈ edits, e.replacement = append side e.otherBegin e.otherEnd

theorem IsScript.pairwise_both {left right : List Line} {edits : List Edit}
    (h : IsScript left right edits) :
    edits.Pairwise fun e f => e.end_ < f.begin_ ∧ e.otherEnd < f.otherBegin := by
  have hs := h.separated
  have ho := h.ordered
  clear h
  induction edits with
  | nil => exact .nil
  | cons e es ih =>
    refine pairwise_cons.mpr ⟨fun f hf => ?_, ih hs.tail fun f hf =>
      ho f (mem_cons_of_mem _ hf)⟩
    cases es with
    | nil => cases hf
    | cons g es =>
      have hg := (isChain_cons_cons.mp hs).1
      rcases mem_cons.mp hf with rfl | hf
      · exact hg
      · have hgf := (pairwise_cons.mp (ih hs.tail fun f hf =>
          ho f (mem_cons_of_mem _ hf))).1 f hf
        have := ho g (by simp)
        omega

theorem IsScript.pairwise {left right : List Line} {edits : List Edit}
    (h : IsScript left right edits) : edits.Pairwise fun e f => e.end_ < f.begin_ :=
  h.pairwise_both.imp fun h => h.1

/-- The base line `c` stands for the line `c'` of the side; the edits `done` lie before it, the
edits `pending` behind it. -/
structure Cut (base side : List Line) (done pending : List Edit) (c c' : Nat) : Prop where
  script : SideScript base side (done ++ pending)
  before : ∀ e ∈ done, e.end_ ≤ c
  after : ∀ e ∈ pending, c ≤ e.begin_
  covers : Covers base side c c' pending
  place : behind c done.getLast? = c'
  inside : c' ≤ side.length

namespace Cut

variable {base side : List Line} {done pending : List Edit} {c c' b : Nat}

theorem start {edits : List Edit} (h : SideScript base side edits) :
    Cut base side [] edits 0 0 where
  script := h
  before e he := by cases he
  after e _ := Nat.zero_le _
  covers := h.covers
  place := rfl
  inside := Nat.zero_le _

/-- Up to the next edit the lines are equal. -/
theorem same (h : Cut base side done pending c c') (hc : c ≤ b) (hb : b ≤ base.length)
    (hp : ∀ e ∈ pending, b ≤ e.begin_) : Same base side c c' b (c' + (b - c)) ∧
      Covers base side b (c' + (b - c)) pending ∧ c' + (b - c) ≤ side.length := by
  have hcov := h.covers
  cases pending with
  | nil =>
    obtain ⟨h1, h2⟩ := Same.mid hcov hc hb
    exact ⟨h1, h2, h2.le.2.1⟩
  | cons e es =>
    obtain ⟨h1, h2⟩ := Same.mid hcov.1 hc (hp e (by simp))
    have he := h.script.inside e (by simp)
    have ho := h.script.ordered e (by simp)
    exact ⟨h1, ⟨h2, hcov.2⟩, by have := h2.le; omega⟩

theorem behind_add (hd : ∀ e ∈ done, e.end_ ≤ c) (hc : c ≤ b)
    (hp : behind c done.getLast? = c') : behind b done.getLast? = c' + (b - c) := by
  cases hl : done.getLast? with
  | none =>
    rw [hl] at hp
    simp only [behind] at hp ⊢
    omega
  | some p =>
    have := hd p (mem_of_getLast? hl)
    rw [hl] at hp
    simp only [behind] at hp ⊢
    rw [if_neg (by omega)] at hp ⊢
    omega

theorem move (h : Cut base side done pending c c') (hc : c ≤ b) (hb : b ≤ base.length)
    (hp : ∀ e ∈ pending, b ≤ e.begin_) : Cut base side done pending b (c' + (b - c)) where
  script := h.script
  before e he := (h.before e he).trans hc
  after := hp
  covers := (h.same hc hb hp).2.1
  place := behind_add h.before hc h.place
  inside := (h.same hc hb hp).2.2

/-- The next edit is applied. -/
theorem pass {e : Edit} (h : Cut base side done (e :: pending) c c') :
    Cut base side (done ++ [e]) pending e.end_ e.otherEnd where
  script := by rw [append_assoc]; exact h.script
  before f hf := by
    have ho := (h.script.ordered e (by simp)).1
    have hc := h.after e (by simp)
    rcases mem_append.mp hf with hf | hf
    · have := h.before f hf
      omega
    · simp at hf; simp [hf]
  after f hf := by
    have := (pairwise_append.mp h.script.pairwise).2.1
    exact Nat.le_of_lt ((pairwise_cons.mp this).1 f hf)
  covers := h.covers.2
  place := by simp [behind]
  inside := (h.script.inside e (by simp)).2

theorem sideLineFrom_eq {line : Nat} {gap : Bool} {previous : Option Edit} {rest : List Edit}
    (hd : ∀ e ∈ done, e.begin_ < line ∨ gap = false ∧ e.begin_ = line ∧ e.end_ = line)
    (hs : (done ++ rest).Pairwise fun e f => e.begin_ < f.begin_) :
    sideLineFrom line gap previous (done ++ rest) =
      if ∃ e ∈ done, e.begin_ = line then behind line (done.getLast?.or previous)
      else sideLineFrom line gap (done.getLast?.or previous) rest := by
  induction done generalizing previous with
  | nil => simp
  | cons e es ih =>
    rw [cons_append] at hs ⊢
    have hs' := pairwise_cons.mp hs
    have hlast : (e :: es).getLast?.or previous = es.getLast?.or (some e) := by
      cases es <;> simp [getLast?_cons]
    rw [sideLineFrom]
    rcases hd e (by simp) with hlt | ⟨hg, heq, hend⟩
    · rw [if_pos hlt, ih (fun f hf => hd f (mem_cons_of_mem _ hf)) hs'.2, hlast]
      have : (∃ f ∈ e :: es, f.begin_ = line) ↔ ∃ f ∈ es, f.begin_ = line := by
        simp only [mem_cons, exists_eq_or_imp]
        exact ⟨fun h => h.resolve_left (by omega), .inr⟩
      simp only [this]
    · -- An insertion at the line itself is the last of the edits before.
      have hnil : es = [] := by
        cases es with
        | nil => rfl
        | cons f es =>
          have := hs'.1 f (by simp)
          rcases hd f (by simp) with h | h <;> omega
      subst hnil
      rw [if_neg (by omega), if_pos heq, if_neg (by simp [hg, hend]),
        if_pos ⟨e, by simp, heq⟩]
      simp only [getLast?_singleton, Option.some_or, behind]
      rw [if_neg (by omega)]
      omega

/-- `sideLine` finds the line of the side. -/
theorem sideLine_eq (h : Cut base side done pending b c') {gap : Bool}
    (hd : ∀ e ∈ done, e.begin_ < b ∨ gap = false)
    (hp : ∀ e ∈ pending, e.begin_ = b → gap = true ∨ b < e.end_) :
    sideLine b gap (done ++ pending) = c' := by
  have hs : (done ++ pending).Pairwise fun e f => e.begin_ < f.begin_ :=
    h.script.pairwise.imp_of_mem fun {e f} he _ hef => by
      have := (h.script.ordered e he).1
      omega
  rw [sideLine, sideLineFrom_eq (fun e he => ?_) hs, Option.or_none]
  · split
    · exact h.place
    · cases pending with
      | nil => exact h.place
      | cons e es =>
        have hsame := h.covers.1.le
        rw [sideLineFrom, if_neg (by omega)]
        by_cases he : e.begin_ = b
        · rw [if_pos he, if_pos (hp e (by simp) he)]
          omega
        · rw [if_neg he]
          exact h.place
  · have h1 := h.before e he
    have h2 := (h.script.ordered e (by simp [he])).1
    rcases hd e he with hlt | hg
    · exact .inl hlt
    · rcases Nat.lt_or_ge e.begin_ b with hlt | hge
      · exact .inl hlt
      · exact .inr ⟨hg, by omega, by omega⟩

/-- `variant` is the text of the side up to the line that the end of the range stands for. -/
theorem variant_eq {ls : List Edit} (end_ : Nat) (h : Cut base side done (ls ++ pending) b c')
    (hb : b ≤ end_) (hend : end_ ≤ base.length) (hl : ∀ e ∈ ls, e.end_ ≤ end_)
    (hp : ∀ e ∈ pending, end_ ≤ e.begin_) :
    ∃ d', c' ≤ d' ∧ Cut base side (done ++ ls) pending end_ d' ∧
      variant base b end_ ls = append side c' d' := by
  induction ls generalizing done b c' with
  | nil =>
    refine ⟨c' + (end_ - b), by omega, ?_, ?_⟩
    · rw [append_nil]
      exact h.move hb hend hp
    · exact congrArg flatten (h.same hb hend hp).1.slice_eq
  | cons e es ih =>
    have ho := h.script.ordered e (by simp)
    obtain ⟨d', h1, h2, h3⟩ := ih h.pass (hl e (by simp)) fun f hf => hl f (by simp [hf])
    have hsame := h.covers.1
    refine ⟨d', by have := hsame.le; omega, by rwa [append_assoc] at h2, ?_⟩
    rw [variant, h3, h.script.bytes e (by simp)]
    unfold append
    rw [hsame.slice_eq, ← flatten_append, ← flatten_append,
      slice_append hsame.le.2.1 ho.2, slice_append (by have := hsame.le; omega) h1]

end Cut

/-! ## Groups -/

/-- The edits are sorted as `Merge` sorts them. -/
def Sorted (ts : List Tagged) : Prop := ts.Pairwise fun a b => notAfter a b

/-- What `takeGroup` leaves behind its range. -/
def Leaves (beginLine endLine : Nat) (rest : List Tagged) : Prop :=
  ∀ t ∈ rest, endLine ≤ t.edit.begin_ ∧
    (beginLine = endLine → beginLine < t.edit.begin_ ∨ t.edit.begin_ < t.edit.end_)

variable {e end_ : Nat} {ts group rest : List Tagged} {isLeft : Bool} {t : Tagged}
  {l r edits : List Edit}

theorem overlaps_range {b : Nat} {x : Edit} : overlaps ⟨b, e, 0, 0, []⟩ x ↔
    (b = e ∧ x.begin_ = x.end_ ∧ b = x.begin_) ∨
    (b = e ∧ x.begin_ ≠ x.end_ ∧ x.begin_ < b ∧ b < x.end_) ∨
    (b ≠ e ∧ x.begin_ = x.end_ ∧ b < x.begin_ ∧ x.begin_ < e) ∨
    (b ≠ e ∧ x.begin_ ≠ x.end_ ∧ max b x.begin_ < min e x.end_) := by
  simp only [overlaps]
  split
  · simp only [decide_eq_true_eq]; omega
  split
  · simp only [decide_eq_true_eq]; omega
  split <;> simp only [decide_eq_true_eq] <;> omega

theorem takeGroup_spec {b : Nat} (hb : b ≤ e) (hs : Sorted ts)
    (hts : ∀ t ∈ ts, b ≤ t.edit.begin_ ∧ t.edit.begin_ ≤ t.edit.end_ ∧
      (b < e → t.edit.begin_ = b → b < t.edit.end_)) :
    ∃ group end_ rest, takeGroup b e ts = (group, end_, rest) ∧ ts = group ++ rest ∧ e ≤ end_ ∧
      (b = e → end_ = b) ∧ (∀ t ∈ group, t.edit.end_ ≤ end_ ∧ (b < end_ → t.edit.begin_ < end_)) ∧
      (end_ = e ∨ ∃ t ∈ group, end_ = t.edit.end_) ∧ Leaves b end_ rest := by
  induction ts generalizing e with
  | nil =>
    exact ⟨[], e, [], rfl, rfl, Nat.le_refl _, fun h => h.symm, (fun t ht => by cases ht), .inl rfl,
      fun t ht => by cases ht⟩
  | cons t ts ih =>
    obtain ⟨h1, h2, h3⟩ := hts t (by simp)
    have hs' := pairwise_cons.mp hs
    rw [takeGroup]
    by_cases ho : overlaps ⟨b, e, 0, 0, []⟩ t.edit
    · rw [if_pos ho]
      rw [overlaps_range] at ho
      have hempty : b = e → t.edit.begin_ = b ∧ t.edit.end_ = b := by omega
      have hin : b < e → t.edit.begin_ < e := by omega
      obtain ⟨group, end_, rest, h4, h5, h6, h7, h8, h9, h10⟩ := ih (e := max e t.edit.end_)
        (by omega) hs'.2 fun u hu => ⟨(hts u (by simp [hu])).1, (hts u (by simp [hu])).2.1,
          fun hlt => (hts u (by simp [hu])).2.2 (by
            rcases Nat.eq_or_lt_of_le hb with h | h
            · have := hempty h; omega
            · exact h)⟩
      simp only [h4]
      refine ⟨t :: group, end_, rest, rfl, by rw [h5]; rfl,
        (Nat.le_max_left _ _).trans h6, fun h => ?_, ?_, ?_, h10⟩
      · have := hempty h
        exact h7 (by clear h9; omega)
      · intro u hu
        rcases mem_cons.mp hu with rfl | hu
        · clear h9 h10
          refine ⟨by omega, fun hlt => ?_⟩
          rcases Nat.eq_or_lt_of_le hb with h | h
          · have := h7 (by have := hempty h; omega)
            omega
          · have := hin h
            omega
        · exact h8 u hu
      · rcases h9 with h9 | ⟨u, hu, h9⟩
        · rcases Nat.le_total t.edit.end_ e with hle | hle
          · exact .inl (by omega)
          · exact .inr ⟨t, by simp, by omega⟩
        · exact .inr ⟨u, by simp [hu], h9⟩
    · rw [if_neg ho]
      refine ⟨[], e, t :: ts, rfl, rfl, Nat.le_refl _, fun h => h.symm, (fun u hu => by cases hu),
        .inl rfl, fun u hu => ?_⟩
      rw [overlaps_range] at ho
      -- What holds of the first edit left holds of the later ones.
      have hfirst : e ≤ t.edit.begin_ ∧
          (b = e → b < t.edit.begin_ ∨ t.edit.begin_ < t.edit.end_) := by omega
      rcases mem_cons.mp hu with rfl | hu
      · exact hfirst
      · have htu := hs'.1 u hu
        simp only [notAfter] at htu
        split at htu <;> simp only [decide_eq_true_eq] at htu <;> omega

theorem ofSide_append (isLeft : Bool) (ts us : List Tagged) :
    ofSide isLeft (ts ++ us) = ofSide isLeft ts ++ ofSide isLeft us := by
  simp [ofSide]

theorem mem_ofSide {e : Edit} (h : e ∈ ofSide isLeft ts) :
    ∃ t ∈ ts, t.edit = e := by
  obtain ⟨t, ht, rfl⟩ := mem_map.mp h
  exact ⟨t, (mem_filter.mp ht).1, rfl⟩

theorem notAfter_iff {u : Tagged} : notAfter t u ↔ t.edit.begin_ < u.edit.begin_ ∨
    t.edit.begin_ = u.edit.begin_ ∧ t.edit.end_ ≤ u.edit.end_ := by
  simp only [notAfter]
  split <;> simp only [decide_eq_true_eq] <;> omega

instance : IsTrans Tagged fun a b => notAfter a b where
  trans a b c h h' := by rw [notAfter_iff] at h h' ⊢; omega

instance : Std.Total fun a b : Tagged => (notAfter a b : Prop) where
  total a b := by rw [notAfter_iff, notAfter_iff]; omega

/-- Sorting keeps the edits of a side in their order. -/
theorem ofSide_sortedEdits {es : List Edit}
    (hes : es.Pairwise fun e f => e.begin_ < f.begin_)
    (hsub : (es.map (Tagged.mk · isLeft)).Sublist
      (l.map (Tagged.mk · true) ++ r.map (Tagged.mk · false)))
    (hof : ofSide isLeft (l.map (Tagged.mk · true) ++ r.map (Tagged.mk · false)) = es) :
    ofSide isLeft (sortedEdits l r) = es := by
  have hsorted : (es.map (Tagged.mk · isLeft)).Pairwise fun a b => notAfter a b :=
    pairwise_map.mpr (hes.imp fun h => notAfter_iff.mpr (.inl h))
  have h1 := ((sublist_insertionSort hsorted hsub).filter fun t => t.isLeft == isLeft).map
    Tagged.edit
  have hself : ((es.map (Tagged.mk · isLeft)).filter fun t => t.isLeft == isLeft).map Tagged.edit =
      es := by
    rw [filter_eq_self.mpr (by simp)]
    simp [Function.comp_def]
  rw [hself] at h1
  refine (h1.eq_of_length ?_).symm
  have hperm := (((perm_insertionSort (fun a b => (notAfter a b : Prop))
    (l.map (Tagged.mk · true) ++ r.map (Tagged.mk · false))).filter
      fun t => t.isLeft == isLeft).map Tagged.edit).length_eq
  exact ((congrArg length hof).symm.trans hperm.symm)

theorem ofSide_tagged (l r : List Edit) :
    ofSide true (l.map (Tagged.mk · true) ++ r.map (Tagged.mk · false)) = l ∧
    ofSide false (l.map (Tagged.mk · true) ++ r.map (Tagged.mk · false)) = r := by
  constructor <;> simp [ofSide, filter_map, Function.comp_def]

/-! ## The loop over the groups -/

/-- No edit of `done` is an insertion in front of an insertion of `rest`. -/
def Fresh (done : List Edit) (rest : List Tagged) : Prop :=
  ∀ e ∈ done, ∀ t ∈ rest, e.begin_ < t.edit.begin_ ∨ t.edit.begin_ < t.edit.end_

/-- The edits of a side, cut where the loop over the groups stands. -/
def OnSide (base side : List Line) (edits : List Edit) (isLeft : Bool) (rest : List Tagged)
    (c c' : Nat) : Prop :=
  ∃ done, edits = done ++ ofSide isLeft rest ∧ Cut base side done (ofSide isLeft rest) c c' ∧
    Fresh done rest

/-- The base ranges of the edits left. -/
def Ranges (base : List Line) (c : Nat) (rest : List Tagged) : Prop :=
  ∀ t ∈ rest, c ≤ t.edit.begin_ ∧ t.edit.begin_ ≤ t.edit.end_ ∧ t.edit.end_ ≤ base.length

/-- The group of the first edit left, and where it leaves the rest. -/
structure Group (base : List Line) (t : Tagged) (ts group : List Tagged) (end_ : Nat)
    (rest : List Tagged) : Prop where
  split : ts = group ++ rest
  le_end : t.edit.end_ ≤ end_
  gap : t.edit.begin_ = t.edit.end_ → end_ = t.edit.begin_
  members : ∀ u ∈ t :: group, u.edit.end_ ≤ end_ ∧
    (t.edit.begin_ < end_ → u.edit.begin_ < end_)
  inside : end_ ≤ base.length
  leaves : Leaves t.edit.begin_ end_ rest

theorem group_of_takeGroup {base : List Line} {c : Nat}
    (hs : Sorted (t :: ts)) (hr : Ranges base c (t :: ts)) :
    Group base t ts (takeGroup t.edit.begin_ t.edit.end_ ts).1
      (takeGroup t.edit.begin_ t.edit.end_ ts).2.1
        (takeGroup t.edit.begin_ t.edit.end_ ts).2.2 := by
  have ht := hr t (by simp)
  have hs' := pairwise_cons.mp hs
  obtain ⟨group, end_, rest, h1, h2, h3, h4, h5, h6, h7⟩ := takeGroup_spec ht.2.1 hs'.2
    fun u hu => by
      have h1 := notAfter_iff.mp (hs'.1 u hu)
      have h2 := (hr u (by simp [hu])).2.1
      exact ⟨by omega, h2, by omega⟩
  rw [h1]
  refine ⟨h2, h3, h4, fun u hu => ?_, ?_, h7⟩
  · rcases mem_cons.mp hu with rfl | hu
    · exact ⟨h3, fun h => by clear h6; omega⟩
    · exact h5 u hu
  · rcases h6 with rfl | ⟨u, hu, rfl⟩
    · exact ht.2.2
    · exact (hr u (by simp [h2, hu])).2.2

theorem Group.sorted_rest {base : List Line}
    (hg : Group base t ts group end_ rest) (hs : Sorted (t :: ts)) : Sorted rest := by
  have h := (pairwise_cons.mp hs).2
  rw [hg.split] at h
  exact (pairwise_append.mp h).2.1

theorem Group.ranges_rest {base : List Line}
    {c : Nat} (hg : Group base t ts group end_ rest) (hr : Ranges base c (t :: ts)) :
    Ranges base end_ rest := fun u hu => by
  refine ⟨(hg.leaves u hu).1, (hr u ?_).2⟩
  rw [hg.split]
  exact mem_cons_of_mem _ (mem_append_right _ hu)

theorem Group.ofSide_split {base : List Line}
    (hg : Group base t ts group end_ rest) (isLeft : Bool) :
    ofSide isLeft (t :: ts) = ofSide isLeft (t :: group) ++ ofSide isLeft rest := by
  rw [hg.split, ← cons_append, ofSide_append]

theorem Sorted.le_begin (hs : Sorted (t :: ts)) :
    ∀ u ∈ t :: ts, t.edit.begin_ ≤ u.edit.begin_ ∧
      (u.edit.begin_ = t.edit.begin_ → t.edit.end_ ≤ u.edit.end_) := by
  intro u hu
  rcases mem_cons.mp hu with rfl | hu
  · exact ⟨Nat.le_refl _, fun _ => Nat.le_refl _⟩
  · have := notAfter_iff.mp ((pairwise_cons.mp hs).1 u hu)
    omega

/-- Before the first group. -/
theorem OnSide.start {base side : List Line}
    (h : SideScript base side edits) (hts : ofSide isLeft ts = edits) :
    OnSide base side edits isLeft ts 0 0 := by
  refine ⟨[], hts.symm, ?_, fun e he => by cases he⟩
  rw [hts]
  exact .start h

/-- The cut of a side where the first group begins, with the base lines before it. -/
theorem OnSide.cut_group {base side : List Line} {c c' : Nat}
    (h : OnSide base side edits isLeft (t :: ts) c c') (hs : Sorted (t :: ts))
    (hr : Ranges base c (t :: ts)) (hg : Group base t ts group end_ rest) :
    ∃ done b', edits = done ++ ofSide isLeft (t :: ts) ∧ Fresh done (t :: ts) ∧ c' ≤ b' ∧
      append base c t.edit.begin_ = append side c' b' ∧
      Cut base side done (ofSide isLeft (t :: group) ++ ofSide isLeft rest) t.edit.begin_ b' ∧
      (∀ e ∈ ofSide isLeft (t :: group), e.end_ ≤ end_) ∧
      ∀ e ∈ ofSide isLeft rest, end_ ≤ e.begin_ := by
  obtain ⟨done, rfl, hcut, hfresh⟩ := h
  have ht := hr t (by simp)
  have hpend : ∀ e ∈ ofSide isLeft (t :: ts), t.edit.begin_ ≤ e.begin_ := by
    intro e he
    obtain ⟨u, hu, rfl⟩ := mem_ofSide he
    exact (hs.le_begin u hu).1
  have hsame := hcut.same ht.1 (by omega) hpend
  have hmove := hcut.move ht.1 (by omega) hpend
  rw [hg.ofSide_split isLeft] at hmove
  refine ⟨done, _, rfl, hfresh, Nat.le_add_right _ _, congrArg flatten hsame.1.slice_eq, hmove,
    fun e he => ?_, fun e he => ?_⟩
  · obtain ⟨u, hu, rfl⟩ := mem_ofSide he
    exact (hg.members u hu).1
  · obtain ⟨u, hu, rfl⟩ := mem_ofSide he
    exact (hg.leaves u hu).1

/-- What one group says about one side: its region starts at the right line and spans the text
that `variant` makes. -/
theorem OnSide.step {base side : List Line} {edits : List Edit} {isLeft : Bool} {t : Tagged}
    {ts group rest : List Tagged} {c c' end_ : Nat}
    (h : OnSide base side edits isLeft (t :: ts) c c') (hs : Sorted (t :: ts))
    (hr : Ranges base c (t :: ts)) (hg : Group base t ts group end_ rest) :
    ∃ b' d', sideLine t.edit.begin_ (t.edit.begin_ == end_) edits = b' ∧ c' ≤ b' ∧ b' ≤ d' ∧
      d' ≤ side.length ∧ append base c t.edit.begin_ = append side c' b' ∧
      variant base t.edit.begin_ end_ (ofSide isLeft (t :: group)) = append side b' d' ∧
      OnSide base side edits isLeft rest end_ d' := by
  obtain ⟨done, b', rfl, hfresh, hb', hbefore, hcut, hin, hout⟩ := h.cut_group hs hr hg
  have hend := hg.le_end
  have ht := hr t (by simp)
  have hparts := hg.ofSide_split isLeft
  obtain ⟨d', h1, h2, h3⟩ := hcut.variant_eq end_ (by omega) hg.inside hin hout
  rw [← hparts] at hcut
  refine ⟨_, d', hcut.sideLine_eq (fun e he => ?_) (fun e he heq => ?_), hb', h1,
    h2.inside, hbefore, h3, done ++ ofSide isLeft (t :: group), ?_, h2, ?_⟩
  · rcases hfresh e he t (by simp) with hlt | hlt
    · exact .inl hlt
    · exact .inr (by rw [beq_eq_false_iff_ne]; omega)
  · obtain ⟨u, hu, rfl⟩ := mem_ofSide he
    rw [beq_iff_eq]
    have h4 := (hs.le_begin u hu).2 heq
    have h5 := hg.gap
    omega
  · rw [hparts, append_assoc]
  · intro e he u hu
    rcases mem_append.mp he with he | he
    · exact hfresh e he u (by rw [hg.split]; simp [hu])
    · obtain ⟨v, hv, rfl⟩ := mem_ofSide he
      have h4 := hg.members v hv
      have h5 := hg.leaves u hu
      have h6 : v.edit.begin_ ≤ v.edit.end_ := by
        refine (hr v ?_).2.1
        rw [hg.split, ← cons_append]
        exact mem_append_left _ hv
      omega

/-- The text from position `p` on, with the result range of every region replaced by a piece of
the side, is the side from line `c` on. The piece starts at `line` and has `bytes` bytes. -/
def Splices (side : List Line) (line bytes : MergeRegion → Nat) (text : Bytes) :
    (p c : Nat) → List MergeRegion → Prop
  | p, c, [] => text.drop p = append side c side.length
  | p, c, g :: gs =>
    p ≤ g.resultBegin ∧ g.resultBegin ≤ g.resultEnd ∧ g.resultEnd ≤ text.length ∧
    slice text p g.resultBegin = append side c (line g) ∧
    ∃ d, c ≤ line g ∧ line g ≤ d ∧ d ≤ side.length ∧
      bytes g = (append side (line g) d).length ∧ Splices side line bytes text g.resultEnd d gs

/-- The bytes of the base lines of a region. -/
def baseBytes (base : List Line) (g : MergeRegion) : Nat :=
  (append base g.baseBegin g.baseEnd).length

/-- The piece of a side that a region asks for. -/
def pieceOf (side : List Line) (line bytes : MergeRegion → Nat) (g : MergeRegion) : Bytes :=
  (side.flatten.drop (append side 0 (line g)).length).take (bytes g)

/-- A range of lines is cut out of the text by its offset and its bytes. -/
theorem cut_lines {ls : List Line} {a d : Nat} (had : a ≤ d) (hd : d ≤ ls.length) :
    (ls.flatten.drop (append ls 0 a).length).take (append ls a d).length = append ls a d := by
  have h : ls.flatten = append ls 0 a ++ (append ls a d ++ append ls d ls.length) := by
    unfold append
    rw [← flatten_append, ← flatten_append, slice_append had hd,
      slice_append (Nat.zero_le a) (had.trans hd), slice_full]
  rw [h, drop_left, take_left]

/-- A text put together of lines with `P`. -/
def MadeOf (P : Line → Prop) (text : Bytes) : Prop :=
  ∃ ls : List Line, (∀ x ∈ ls, P x) ∧ text = ls.flatten

theorem MadeOf.append {P : Line → Prop} {s t : Bytes} (hs : MadeOf P s) (ht : MadeOf P t) :
    MadeOf P (s ++ t) := by
  obtain ⟨ls, h1, rfl⟩ := hs
  obtain ⟨ms, h2, rfl⟩ := ht
  refine ⟨ls ++ ms, fun x hx => ?_, flatten_append.symm⟩
  exact (mem_append.mp hx).elim (h1 x) (h2 x)

theorem madeOf_append {P : Line → Prop} {ls : List Line} (h : ∀ x ∈ ls, P x) (a b : Nat) :
    MadeOf P (Compare.append ls a b) :=
  ⟨slice ls a b, fun x hx => by
    obtain ⟨i, -, -, hi⟩ := mem_slice.mp hx
    exact h x (mem_of_getElem? hi), rfl⟩

/-- What a region says by itself; the lines of all inputs have `P`. -/
structure RegionOk (P : Line → Prop) (base left right : List Line) (text : Bytes)
    (g : MergeRegion) :
    Prop where
  ends : g.baseBegin ≤ g.baseEnd ∧ g.baseEnd ≤ base.length
  ofLeft : g.origin = .left → slice text g.resultBegin g.resultEnd =
    pieceOf left MergeRegion.leftBegin MergeRegion.leftBytes g
  ofRight : g.origin = .right → slice text g.resultBegin g.resultEnd =
    pieceOf right MergeRegion.rightBegin MergeRegion.rightBytes g
  starts : MadeOf P (text.drop g.resultBegin) ∧ MadeOf P (text.drop g.resultEnd)

/-- A line of an input. -/
def LineOf (base left right : List Line) (x : Line) : Prop := x ∈ base ∨ x ∈ left ∨ x ∈ right

/-- The regions `gs` cut the text from position `p` and the three inputs from their lines on. -/
structure Cuts (base left right : List Line) (text : Bytes) (p c cl cr : Nat)
    (gs : List MergeRegion) : Prop where
  ofBase : Splices base MergeRegion.baseBegin (baseBytes base) text p c gs
  ofLeft : Splices left MergeRegion.leftBegin MergeRegion.leftBytes text p cl gs
  ofRight : Splices right MergeRegion.rightBegin MergeRegion.rightBytes text p cr gs
  regions : ∀ g ∈ gs, RegionOk (LineOf base left right) base left right text g
  rest : MadeOf (LineOf base left right) (text.drop p)

/-- What a group adds to the result. -/
theorem addRegion_spec (base : List Line) (l r : List Edit) (c b e : Nat) (group : List Tagged)
    (result : MergeResult) :
    ∃ piece region, (addRegion base l r c b e group result).text =
        result.text ++ append base c b ++ piece ∧
      (addRegion base l r c b e group result).regions = result.regions ++ [region] ∧
      region.baseBegin = b ∧ region.baseEnd = e ∧
      region.leftBegin = sideLine b (b == e) l ∧ region.rightBegin = sideLine b (b == e) r ∧
      region.leftBytes = (variant base b e (ofSide true group)).length ∧
      region.rightBytes = (variant base b e (ofSide false group)).length ∧
      region.resultBegin = (result.text ++ append base c b).length ∧
      region.resultEnd = (result.text ++ append base c b ++ piece).length ∧
      ((region.origin = .right ∧ piece = variant base b e (ofSide false group)) ∨
        (region.origin = .left ∧ piece = variant base b e (ofSide true group)) ∨
        (region.origin = .conflict ∧ piece = append base b e)) := by
  unfold addRegion
  simp only
  split
  · exact ⟨_, _, rfl, rfl, rfl, rfl, rfl, rfl, rfl, rfl, rfl, rfl, .inl ⟨rfl, rfl⟩⟩
  split
  · exact ⟨_, _, rfl, rfl, rfl, rfl, rfl, rfl, rfl, rfl, rfl, rfl, .inr (.inl ⟨rfl, rfl⟩)⟩
  · exact ⟨_, _, rfl, rfl, rfl, rfl, rfl, rfl, rfl, rfl, rfl, rfl, .inr (.inr ⟨rfl, rfl⟩)⟩

/-- A region in front of the rest. -/
theorem Splices.cons {side : List Line} {line bytes : MergeRegion → Nat}
    {text before gap piece : Bytes} {c d : Nat} {g : MergeRegion} {gs : List MergeRegion}
    (ht : before ++ gap ++ piece <+: text) (hb : g.resultBegin = (before ++ gap).length)
    (he : g.resultEnd = (before ++ gap ++ piece).length) (hgap : gap = append side c (line g))
    (hc : c ≤ line g) (hd : line g ≤ d) (hds : d ≤ side.length)
    (hbytes : bytes g = (append side (line g) d).length)
    (h : Splices side line bytes text (before ++ gap ++ piece).length d gs) :
    Splices side line bytes text before.length c (g :: gs) := by
  obtain ⟨later, rfl⟩ := ht
  refine ⟨?_, ?_, ?_, ?_, d, hc, hd, hds, hbytes, he ▸ h⟩
  · rw [hb, length_append]; omega
  · rw [hb, he, @List.length_append _ _ piece]; omega
  · rw [he, @List.length_append _ _ later]; omega
  · rw [hb, ← hgap, slice, append_assoc, append_assoc, drop_left, length_append,
      Nat.add_sub_cancel_left, take_left]

theorem mergeFrom_yields {E : Failure → Prop} {limits : Budget}
    (hi : Yields E limits.check fun _ => True) {base : List Line} (left right : List Line)
    (fuel : Nat) (ts : List Tagged) (c cl cr : Nat) (result : MergeResult) (hf : ts.length < fuel)
    (hc : c ≤ base.length) (hs : Sorted ts) (hr : Ranges base c ts)
    (hleft : OnSide base left l true ts c cl) (hright : OnSide base right r false ts c cr) :
    Yields E (mergeFrom limits base l r fuel ts c result) fun out =>
      result.text <+: out.text ∧ ∃ gs, out.regions = result.regions ++ gs ∧
        Cuts base left right out.text result.text.length c cl cr gs := by
  induction fuel generalizing ts c cl cr result with
  | zero => omega
  | succ fuel ih =>
    cases ts with
    | nil =>
      refine .pure ⟨prefix_append _ _, [], by simp, ?_, ?_, ?_,
        (fun g hg => by cases hg), ?_⟩
      · simp [Splices]
      · obtain ⟨done, -, hcut, -⟩ := hleft
        simp only [Splices, drop_left]
        exact congrArg flatten hcut.covers.slice_eq
      · obtain ⟨done, -, hcut, -⟩ := hright
        simp only [Splices, drop_left]
        exact congrArg flatten hcut.covers.slice_eq
      · rw [drop_left]
        exact madeOf_append (fun x hx => .inl hx) _ _
    | cons t ts =>
      refine hi.skip fun _ => ?_
      have hg := group_of_takeGroup hs hr
      simp only
      revert hg
      generalize (takeGroup t.edit.begin_ t.edit.end_ ts).1 = group
      generalize (takeGroup t.edit.begin_ t.edit.end_ ts).2.1 = end_
      generalize (takeGroup t.edit.begin_ t.edit.end_ ts).2.2 = rest
      intro hg
      obtain ⟨bl, dl, hl1, hl2, hl3, hl4, hl5, hl6, hl7⟩ := hleft.step hs hr hg
      obtain ⟨br, dr, hr1, hr2, hr3, hr4, hr5, hr6, hr7⟩ := hright.step hs hr hg
      obtain ⟨piece, region, ht, hreg, h1, h2, h3, h4, h5, h6, h7, h8, hor⟩ :=
        addRegion_spec base l r
        c t.edit.begin_ end_ (t :: group) result
      have htb := hr t (by simp)
      have hend := hg.le_end
      refine (ih rest end_ dl dr _ ?_ hg.inside (hg.sorted_rest hs) (hg.ranges_rest hr) hl7
        hr7).weaken fun out ho => ?_
      · have := hg.split
        simp only [length_cons] at hf
        rw [this, length_append] at hf
        omega
      · obtain ⟨hpre, gs, hgs, hb, hl, hr', hregs, hrest⟩ := ho
        rw [ht] at hpre hb hl hr' hrest
        have hmade : MadeOf (LineOf base left right) piece := by
          rcases hor with ⟨-, rfl⟩ | ⟨-, rfl⟩ | ⟨-, rfl⟩
          · rw [hr6]; exact madeOf_append (fun x hx => .inr (.inr hx)) _ _
          · rw [hl6]; exact madeOf_append (fun x hx => .inr (.inl hx)) _ _
          · exact madeOf_append (fun x hx => .inl hx) _ _
        obtain ⟨later, hout⟩ := id hpre
        have hdrop1 : out.text.drop result.text.length = append base c t.edit.begin_ ++
            (piece ++ out.text.drop (result.text ++ append base c t.edit.begin_ ++
              piece).length) := by
          rw [← hout, drop_left, append_assoc, append_assoc, drop_left]
        have hdrop2 : out.text.drop region.resultBegin =
            piece ++ out.text.drop (result.text ++ append base c t.edit.begin_ ++
              piece).length := by
          rw [← hout, h7, drop_left, append_assoc _ piece, drop_left]
        have hslice : slice out.text region.resultBegin region.resultEnd = piece := by
          rw [slice, hdrop2, h7, h8, @List.length_append _ _ piece, Nat.add_sub_cancel_left,
            take_left]
        refine ⟨(prefix_append _ _).trans ((prefix_append _ _).trans hpre), region :: gs,
          by rw [hgs, hreg]; simp, ?_, ?_, ?_, ?_, ?_⟩
        · refine .cons hpre h7 h8 (by rw [h1]) (by omega) (by omega) hg.inside ?_ hb
          rw [baseBytes, h1, h2]
        · rw [hl6] at h5
          rw [hl1] at h3
          rw [hl5] at hpre h7 h8 hl
          exact .cons hpre h7 h8 (by rw [h3]) (by omega) (by omega) hl4 (by rw [h5, h3]) hl
        · rw [hr6] at h6
          rw [hr1] at h4
          rw [hr5] at hpre h7 h8 hr'
          exact .cons hpre h7 h8 (by rw [h4]) (by omega) (by omega) hr4 (by rw [h6, h4]) hr'
        · intro g hg'
          rcases mem_cons.mp hg' with rfl | hg'
          · refine ⟨by rw [h1, h2]; exact ⟨by omega, hg.inside⟩, fun ho => ?_, fun ho => ?_,
              by rw [hdrop2]; exact hmade.append hrest, by rw [h8]; exact hrest⟩
            · have hp : piece = append left bl dl := by
                rcases hor with ⟨h, -⟩ | ⟨-, h⟩ | ⟨h, -⟩
                · rw [ho] at h; cases h
                · rw [h, hl6]
                · rw [ho] at h; cases h
              rw [hslice, pieceOf, h3, h5, hl1, hl6, cut_lines hl3 hl4, hp]
            · have hp : piece = append right br dr := by
                rcases hor with ⟨-, h⟩ | ⟨h, -⟩ | ⟨h, -⟩
                · rw [h, hr6]
                · rw [ho] at h; cases h
                · rw [ho] at h; cases h
              rw [hslice, pieceOf, h4, h6, hr1, hr6, cut_lines hr3 hr4, hp]
          · exact hregs g hg'
        · rw [hdrop1]
          exact (madeOf_append (fun x hx => .inl hx) _ _).append (hmade.append hrest)

theorem SideScript.of_diff {limits : Budget} {base side : List Line} {n m : Nat}
    (hro : limits.rangesOnly = false) (hb : Built limits.rangesOnly base side edits.reverse n m)
    (hn : n = base.length) (hm : m = side.length) : SideScript base side edits := by
  subst hn hm
  have hs := hb.isScript
  rw [reverse_reverse] at hs
  refine ⟨hs, fun e he => ?_⟩
  rw [(hb.forall_edit e (mem_reverse.mpr he)).2.2.2, replacementOf, hro]
  rfl

/-- The regions of a merge cut its text and the three inputs in step, and all inputs are within
the line limit. -/
theorem merge_yields (limits : Budget) (lib : Library) (base left right : Bytes) :
    Yields (fun _ => True) (merge limits lib base left right) fun out =>
      Cuts (lines base) (lines left) (lines right) out.text 0 0 0 0 out.regions ∧
      (lines base).length ≤ defaultMaxLines ∧ (lines left).length ≤ defaultMaxLines ∧
      (lines right).length ≤ defaultMaxLines := by
  refine throwIf_past fun hro => ?_
  refine (diff_yields limits lib base left).bind fun l hl => ?_
  refine (diff_yields limits lib base right).bind fun r hr => ?_
  refine (countLines_yields (fun _ _ => trivial) (fun _ => trivial) fun _ => trivial).bind
    fun n hn => ?_
  refine (Budget.reserve_yields fun _ _ => trivial).skip fun _ => ?_
  refine (splitLines_yields (fun _ _ => trivial) (fun _ => trivial) fun _ => trivial).bind
    fun ls hls => ?_
  rw [hls.1]
  have hsl := SideScript.of_diff (by simpa using hro) hl.1.1 rfl rfl
  have hsr := SideScript.of_diff (by simpa using hro) hr.1.1 rfl rfl
  have hpair : ∀ {side : List Line} {edits : List Edit}, SideScript (lines base) side edits →
      edits.Pairwise fun e f => e.begin_ < f.begin_ := fun h =>
    h.pairwise.imp_of_mem fun {e f} he _ hef => by
      have := (h.ordered e he).1
      omega
  have hofl := ofSide_sortedEdits (hpair hsl) (sublist_append_left _ _) (ofSide_tagged l r).1
  have hofr := ofSide_sortedEdits (hpair hsr) (sublist_append_right _ _) (ofSide_tagged l r).2
  have hlimit : ∀ side : Bytes, (base ≠ side →
      (lines base).length + (lines side).length ≤ defaultMaxLines) →
      (lines side).length ≤ defaultMaxLines := by
    intro side h
    by_cases he : base = side
    · subst he; omega
    · have := h he; omega
  have hsorted : Sorted (sortedEdits l r) := pairwise_insertionSort _ _
  have hranges : Ranges (lines base) 0 (sortedEdits l r) := by
    intro t ht
    rw [sortedEdits, mem_insertionSort] at ht
    refine ⟨Nat.zero_le _, ?_⟩
    rcases mem_append.mp ht with ht | ht
    · obtain ⟨e, he, rfl⟩ := mem_map.mp ht
      exact ⟨(hsl.ordered e he).1, (hsl.inside e he).1⟩
    · obtain ⟨e, he, rfl⟩ := mem_map.mp ht
      exact ⟨(hsr.ordered e he).1, (hsr.inside e he).1⟩
  refine (mergeFrom_yields (Budget.check_yields fun _ _ => trivial) (lines left) (lines right)
    _ _ 0 0 0 {} (Nat.lt_succ_self _) (Nat.zero_le _) hsorted hranges (.start hsl hofl)
    (.start hsr hofr)).weaken fun out ho => ?_
  obtain ⟨-, gs, hgs, hcuts⟩ := ho
  rw [show out.regions = gs by simpa using hgs]
  exact ⟨hcuts, by omega, hlimit left hl.2, hlimit right hr.2⟩

end Hc.Compare
