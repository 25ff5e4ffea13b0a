import HyperCommander.Compare.LineSeams
import HyperCommander.Compare.SimilarLines

/-!
# Alignment of several texts (`HyperCompare/core/alignmentMap.cpp`, `MultiAlignmentMap`)

Two to four texts side by side. The first one is compared with each of the others, and one sweep
over all these edits cuts the texts into runs: edits whose base ranges overlap share a run.

* `multiBuild_yields`: the runs tile every text, and the pair flags say which of them differ.
* `MultiAligned.pair`: two of the texts make an aligned map of their own.
-/

namespace Hc.Compare

open List Slice Tiling

/-- A vector with a value for each side. -/
abbrev Cells := List Nat

/-- `vector[side]`. -/
def Cells.at (v : Cells) (side : Nat) : Nat := v.getD side 0

/-- `MultiAlignmentRun`. Bit `a * 4 + b` of the flags belongs to the sides `a` and `b`. -/
structure MultiRun where
  begin_ : Cells
  end_ : Cells
  rowBegin : Nat := 0
  rowEnd : Nat := 0
  changedPairs : Nat := 0
deriving DecidableEq

/-- `MultiAlignmentMap`. -/
structure MultiMap where
  lines : Cells
  runs : List MultiRun := []
  rows : Nat := 0
deriving DecidableEq

/-! ## Runs -/

/-- The lines of a side. -/
def sideLines (sides : List (List Line)) (side : Nat) : List Line := sides.getD side []

/-- The flags of two sides. -/
def pairMask (a b : Nat) : Nat := 2 ^ (a * 4 + b) ||| 2 ^ (b * 4 + a)

/-- The sides `a < b`. -/
def sidePairs (count : Nat) : List (Nat × Nat) :=
  (List.range count).flatMap fun a => ((List.range count).filter (a < ·)).map (Prod.mk a)

/-- The loop over the pairs of sides. -/
def differingPairs (sides : List (List Line)) (begin_ end_ : Cells) : Nat :=
  let span := fun side => append (sideLines sides side) (begin_.at side) (end_.at side)
  (sidePairs begin_.length).foldl
    (fun mask p => if span p.1 ≠ span p.2 then mask ||| pairMask p.1 p.2 else mask) 0

/-- The lines of the longest side. -/
def heightOf (begin_ end_ : Cells) : Nat :=
  (List.zipWith (fun a b => b - a) begin_ end_).foldl max 0

/-- What both `append` lambdas do with a run that has rows. -/
def MultiMap.push (map : MultiMap) (begin_ end_ : Cells) (pairs : Nat) : MultiMap :=
  let height := heightOf begin_ end_
  if height = 0 then map
  else { map with
    runs := map.runs ++ [⟨begin_, end_, map.rows, map.rows + height, pairs⟩]
    rows := map.rows + height }

/-- `Pair`. -/
def MultiMap.pair (map : MultiMap) (left right : Nat) : Except Failure AlignmentMap :=
  if left = right ∨ left ≥ map.lines.length ∨ right ≥ map.lines.length then
    .error ⟨"InvalidAlignmentSide"⟩
  else .ok
    { lines := (map.lines.at left, map.lines.at right)
      runs := map.runs.map fun run =>
        ⟨(run.begin_.at left, run.begin_.at right), (run.end_.at left, run.end_.at right),
          run.changedPairs.testBit (left * 4 + right), run.rowBegin, run.rowEnd⟩
      rows := map.rows }

/-! ## `Build` -/

/-- `Change`. -/
structure Change where
  side : Nat
  edit : Edit

/-- The comparator of `std::stable_sort`. -/
def Change.less (a b : Change) : Bool :=
  if a.edit.begin_ ≠ b.edit.begin_ then decide (a.edit.begin_ < b.edit.begin_)
  else decide (a.edit.end_ < b.edit.end_)

def sortChanges (changes : List Change) : List Change :=
  changes.insertionSort fun a b => !b.less a

/-- `overlap`. -/
def overlapsGroup (begin_ end_ : Nat) (e : Edit) : Bool :=
  if begin_ = end_ ∧ e.begin_ = e.end_ then begin_ = e.begin_
  else max begin_ e.begin_ < min end_ e.end_ ∨
    (e.begin_ = e.end_ ∧ begin_ < e.begin_ ∧ e.begin_ < end_)

/-- The inner loop: the changes that overlap the group, its end, and the changes left. -/
def takeChanges (begin_ end_ : Nat) : List Change → List Change × Nat × List Change
  | [] => ([], end_, [])
  | c :: cs =>
    if overlapsGroup begin_ end_ c.edit then
      let more := takeChanges begin_ (max end_ c.edit.end_) cs
      (c :: more.1, more.2)
    else ([], end_, c :: cs)

/-- The cursor and the map under way. -/
structure Sweep where
  cursor : Cells
  map : MultiMap

/-- The `append` lambda of `Build`. -/
def Sweep.append (limits : Budget) (sides : List (List Line)) (s : Sweep) (counts : Cells)
    (changed : Bool) : Run Sweep := do
  limits.check
  throwIf (∃ side < counts.length, counts.at side > s.map.lines.at side - s.cursor.at side)
    "InvalidAlignmentEdits"
  let end_ : Cells := List.zipWith (· + ·) s.cursor counts
  pure ⟨end_, s.map.push s.cursor end_ (if changed then differingPairs sides s.cursor end_ else 0)⟩

/-- The lines of a side in the group after one of its edits. -/
def addChange (counts : Cells) (c : Change) : Run Cells := do
  let count := counts.at c.side
  let removed := c.edit.end_ - c.edit.begin_
  let added := c.edit.otherEnd - c.edit.otherBegin
  throwIf (removed > count) "InvalidAlignmentEdits"
  pure (counts.set c.side (count - removed + added))

/-- The loop over the groups. Every turn takes a change at least. -/
def sweepFrom (limits : Budget) (sides : List (List Line)) :
    (fuel : Nat) → List Change → Sweep → Run Sweep
  | fuel + 1, c :: cs, s => do
    limits.check
    let taken := takeChanges c.edit.begin_ c.edit.end_ cs
    throwIf (c.edit.begin_ < s.cursor.at 0) "InvalidAlignmentEdits"
    let s ← s.append limits sides
      (List.replicate sides.length (c.edit.begin_ - s.cursor.at 0)) false
    let counts ← (c :: taken.1).foldlM addChange
      (List.replicate sides.length (taken.2.1 - c.edit.begin_))
    let s ← s.append limits sides counts true
    sweepFrom limits sides fuel taken.2.2 s
  | _, _, s => pure s

/-- The lines of all texts. -/
def countAll (limits : Budget) : List Bytes → Run Nat
  | [] => pure 0
  | text :: texts => do
    let count ← countLines limits text
    let more ← countAll limits texts
    pure (count + more)

/-- The loop over the texts, from number `side` on. -/
def readSides (limits : Budget) (lib : Library) (base : Bytes) : (side : Nat) → List Bytes →
    Run (List (List Line) × List Change)
  | _, [] => pure ([], [])
  | side, text :: texts => do
    let ls ← splitLines limits text
    let edits ← (if side = 0 then pure [] else diff limits lib base text)
    let rest ← readSides limits lib base (side + 1) texts
    pure (ls :: rest.1, edits.map (Change.mk side) ++ rest.2)

/-- `MultiAlignmentMap::Build`; `sortCompares` is how often `std::stable_sort` compares. The
estimate has the sizes of a 64-bit platform. -/
def MultiMap.build (limits : Budget) (lib : Library) (sortCompares : List Change → Nat)
    (texts : List Bytes) : Run MultiMap := do
  limits.check
  throwIf (texts.length < 2 ∨ texts.length > 4) "InvalidAlignmentSides"
  let lineCount ← countAll limits texts
  limits.reserve (lineCount * (16 + 2 * 64 + 2 * (72 + texts.length * 3 * 8)) +
    (texts.map List.length).sum * 2)
  let read ← readSides limits lib (texts.headD []) 0 texts
  checkMany limits (sortCompares read.2 / 1024)
  let zeros : Cells := List.replicate texts.length 0
  let s ← sweepFrom limits read.1 read.2.length (sortChanges read.2)
    ⟨zeros, { lines := read.1.map List.length }⟩
  let s ← s.append limits read.1
    (List.replicate texts.length (s.map.lines.at 0 - s.cursor.at 0)) false
  throwIf (s.cursor ≠ s.map.lines) "InvalidAlignmentEdits"
  limits.check
  pure s.map

/-! ## Flags -/

theorem testBit_pairMask (a b i : Nat) :
    (pairMask a b).testBit i = true ↔ i = a * 4 + b ∨ i = b * 4 + a := by
  rw [pairMask, Nat.testBit_or, Nat.testBit_two_pow, Nat.testBit_two_pow, Bool.or_eq_true,
    decide_eq_true_iff, decide_eq_true_iff]
  omega

theorem mem_sidePairs {count : Nat} {p : Nat × Nat} :
    p ∈ sidePairs count ↔ p.1 < p.2 ∧ p.2 < count := by
  obtain ⟨a, b⟩ := p
  simp only [sidePairs, mem_flatMap, mem_map, mem_filter, mem_range,
    decide_eq_true_eq, Prod.mk.injEq]
  constructor
  · rintro ⟨_, -, _, ⟨hb, hab⟩, rfl, rfl⟩
    exact ⟨hab, hb⟩
  · rintro ⟨hab, hb⟩
    exact ⟨a, hab.trans hb, b, ⟨hb, hab⟩, rfl, rfl⟩

theorem testBit_masks {d : Nat × Nat → Prop} [DecidablePred d] (ps : List (Nat × Nat))
    (mask i : Nat) :
    (ps.foldl (fun mask p =>
      if d p then mask ||| pairMask p.1 p.2 else mask) mask).testBit i = true ↔
      mask.testBit i = true ∨ ∃ p ∈ ps, d p ∧ (i = p.1 * 4 + p.2 ∨ i = p.2 * 4 + p.1) := by
  induction ps generalizing mask with
  | nil => simp
  | cons p ps ih =>
    rw [foldl_cons, ih, exists_mem_cons_iff]
    split
    · rename_i hd
      rw [Nat.testBit_or, Bool.or_eq_true, testBit_pairMask, or_assoc]
      simp only [hd, true_and]
    · rename_i hd
      simp only [hd, false_and, false_or]

/-- The lines of a side in a run. -/
def sideSlice (sides : List (List Line)) (begin_ end_ : Cells) (side : Nat) : List Line :=
  slice (sideLines sides side) (begin_.at side) (end_.at side)

/-- The flag of two sides is set where their lines differ. -/
def Flagged (sides : List (List Line)) (begin_ end_ : Cells) (pairs : Nat) : Prop :=
  ∀ a b, a < sides.length → b < sides.length → a ≠ b → (pairs.testBit (a * 4 + b) = true ↔
    sideSlice sides begin_ end_ a ≠ sideSlice sides begin_ end_ b)

theorem sideLines_map (texts : List Bytes) (side : Nat) :
    sideLines (texts.map lines) side = lines (texts.getD side []) := by
  rw [sideLines, getD_eq_getElem?_getD, getElem?_map, getD_eq_getElem?_getD]
  cases texts[side]? <;> rfl

theorem differing_flagged {texts : List Bytes} (hn : texts.length ≤ 4) {begin_ end_ : Cells}
    (hlen : begin_.length = texts.length) :
    Flagged (texts.map lines) begin_ end_ (differingPairs (texts.map lines) begin_ end_) := by
  intro a b ha hb hne
  rw [length_map] at ha hb
  have hspan : ∀ a b, append (sideLines (texts.map lines) a) (begin_.at a) (end_.at a) ≠
      append (sideLines (texts.map lines) b) (begin_.at b) (end_.at b) ↔
        sideSlice (texts.map lines) begin_ end_ a ≠ sideSlice (texts.map lines) begin_ end_ b := by
    intro a b
    rw [sideSlice, sideSlice, sideLines_map, sideLines_map]
    exact not_congr (append_eq_iff _ _ _ _ _ _)
  unfold differingPairs
  rw [testBit_masks, Nat.zero_testBit, hlen]
  constructor
  · rintro (h | ⟨⟨c, d⟩, hp, hd, hi⟩)
    · cases h
    have hp := mem_sidePairs.mp hp
    rcases hi with hi | hi
    · obtain ⟨rfl, rfl⟩ : a = c ∧ b = d := by omega
      exact (hspan a b).mp hd
    · obtain ⟨rfl, rfl⟩ : a = d ∧ b = c := by omega
      exact ((hspan b a).mp hd).symm
  · intro h
    rcases Nat.lt_or_gt_of_ne hne with hlt | hgt
    · exact .inr ⟨(a, b), mem_sidePairs.mpr ⟨hlt, hb⟩, (hspan a b).mpr h, .inl rfl⟩
    · exact .inr ⟨(b, a), mem_sidePairs.mpr ⟨hgt, ha⟩, (hspan b a).mpr h.symm, .inr rfl⟩

/-! ## Tiles -/

/-- The runs tile the lines in front of the cursor and the rows, and their flags are right. -/
structure MultiTiled (sides : List (List Line)) (map : MultiMap) (cursor : Cells) : Prop where
  tiles : ∀ side < sides.length,
    Tiles (fun r : MultiRun => r.begin_.at side) (fun r => r.end_.at side) 0 map.runs
      (cursor.at side)
  rows : Tiles MultiRun.rowBegin MultiRun.rowEnd 0 map.runs map.rows
  height : ∀ r ∈ map.runs, ∀ side < sides.length,
    r.end_.at side - r.begin_.at side ≤ r.rowEnd - r.rowBegin
  cells : ∀ r ∈ map.runs, r.begin_.length = sides.length ∧ r.end_.length = sides.length
  flags : ∀ r ∈ map.runs, Flagged sides r.begin_ r.end_ r.changedPairs

/-- The map of texts: the runs tile all of their lines. -/
structure MultiAligned (sides : List (List Line)) (map : MultiMap) : Prop where
  lines : map.lines = sides.map List.length
  tiled : MultiTiled sides map map.lines

theorem Cells.at_zipWith {v w : Cells} {f : Nat → Nat → Nat} {side : Nat} (hv : side < v.length)
    (hw : side < w.length) : Cells.at (List.zipWith f v w) side = f (v.at side) (w.at side) := by
  rw [Cells.at, Cells.at, Cells.at, getD_eq_getElem _ _ hv, getD_eq_getElem _ _ hw,
    getD_eq_getElem _ _ (by rw [length_zipWith]; omega), getElem_zipWith]

theorem Cells.at_replicate {n x side : Nat} (h : side < n) :
    Cells.at (List.replicate n x) side = x := by
  rw [Cells.at, getD_eq_getElem _ _ (by rw [length_replicate]; exact h),
    getElem_replicate]

theorem le_foldl_max {l : List Nat} {x b : Nat} (h : x ∈ l ∨ x ≤ b) : x ≤ l.foldl max b := by
  induction l generalizing b with
  | nil => exact h.resolve_left not_mem_nil
  | cons y l ih =>
    refine ih ?_
    rcases h with h | h
    · rcases mem_cons.mp h with rfl | h
      · exact .inr (Nat.le_max_right _ _)
      · exact .inl h
    · exact .inr (h.trans (Nat.le_max_left _ _))

theorem le_heightOf {begin_ end_ : Cells} {side : Nat} (hb : side < begin_.length)
    (he : side < end_.length) : end_.at side - begin_.at side ≤ heightOf begin_ end_ := by
  have hlen : side < (zipWith (fun a b => b - a) begin_ end_).length := by
    rw [length_zipWith]
    omega
  have hat := Cells.at_zipWith (f := fun a b => b - a) hb he
  refine le_foldl_max (.inl ?_)
  rw [← hat, Cells.at, getD_eq_getElem _ _ hlen]
  exact getElem_mem hlen

section Tiled

variable {sides : List (List Line)} {map : MultiMap} {cursor end_ : Cells} {pairs : Nat}

theorem MultiTiled.push (h : MultiTiled sides map cursor) (hb : cursor.length = sides.length)
    (he : end_.length = sides.length) (hle : ∀ side < sides.length, cursor.at side ≤ end_.at side)
    (hflags : Flagged sides cursor end_ pairs) :
    MultiTiled sides (map.push cursor end_ pairs) end_ := by
  have hheight : ∀ side < sides.length,
      end_.at side - cursor.at side ≤ heightOf cursor end_ := fun side hs =>
    le_heightOf (hb ▸ hs) (he ▸ hs)
  unfold MultiMap.push
  dsimp only
  split
  · refine ⟨fun side hs => ?_, h.rows, h.height, h.cells, h.flags⟩
    have h1 := hheight side hs
    have h2 := hle side hs
    rw [show end_.at side = cursor.at side by omega]
    exact h.tiles side hs
  · refine ⟨fun side hs => (h.tiles side hs).append ⟨rfl, hle side hs, rfl⟩,
      h.rows.append ⟨rfl, Nat.le_add_right _ _, rfl⟩, fun r hr => ?_, fun r hr => ?_,
        fun r hr => ?_⟩
    · rcases mem_append.mp hr with hr | hr
      · exact h.height r hr
      · rw [mem_singleton.mp hr]
        intro side hs
        rw [Nat.add_sub_cancel_left]
        exact hheight side hs
    · rcases mem_append.mp hr with hr | hr
      · exact h.cells r hr
      · rw [mem_singleton.mp hr]
        exact ⟨hb, he⟩
    · rcases mem_append.mp hr with hr | hr
      · exact h.flags r hr
      · rw [mem_singleton.mp hr]
        exact hflags

theorem push_lines : (map.push cursor end_ pairs).lines = map.lines := by
  unfold MultiMap.push
  dsimp only
  split <;> rfl

/-- Two of the texts make a map of their own. -/
theorem MultiAligned.pair (h : MultiAligned sides map) {left right : Nat} (hne : left ≠ right)
    (hl : left < sides.length) (hr : right < sides.length) :
    ∃ two, map.pair left right = .ok two ∧
      Aligned (sideLines sides left, sideLines sides right) two := by
  have hlen : map.lines.length = sides.length := by rw [h.lines, length_map]
  have hat : ∀ side < sides.length, map.lines.at side = (sideLines sides side).length := by
    intro side hs
    rw [h.lines, Cells.at, sideLines, getD_eq_getElem?_getD, getElem?_map,
      getD_eq_getElem?_getD, getElem?_eq_getElem hs]
    rfl
  unfold MultiMap.pair
  rw [if_neg (by omega)]
  refine ⟨_, rfl, by rw [hat left hl, hat right hr], fun side => ?_, ?_, fun r hmem => ?_,
    fun r hmem hc => ?_⟩
  · have hmap : ∀ {lo hi : AlignmentRun → Nat} {f : MultiRun → AlignmentRun} {a b : Nat},
        Tiles (fun r => lo (f r)) (fun r => hi (f r)) a map.runs b →
          Tiles lo hi a (map.runs.map f) b := by
      intro lo hi f a b ht
      exact ht.congr (forall₂_map_right_iff.mpr (forall₂_same.mpr fun _ _ => ⟨rfl, rfl⟩))
    rcases side with - | side
    · exact hmap (h.tiled.tiles left hl)
    · exact hmap (h.tiled.tiles right hr)
  · exact h.tiled.rows.congr
      (forall₂_map_right_iff.mpr (forall₂_same.mpr fun _ _ => ⟨rfl, rfl⟩))
  · obtain ⟨r, hm, rfl⟩ := mem_map.mp hmem
    exact Nat.max_le.mpr ⟨h.tiled.height r hm left hl, h.tiled.height r hm right hr⟩
  · obtain ⟨r, hm, rfl⟩ := mem_map.mp hmem
    have hflag := h.tiled.flags r hm left right hl hr hne
    dsimp only at hc
    rw [hc] at hflag
    exact Decidable.not_not.mp fun hdiff => absurd (hflag.mpr hdiff) (by decide)

end Tiled

/-! ## Lanes -/

/-- The edits left of a side lead from the lines `c` of the base and `c'` of the side to the
ends. -/
structure Lane (base side : List Line) (pending : List Edit) (c c' : Nat) : Prop where
  covers : Covers base side c c' pending
  fits : ∀ e ∈ pending, EditFits base side e

namespace Lane

variable {base side : List Line} {pending : List Edit} {c c' b : Nat} {e : Edit}

theorem inside (h : Lane base side pending c c') : c ≤ base.length ∧ c' ≤ side.length := by
  have hcov := h.covers
  cases pending with
  | nil =>
    have := Same.le hcov
    omega
  | cons e es =>
    have := Same.le hcov.1
    obtain ⟨h1, h2, -, h3, h4⟩ := h.fits e mem_cons_self
    omega

theorem ahead (h : Lane base side pending c c') : ∀ e ∈ pending, c ≤ e.begin_ := by
  obtain ⟨hcov, hfits⟩ := h
  induction pending generalizing c c' with
  | nil => exact fun _ he => absurd he not_mem_nil
  | cons e es ih =>
    have hle := (Same.le hcov.1).1
    intro f hf
    rcases mem_cons.mp hf with rfl | hf
    · exact hle
    · have h1 := (hfits e mem_cons_self).1
      have h2 := ih hcov.2 (fun g hg => hfits g (mem_cons_of_mem _ hg)) f hf
      omega

/-- Up to the next edit the lines are equal. -/
theorem move (h : Lane base side pending c c') (hc : c ≤ b) (hb : b ≤ base.length)
    (hp : ∀ e ∈ pending, b ≤ e.begin_) :
    slice base c b = slice side c' (c' + (b - c)) ∧ Lane base side pending b (c' + (b - c)) := by
  have hcov := h.covers
  cases pending with
  | nil =>
    obtain ⟨h1, h2⟩ := Same.mid hcov hc hb
    exact ⟨h1.slice_eq, h2, h.fits⟩
  | cons e es =>
    obtain ⟨h1, h2⟩ := Same.mid hcov.1 hc (hp e mem_cons_self)
    exact ⟨h1.slice_eq, ⟨h2, hcov.2⟩, h.fits⟩

/-- The next edit is passed. -/
theorem pass (h : Lane base side (e :: pending) c c') : c ≤ e.begin_ ∧
    e.otherBegin = c' + (e.begin_ - c) ∧ EditFits base side e ∧
    Lane base side pending e.end_ e.otherEnd := by
  have hle := Same.le h.covers.1
  exact ⟨hle.1, by omega, h.fits e mem_cons_self, h.covers.2,
    fun f hf => h.fits f (mem_cons_of_mem _ hf)⟩

end Lane

/-- The edits of a side. -/
def changesOf (side : Nat) (cs : List Change) : List Edit :=
  (cs.filter fun c => c.side == side).map Change.edit

theorem changesOf_append (side : Nat) (cs ds : List Change) :
    changesOf side (cs ++ ds) = changesOf side cs ++ changesOf side ds := by
  rw [changesOf, filter_append, map_append]
  rfl

theorem changesOf_cons (side : Nat) (c : Change) (cs : List Change) :
    changesOf side (c :: cs) =
      if c.side = side then c.edit :: changesOf side cs else changesOf side cs := by
  unfold changesOf
  rw [filter_cons]
  split
  · rename_i h
    rw [if_pos (beq_iff_eq.mp h)]
    rfl
  · rename_i h
    rw [if_neg fun he => h (beq_iff_eq.mpr he)]

theorem mem_changesOf {side : Nat} {cs : List Change} {e : Edit} :
    e ∈ changesOf side cs ↔ ∃ c ∈ cs, c.side = side ∧ c.edit = e := by
  simp only [changesOf, mem_map, mem_filter, beq_iff_eq, and_assoc]

/-! ## Groups -/

theorem not_less_iff {a b : Change} : (!b.less a) = true ↔ a.edit.begin_ < b.edit.begin_ ∨
    a.edit.begin_ = b.edit.begin_ ∧ a.edit.end_ ≤ b.edit.end_ := by
  unfold Change.less
  split
  · simp only [Bool.not_eq_true', decide_eq_false_iff_not]
    omega
  · simp only [Bool.not_eq_true', decide_eq_false_iff_not]
    omega

instance : IsTrans Change fun a b => (!b.less a) = true where
  trans a b c h h' := by
    rw [not_less_iff] at h h' ⊢
    omega

instance : Std.Total fun a b : Change => (!b.less a) = true where
  total a b := by
    rw [not_less_iff, not_less_iff]
    omega

/-- The order of the sweep. -/
def SweepOrder (cs : List Change) : Prop := cs.Pairwise fun a b => (!b.less a) = true

theorem sweepOrder_sortChanges (cs : List Change) : SweepOrder (sortChanges cs) :=
  pairwise_insertionSort _ _

/-- Sorting keeps the edits of a side in their order. -/
theorem changesOf_sortChanges {side : Nat} {cs : List Change}
    (h : (changesOf side cs).Pairwise fun e f => e.begin_ < f.begin_) :
    changesOf side (sortChanges cs) = changesOf side cs := by
  have hsorted : (cs.filter fun c => c.side == side).Pairwise fun a b => (!b.less a) = true :=
    (pairwise_map.mp h).imp fun hlt => not_less_iff.mpr (.inl hlt)
  have hsub := (sublist_insertionSort hsorted filter_sublist).filter
    fun c => c.side == side
  rw [filter_filter] at hsub
  simp only [Bool.and_self] at hsub
  have hperm := (perm_insertionSort (fun a b : Change => (!b.less a) = true) cs).filter
    fun c => c.side == side
  rw [changesOf, changesOf, sortChanges, hsub.eq_of_length hperm.length_eq.symm]

/-- A group takes what begins in front of its end. -/
theorem takeChanges_spec {cs : List Change} {b e n : Nat} (hbe : b ≤ e) (hen : e ≤ n)
    (hs : SweepOrder cs) (hcs : ∀ c ∈ cs, b ≤ c.edit.begin_ ∧ c.edit.begin_ ≤ c.edit.end_ ∧
      c.edit.end_ ≤ n ∧ (c.edit.begin_ = b → b < e → b < c.edit.end_)) :
    ∃ group end_ rest, takeChanges b e cs = (group, end_, rest) ∧ cs = group ++ rest ∧
      e ≤ end_ ∧ end_ ≤ n ∧ (∀ c ∈ group, c.edit.end_ ≤ end_) ∧
      ∀ c ∈ rest, end_ ≤ c.edit.begin_ := by
  induction cs generalizing e with
  | nil =>
    exact ⟨[], e, [], rfl, rfl, Nat.le_refl _, hen, fun _ hc => absurd hc not_mem_nil,
      fun _ hc => absurd hc not_mem_nil⟩
  | cons c cs ih =>
    obtain ⟨h1, h2, h3, h4⟩ := hcs c mem_cons_self
    obtain ⟨hfirst, hs⟩ := pairwise_cons.mp hs
    rw [takeChanges]
    by_cases ho : overlapsGroup b e c.edit
    · rw [if_pos ho]
      -- A group without lines stays one.
      have hgrow : b < max e c.edit.end_ → b < e := by
        unfold overlapsGroup at ho
        split at ho
        · have := of_decide_eq_true ho
          omega
        · have := of_decide_eq_true ho
          omega
      obtain ⟨group, end_, rest, h5, rfl, h6, h7, h8, h9⟩ := ih (e := max e c.edit.end_) (by omega)
        (by omega) hs fun d hd => by
          obtain ⟨h5, h6, h7, h8⟩ := hcs d (mem_cons_of_mem _ hd)
          exact ⟨h5, h6, h7, fun hb hlt => h8 hb (hgrow hlt)⟩
      rw [h5]
      refine ⟨c :: group, end_, rest, rfl, rfl, by omega, h7, fun d hd => ?_, h9⟩
      rcases mem_cons.mp hd with rfl | hd
      · omega
      · exact h8 d hd
    · rw [if_neg ho]
      refine ⟨[], e, c :: cs, rfl, rfl, Nat.le_refl _, hen, fun _ hc => absurd hc not_mem_nil,
        fun d hd => ?_⟩
      have hc : e ≤ c.edit.begin_ := by
        unfold overlapsGroup at ho
        split at ho
        · have := of_decide_eq_false (Bool.not_eq_true _ ▸ ho)
          omega
        · have := of_decide_eq_false (Bool.not_eq_true _ ▸ ho)
          omega
      rcases mem_cons.mp hd with rfl | hd
      · exact hc
      · have := not_less_iff.mp (hfirst d hd)
        omega

/-! ## The sweep -/

theorem Cells.at_set {v : Cells} {i j x : Nat} (h : j < v.length) :
    Cells.at (v.set i x) j = if i = j then x else v.at j := by
  rw [Cells.at, Cells.at, getD_eq_getElem _ _ (by rw [length_set]; exact h),
    getD_eq_getElem _ _ h, getElem_set]

theorem Cells.ext_at {v w : Cells} (hl : v.length = w.length)
    (h : ∀ side < v.length, v.at side = w.at side) : v = w := by
  refine ext_getElem hl fun i hv hw => ?_
  have := h i hv
  rwa [Cells.at, Cells.at, getD_eq_getElem _ _ hv, getD_eq_getElem _ _ hw] at this

section Sweep

variable {E : Failure → Prop} {limits : Budget} {texts : List Bytes} {sides : List (List Line)}
  {base : List Line} {s : Sweep} {counts : Cells}

/-- The counts go on while the lanes do: what a side has of the group is what its lane has passed
and the base lines left of the group. -/
theorem addChanges_yields {group rest : List Change} {end_ : Nat} {p g start : Nat → Nat}
    (hlen : counts.length = sides.length)
    (h : ∀ k < sides.length,
      Lane base (sideLines sides k) (changesOf k (group ++ rest)) (p k) (g k) ∧
      p k ≤ end_ ∧ start k ≤ g k ∧ start k + counts.at k = g k + (end_ - p k))
    (hin : ∀ c ∈ group, c.side < sides.length ∧ c.edit.end_ ≤ end_) :
    Yields E (group.foldlM addChange counts) fun counts' => counts'.length = sides.length ∧
      (∀ k, (∀ c ∈ group, c.side ≠ k) → k < sides.length → counts'.at k = counts.at k) ∧
      ∀ k < sides.length, ∃ q q', Lane base (sideLines sides k) (changesOf k rest) q q' ∧
        q ≤ end_ ∧ start k + counts'.at k = q' + (end_ - q) := by
  induction group generalizing counts p g with
  | nil =>
    refine .pure ⟨hlen, fun _ _ _ => rfl, fun k hk => ?_⟩
    obtain ⟨h1, h2, -, h3⟩ := h k hk
    exact ⟨p k, g k, h1, h2, h3⟩
  | cons c group ih =>
    obtain ⟨hside, hend⟩ := hin c mem_cons_self
    obtain ⟨hlane, h1, h2, h3⟩ := h c.side hside
    rw [cons_append, changesOf_cons, if_pos rfl] at hlane
    obtain ⟨h4, h5, ⟨h6, h7, -⟩, hlane⟩ := hlane.pass
    rw [foldlM_cons]
    unfold addChange
    rw [bind_assoc]
    refine (throwIf_yields fun hc => absurd hc (by omega)).bind fun _ _ => ?_
    rw [pure_bind]
    refine (ih (p := fun k => if c.side = k then c.edit.end_ else p k)
      (g := fun k => if c.side = k then c.edit.otherEnd else g k)
      (by rw [length_set]; exact hlen) (fun k hk => ?_)
      fun d hd => hin d (mem_cons_of_mem _ hd)).weaken fun counts' hcounts' => ?_
    · rw [Cells.at_set (hlen ▸ hk)]
      split
      · rename_i hk
        subst hk
        exact ⟨hlane, hend, by omega, by omega⟩
      · rename_i hne
        obtain ⟨hlane', h⟩ := h k hk
        rw [cons_append, changesOf_cons, if_neg hne] at hlane'
        exact ⟨hlane', h⟩
    · obtain ⟨h8, h9, h10⟩ := hcounts'
      refine ⟨h8, fun k hk hlt => ?_, h10⟩
      rw [h9 k (fun d hd => hk d (mem_cons_of_mem _ hd)) hlt, Cells.at_set (hlen ▸ hlt),
        if_neg (hk c mem_cons_self)]

/-- The sweep over the changes `cs` that are left. -/
structure Swept (sides : List (List Line)) (cs : List Change) (s : Sweep) : Prop where
  cells : s.cursor.length = sides.length
  lines : s.map.lines = sides.map List.length
  tiled : MultiTiled sides s.map s.cursor
  lanes : ∀ k < sides.length,
    Lane (sideLines sides 0) (sideLines sides k) (changesOf k cs) (s.cursor.at 0) (s.cursor.at k)

theorem at_lines (sides : List (List Line)) {k : Nat} (hk : k < sides.length) :
    Cells.at (sides.map List.length) k = (sideLines sides k).length := by
  rw [Cells.at, sideLines, getD_eq_getElem?_getD, getElem?_map,
    getD_eq_getElem?_getD, getElem?_eq_getElem hk]
  rfl

/-- A run behind the cursor, with lines that are there. -/
theorem Sweep.append_yields {changed : Bool} (hE : ∀ e, limits.Outside e → E e)
    (hn : texts.length ≤ 4) (hsides : sides = texts.map lines)
    (hcells : s.cursor.length = sides.length) (hlines : s.map.lines = sides.map List.length)
    (htiled : MultiTiled sides s.map s.cursor) (hlen : counts.length = sides.length)
    (hfit : ∀ k < sides.length, s.cursor.at k + counts.at k ≤ (sideLines sides k).length)
    (hsame : changed = false → ∀ a b, a < sides.length → b < sides.length →
      slice (sideLines sides a) (s.cursor.at a) (s.cursor.at a + counts.at a) =
        slice (sideLines sides b) (s.cursor.at b) (s.cursor.at b + counts.at b)) :
    Yields E (s.append limits sides counts changed) fun s' =>
      s'.cursor.length = sides.length ∧ s'.map.lines = sides.map List.length ∧
      (∀ k < sides.length, s'.cursor.at k = s.cursor.at k + counts.at k) ∧
      MultiTiled sides s'.map s'.cursor := by
  refine (Budget.check_yields hE).skip fun _ => ?_
  refine (throwIf_yields fun hc => ?_).bind fun _ _ => .pure ?_
  · obtain ⟨k, hk, hgt⟩ := hc
    have := hfit k (hlen ▸ hk)
    rw [hlines, at_lines sides (hlen ▸ hk)] at hgt
    omega
  have hat : ∀ k < sides.length, Cells.at (zipWith (· + ·) s.cursor counts) k =
      s.cursor.at k + counts.at k := fun k hk =>
    Cells.at_zipWith (hcells ▸ hk) (hlen ▸ hk)
  have hend : (zipWith (· + ·) s.cursor counts).length = sides.length := by
    rw [length_zipWith, hcells, hlen, Nat.min_self]
  refine ⟨hend, push_lines.trans hlines, hat, htiled.push hcells hend (fun k hk => ?_) ?_⟩
  · rw [hat k hk]
    exact Nat.le_add_right _ _
  · split
    · subst hsides
      rw [length_map] at hcells
      exact differing_flagged hn hcells
    · rename_i hch
      intro a b ha hb _
      rw [Nat.zero_testBit, sideSlice, sideSlice, hat a ha, hat b hb]
      simp only [Bool.false_eq_true, false_iff, not_not]
      exact hsame (by simpa using hch) a b ha hb

/-- The lanes as far as the next change, and the lines there. -/
theorem Swept.move {cs : List Change} {b : Nat} (h : Swept sides cs s) (hc : s.cursor.at 0 ≤ b)
    (hb : b ≤ (sideLines sides 0).length) (hcs : ∀ c ∈ cs, b ≤ c.edit.begin_) {k : Nat}
    (hk : k < sides.length) :
    slice (sideLines sides 0) (s.cursor.at 0) b =
        slice (sideLines sides k) (s.cursor.at k) (s.cursor.at k + (b - s.cursor.at 0)) ∧
      Lane (sideLines sides 0) (sideLines sides k) (changesOf k cs) b
        (s.cursor.at k + (b - s.cursor.at 0)) := by
  refine (h.lanes k hk).move hc hb fun e he => ?_
  obtain ⟨c, hmem, -, rfl⟩ := mem_changesOf.mp he
  exact hcs c hmem

/-- The run of equal lines up to `b`. -/
theorem Swept.gap_yields {cs : List Change} {b : Nat} (hE : ∀ e, limits.Outside e → E e)
    (hn : 0 < texts.length ∧ texts.length ≤ 4) (hsides : sides = texts.map Hc.Compare.lines)
    (h : Swept sides cs s) (hc : s.cursor.at 0 ≤ b) (hb : b ≤ (sideLines sides 0).length)
    (hcs : ∀ c ∈ cs, b ≤ c.edit.begin_) :
    Yields E (s.append limits sides (List.replicate sides.length (b - s.cursor.at 0)) false)
      fun s' => Swept sides cs s' ∧ s'.cursor.at 0 = b ∧
        ∀ k < sides.length, s'.cursor.at k = s.cursor.at k + (b - s.cursor.at 0) := by
  have hat : ∀ k < sides.length,
      Cells.at (replicate sides.length (b - s.cursor.at 0)) k = b - s.cursor.at 0 :=
    fun k hk => Cells.at_replicate hk
  have hzero : 0 < sides.length := by
    rw [hsides, length_map]
    exact hn.1
  refine (Sweep.append_yields hE hn.2 hsides h.cells h.lines h.tiled length_replicate
    (fun k hk => ?_) fun _ a c ha hc' => ?_).weaken fun s' hs' => ?_
  · rw [hat k hk]
    exact (h.move hc hb hcs hk).2.inside.2
  · rw [hat a ha, hat c hc', ← (h.move hc hb hcs ha).1, ← (h.move hc hb hcs hc').1]
  · obtain ⟨h1, h2, h3, h4⟩ := hs'
    have hat' : ∀ k < sides.length, s'.cursor.at k = s.cursor.at k + (b - s.cursor.at 0) :=
      fun k hk => by rw [h3 k hk, hat k hk]
    have hb' : s'.cursor.at 0 = b := by
      rw [hat' 0 hzero]
      omega
    refine ⟨⟨h1, h2, h4, fun k hk => ?_⟩, hb', hat'⟩
    rw [hb', hat' k hk]
    exact (h.move hc hb hcs hk).2

theorem sweepFrom_yields (hE : ∀ e, limits.Outside e → E e)
    (hn : 0 < texts.length ∧ texts.length ≤ 4) (hsides : sides = texts.map lines) {fuel : Nat}
    {cs : List Change} (hfuel : cs.length ≤ fuel) (hs : SweepOrder cs)
    (hin : ∀ c ∈ cs, c.side ≠ 0 ∧ c.side < sides.length) (h : Swept sides cs s) :
    Yields E (sweepFrom limits sides fuel cs s) fun s' => Swept sides [] s' := by
  induction fuel generalizing cs s with
  | zero =>
    rw [length_eq_zero_iff.mp (Nat.le_zero.mp hfuel)] at h ⊢
    exact .pure h
  | succ fuel ih =>
    cases cs with
    | nil => exact .pure h
    | cons c cs =>
      -- Every change fits its lane.
      have hfit : ∀ d ∈ c :: cs, s.cursor.at 0 ≤ d.edit.begin_ ∧
          d.edit.begin_ ≤ d.edit.end_ ∧ d.edit.end_ ≤ (sideLines sides 0).length := by
        intro d hd
        have hlane := h.lanes d.side (hin d hd).2
        have hmem : d.edit ∈ changesOf d.side (c :: cs) := mem_changesOf.mpr ⟨d, hd, rfl, rfl⟩
        obtain ⟨h1, -, -, h2, -⟩ := hlane.fits _ hmem
        exact ⟨hlane.ahead _ hmem, h1, h2⟩
      obtain ⟨hc1, hc2, hc3⟩ := hfit c mem_cons_self
      obtain ⟨hfirst, hs'⟩ := pairwise_cons.mp hs
      have hbegin : ∀ d ∈ c :: cs, c.edit.begin_ ≤ d.edit.begin_ := by
        intro d hd
        rcases mem_cons.mp hd with rfl | hd
        · exact Nat.le_refl _
        · have := not_less_iff.mp (hfirst d hd)
          omega
      obtain ⟨group, end_, rest, htake, rfl, h1, h2, h3, h4⟩ := takeChanges_spec hc2 hc3 hs'
        fun d hd => by
          have h1 := not_less_iff.mp (hfirst d hd)
          have h2 := hfit d (mem_cons_of_mem _ hd)
          exact ⟨by omega, h2.2.1, h2.2.2, by omega⟩
      rw [sweepFrom, htake]
      dsimp only
      refine (Budget.check_yields hE).skip fun _ => ?_
      refine (throwIf_yields fun hlt => absurd hlt (by omega)).bind fun _ _ => ?_
      refine (h.gap_yields hE hn hsides hc1 (by omega) hbegin).bind fun s₁ hs₁ => ?_
      obtain ⟨hswept, hcursor, -⟩ := hs₁
      -- The group: every lane from its begin to its end.
      have hstart : ∀ k < sides.length, Lane (sideLines sides 0) (sideLines sides k)
          (changesOf k ((c :: group) ++ rest)) c.edit.begin_ (s₁.cursor.at k) ∧
          c.edit.begin_ ≤ end_ ∧ s₁.cursor.at k ≤ s₁.cursor.at k ∧ s₁.cursor.at k +
            Cells.at (replicate sides.length (end_ - c.edit.begin_)) k =
              s₁.cursor.at k + (end_ - c.edit.begin_) := by
        intro k hk
        rw [Cells.at_replicate hk]
        refine ⟨?_, by omega, Nat.le_refl _, rfl⟩
        have := hswept.lanes k hk
        rwa [hcursor] at this
      refine (addChanges_yields length_replicate hstart fun d hd => ?_).bind
        fun counts hcounts => ?_
      · refine ⟨(hin d ?_).2, ?_⟩
        · rcases mem_cons.mp hd with rfl | hd
          · exact mem_cons_self
          · exact mem_cons_of_mem _ (mem_append_left _ hd)
        · rcases mem_cons.mp hd with rfl | hd
          · exact h1
          · exact h3 d hd
      obtain ⟨hlen, hzero, hlanes⟩ := hcounts
      have hlanes : ∀ k < sides.length, Lane (sideLines sides 0) (sideLines sides k)
          (changesOf k rest) end_ (s₁.cursor.at k + counts.at k) := by
        intro k hk
        obtain ⟨q, q', hlane, hq, heq⟩ := hlanes k hk
        rw [heq]
        refine (hlane.move hq h2 fun e he => ?_).2
        obtain ⟨d, hd, -, rfl⟩ := mem_changesOf.mp he
        exact h4 d hd
      have hsize : 0 < sides.length := by
        rw [hsides, length_map]
        exact hn.1
      have hbase : s₁.cursor.at 0 + counts.at 0 = end_ := by
        rw [hzero 0 (fun d hd => ?_) hsize, Cells.at_replicate hsize, hcursor]
        · omega
        · rcases mem_cons.mp hd with rfl | hd
          · exact (hin d mem_cons_self).1
          · exact (hin d (mem_cons_of_mem _ (mem_append_left _ hd))).1
      refine (Sweep.append_yields hE hn.2 hsides hswept.cells hswept.lines hswept.tiled hlen
        (fun k hk => (hlanes k hk).inside.2) fun hc => by cases hc).bind fun s₂ hs₂ => ?_
      obtain ⟨h5, h6, h7, h8⟩ := hs₂
      refine ih ?_ (pairwise_append.mp hs').2.1 (fun d hd => hin d ?_)
        ⟨h5, h6, h8, fun k hk => ?_⟩
      · rw [length_cons, length_append] at hfuel
        omega
      · exact mem_cons_of_mem _ (mem_append_right _ hd)
      · rw [h7 0 hsize, h7 k hk, hbase]
        exact hlanes k hk

end Sweep

/-! ## What `Build` makes of texts -/

section Build

variable {E : Failure → Prop} {limits : Budget} {lib : Library} {texts : List Bytes}

theorem changesOf_map (side k : Nat) (edits : List Edit) :
    changesOf k (edits.map (Change.mk side)) = if side = k then edits else [] := by
  induction edits with
  | nil => split <;> rfl
  | cons e es ih =>
    rw [map_cons, changesOf_cons, ih]
    split <;> rfl

theorem countAll_yields (hE : ∀ e, limits.Outside e → E e) (hL : E ⟨"LineLimit"⟩)
    (hB : E ⟨"LongLineLimit"⟩) (texts : List Bytes) :
    Yields E (countAll limits texts) fun _ => True := by
  induction texts with
  | nil => exact .pure trivial
  | cons text texts ih =>
    rw [countAll]
    refine (countLines_yields hE (fun _ => hL) fun _ => hB).bind fun _ _ => ?_
    exact ih.skip fun _ => .pure trivial

/-- The lines of the texts, and the script of each but the first. -/
theorem readSides_yields (hE : EngineFailures E limits) (hL : E ⟨"LineLimit"⟩)
    (hB : E ⟨"LongLineLimit"⟩) (base : Bytes) (side : Nat) (texts : List Bytes) :
    Yields E (readSides limits lib base side texts) fun read => read.1 = texts.map lines ∧
      (∀ c ∈ read.2, c.side ≠ 0 ∧ side ≤ c.side ∧ c.side < side + texts.length) ∧
      ∀ (k : Nat) (text : Bytes), texts[k]? = some text → side + k ≠ 0 →
        IsScript (lines base) (lines text) (changesOf (side + k) read.2) := by
  induction texts generalizing side with
  | nil =>
    exact .pure ⟨rfl, fun _ hc => absurd hc not_mem_nil, fun k text hk => by cases hk⟩
  | cons text texts ih =>
    rw [readSides]
    refine (splitLines_yields hE.outside (fun _ => hL) fun _ => hB).bind fun ls hls => ?_
    have hdiff : Yields E (if side = 0 then pure [] else diff limits lib base text) fun edits =>
        (side = 0 → edits = []) ∧
          (side ≠ 0 → IsScript (lines base) (lines text) edits) := by
      refine .ite (fun h0 => .pure ⟨fun _ => rfl, fun hne => absurd h0 hne⟩) fun h0 => ?_
      refine (diff_yields_of hE hL hB lib base text).weaken fun edits hedits =>
        ⟨fun h => absurd h h0, fun _ => ?_⟩
      have := hedits.1.1.isScript
      rwa [reverse_reverse] at this
    refine hdiff.bind fun edits hedits => (ih (side + 1)).bind fun rest hrest => .pure ?_
    obtain ⟨h1, h2, h3⟩ := hrest
    have hnone : ∀ k < side + 1, changesOf k rest.2 = [] := by
      intro k hk
      refine eq_nil_iff_forall_not_mem.mpr fun e he => ?_
      obtain ⟨c, hc, rfl, -⟩ := mem_changesOf.mp he
      have := (h2 c hc).2.1
      omega
    refine ⟨by rw [map_cons, hls.1, h1], fun c hc => ?_, fun k t hk hne => ?_⟩
    · rw [length_cons]
      rcases mem_append.mp hc with hc | hc
      · obtain ⟨e, he, rfl⟩ := mem_map.mp hc
        refine ⟨fun h0 => ?_, Nat.le_refl _, by dsimp only; omega⟩
        rw [hedits.1 h0] at he
        cases he
      · have := h2 c hc
        omega
    · rw [changesOf_append, changesOf_map]
      cases k with
      | zero =>
        rw [getElem?_cons_zero] at hk
        cases hk
        rw [Nat.add_zero, if_pos rfl, hnone side (Nat.lt_succ_self _), append_nil]
        exact hedits.2 hne
      | succ k =>
        rw [getElem?_cons_succ] at hk
        rw [if_neg (by omega), nil_append, show side + (k + 1) = side + 1 + k by omega]
        exact h3 k t hk (by omega)

theorem sidePairwise_begin {left right : List Line} {edits : List Edit}
    (h : IsScript left right edits) : edits.Pairwise fun e f => e.begin_ < f.begin_ :=
  h.pairwise.imp_of_mem fun {e f} he _ hef => by
    have := (h.ordered e he).1
    omega

/-- Two to four texts: the runs tile all of them, and the flags say where two of them differ.
`InvalidAlignmentEdits` is not thrown, unless `E` allows it. -/
theorem multiBuild_yields (hE : EngineFailures E limits) (hL : E ⟨"LineLimit"⟩)
    (hB : E ⟨"LongLineLimit"⟩) (hn : 2 ≤ texts.length ∧ texts.length ≤ 4)
    (sortCompares : List Change → Nat) :
    Yields E (MultiMap.build limits lib sortCompares texts) fun map =>
      MultiAligned (texts.map lines) map := by
  refine (Budget.check_yields hE.outside).skip fun _ => ?_
  refine (throwIf_yields fun hc => absurd hc (by omega)).bind fun _ _ => ?_
  refine (countAll_yields hE.outside hL hB texts).skip fun _ => ?_
  refine (Budget.reserve_yields hE.outside).skip fun _ => ?_
  refine (readSides_yields hE hL hB _ 0 texts).bind fun read hread => ?_
  obtain ⟨hsides, hin, hscript⟩ := hread
  refine (checkMany_yields hE.outside _).skip fun _ => ?_
  have hn' : 0 < texts.length ∧ texts.length ≤ 4 := by omega
  have hlen : read.1.length = texts.length := by rw [hsides, length_map]
  have hzero : 0 < read.1.length := by omega
  have hbase : sideLines read.1 0 = lines (texts.headD []) := by
    rw [hsides, sideLines_map]
    cases texts <;> rfl
  have hstart : Swept read.1 (sortChanges read.2)
      ⟨replicate texts.length 0, { lines := read.1.map length }⟩ := by
    have hat : ∀ k < read.1.length, Cells.at (replicate texts.length 0) k = 0 := fun k hk =>
      Cells.at_replicate (hlen ▸ hk)
    have hnone : ∀ {P : MultiRun → Prop}, ∀ r ∈ ([] : List MultiRun), P r := fun _ hr =>
      absurd hr not_mem_nil
    refine ⟨by rw [length_replicate, hlen], rfl, ⟨fun k hk => (hat k hk).symm, rfl, hnone,
      hnone, hnone⟩, fun k hk => ?_⟩
    rw [hat k hk, hat 0 hzero]
    rcases Nat.eq_zero_or_pos k with rfl | hpos
    · -- No change is on the side of the base.
      have hnil : changesOf 0 (sortChanges read.2) = [] := by
        refine eq_nil_iff_forall_not_mem.mpr fun e he => ?_
        obtain ⟨c, hc, h0, -⟩ := mem_changesOf.mp he
        exact (hin c ((mem_insertionSort _).mp hc)).1 h0
      rw [hnil]
      refine ⟨⟨(sideLines read.1 0).length, by omega, by omega, fun i hi => ?_⟩,
        fun _ he => absurd he not_mem_nil⟩
      exact ⟨(sideLines read.1 0)[i], by simp [hi], by simp [hi]⟩
    · obtain ⟨text, htext⟩ : ∃ text, texts[k]? = some text :=
        ⟨texts[k], getElem?_eq_getElem (hlen ▸ hk)⟩
      have hs := hscript k text htext (by omega)
      have hside : sideLines read.1 k = lines text := by
        rw [hsides, sideLines_map, getD_eq_getElem?_getD, htext]
        rfl
      rw [Nat.zero_add] at hs
      rw [hbase, hside, changesOf_sortChanges (sidePairwise_begin hs)]
      exact ⟨hs.covers, hs.editFits⟩
  have hsorted : (sortChanges read.2).length ≤ read.2.length :=
    Nat.le_of_eq (perm_insertionSort _ _).length_eq
  refine (sweepFrom_yields hE.outside hn' hsides hsorted (sweepOrder_sortChanges _)
    (fun c hc => ?_) hstart).bind fun s hs => ?_
  · have := hin c ((mem_insertionSort _).mp hc)
    omega
  have hrest : s.map.lines.at 0 = (sideLines read.1 0).length := by
    rw [hs.lines, at_lines _ hzero]
  have hle := (hs.lanes 0 hzero).inside
  rw [hrest, ← hlen]
  refine (hs.gap_yields hE.outside hn' hsides hle.1 (Nat.le_refl _)
    fun _ hc => absurd hc not_mem_nil).bind fun s' hs' => ?_
  obtain ⟨hswept, -, hcursor⟩ := hs'
  have hend : s'.cursor = s'.map.lines := by
    refine Cells.ext_at ?_ fun k hk => ?_
    · rw [hswept.cells, hswept.lines, length_map]
    · rw [hswept.cells] at hk
      have hlane := Same.le (hs.lanes k hk).covers
      rw [hcursor k hk, hswept.lines, at_lines _ hk]
      omega
  refine (throwIf_yields fun hne => absurd hend hne).bind fun _ _ => ?_
  refine (Budget.check_yields hE.outside).skip fun _ => .pure ?_
  rw [hsides] at hswept
  exact ⟨hswept.lines, hend ▸ hswept.tiled⟩

end Build

end Hc.Compare
