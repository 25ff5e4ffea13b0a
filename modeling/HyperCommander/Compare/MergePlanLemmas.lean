import HyperCommander.Compare.MergeLemmas
import HyperCommander.Compare.MergePlan

/-!
# What `ThreeWayPlan` cuts out

* `threeWayPlan_yields`: on regions that cut the texts in step, every lookup is in range, and the
  pieces cut out put the inputs together again.
* `merge_plan_reconstructs`: this for the result of a merge of the same inputs.
-/

namespace Hc.Compare

open List Slice

variable {E : Failure → Prop}

/-! ## Offsets -/

theorem length_offsetsFrom (offset : Nat) (ls : List Line) :
    (offsetsFrom offset ls).length = ls.length + 1 := by
  induction ls generalizing offset with
  | nil => rfl
  | cons x xs ih => simp [offsetsFrom, ih]

variable {ls : List Line} {i a d p c : Nat} {text : Bytes}

theorem getD_offsetsFrom (offset : Nat) (h : i ≤ ls.length) :
    (offsetsFrom offset ls).getD i 0 = offset + (append ls 0 i).length := by
  induction ls generalizing offset i with
  | nil =>
    obtain rfl : i = 0 := by simpa using h
    simp [offsetsFrom, append]
  | cons x xs ih =>
    cases i with
    | zero => simp [offsetsFrom, append]
    | succ i =>
      rw [offsetsFrom, getD_cons_succ, ih _ (by simpa using h)]
      simp only [append, slice_zero, take_succ_cons, flatten_cons, length_append]
      omega

theorem at_yields (h : i ≤ ls.length) :
    Yields E (at_ (offsetsFrom 0 ls) i) fun v => v = (append ls 0 i).length := by
  refine (throwIf_yields fun hout => ?_).bind fun _ _ => .pure ?_
  · rw [length_offsetsFrom] at hout
    omega
  · rw [getD_offsetsFrom 0 h, Nat.zero_add]

/-- Splitting an input under the default budget within its line limit. -/
theorem splitLines_within (expired : Nat → Bool)
    (hl : (lines text).length ≤ defaultMaxLines) (hb : text.length ≤ sizeMax) :
    Yields (fun e => e = ⟨"Timeout"⟩ ∧ ∃ t, expired t)
      (splitLines (Budget.unattended expired) text) fun ls => ls = lines text :=
  (splitLines_yields (fun e => Budget.unattended_outside) (fun h => absurd hl (by omega))
    fun h => absurd hb (by omega)).weaken fun _ h => h.1

theorem offsets_yields {expired : Nat → Bool}
    (h : Yields E (splitLines (Budget.unattended expired) text) fun ls => ls = lines text) :
    Yields E (offsets expired text) fun out => out = offsetsFrom 0 (lines text) :=
  h.bind fun ls hls => .pure (by rw [hls])

theorem length_append_le (ls : List Line) (had : a ≤ d) :
    (append ls 0 a).length ≤ (append ls 0 d).length := by
  unfold append
  rw [← slice_append (Nat.zero_le a) had, flatten_append, length_append]
  omega

theorem length_add_append (had : a ≤ d) :
    (append ls 0 a).length + (append ls a d).length = (append ls 0 d).length := by
  unfold append
  rw [← slice_append (Nat.zero_le a) had, flatten_append, length_append]

theorem length_append_le_flatten (ls : List Line) (ha : a ≤ ls.length) :
    (append ls 0 a).length ≤ ls.flatten.length := by
  have := length_append_le ls ha
  rwa [append, append, slice_full] at this

theorem substr_yields {position count : Nat} (h : position ≤ text.length) :
    Yields E (substr text position count) fun out => out = (text.drop position).take count :=
  (throwIf_yields fun hout => absurd h (by omega)).bind fun _ _ => .pure rfl

/-! ## Reconstruction -/

/-- The text from position `p` on, with the result range of every region replaced. -/
def replaceRegions (text : Bytes) : (p : Nat) → List (MergeRegion × Bytes) → Bytes
  | p, [] => text.drop p
  | p, (g, bytes) :: rest =>
    slice text p g.resultBegin ++ bytes ++ replaceRegions text g.resultEnd rest

/-- Replacing every region by its piece gives the side. -/
theorem Splices.replaceRegions_eq {side : List Line} {line bytes : MergeRegion → Nat}
    {gs : List MergeRegion} (h : Splices side line bytes text p c gs) :
    replaceRegions text p (gs.zip (gs.map (pieceOf side line bytes))) =
      append side c side.length := by
  induction gs generalizing p c with
  | nil => exact h
  | cons g gs ih =>
    obtain ⟨-, -, -, hgap, d, h1, h2, h3, hbytes, hrest⟩ := h
    rw [map_cons, zip_cons_cons, replaceRegions, ih hrest, hgap, pieceOf, hbytes,
      cut_lines h2 h3]
    unfold append
    rw [← flatten_append, ← flatten_append, slice_append h1 h2,
      slice_append (h1.trans h2) h3]

/-- The first state of the block of a region. -/
def stateOf (g : MergeRegion) : BlockState :=
  ⟨g.resultBegin, g.resultEnd, choiceOf g.origin, true⟩

/-- What a plan adds for a region. -/
structure BlockOf (base left right : List Line) (g : MergeRegion) (block : MergeBlock) : Prop where
  leftBegin : block.leftBegin = (append left 0 g.leftBegin).length
  rightBegin : block.rightBegin = (append right 0 g.rightBegin).length
  left : block.left = pieceOf left MergeRegion.leftBegin MergeRegion.leftBytes g
  right : block.right = pieceOf right MergeRegion.rightBegin MergeRegion.rightBytes g
  base : block.base = pieceOf base MergeRegion.baseBegin (baseBytes base) g

theorem threeWayBlock_yields {base left right : List Line} {g : MergeRegion} {gs : List MergeRegion}
    {cl cr : Nat} (h : Cuts base left right text p c cl cr (g :: gs)) (plan : MergePlan) :
    Yields E (threeWayBlock base.flatten left.flatten right.flatten (offsetsFrom 0 base)
        (offsetsFrom 0 left) (offsetsFrom 0 right) text plan g) fun out =>
      ∃ block, out = { plan with
          blocks := plan.blocks ++ [block], initial := plan.initial ++ [stateOf g] } ∧
        BlockOf base left right g block := by
  obtain ⟨-, hb2, hb3, -, db, -, hb4, hb5, -, -⟩ := h.ofBase
  obtain ⟨-, -, -, -, dl, -, hl4, hl5, hlb, -⟩ := h.ofLeft
  obtain ⟨-, -, -, -, dr, -, hr4, hr5, hrb, -⟩ := h.ofRight
  obtain ⟨hbe, hbe'⟩ := (h.regions g (by simp)).ends
  have fits : ∀ {side : List Line} {a d : Nat}, a ≤ d → d ≤ side.length →
      (append side 0 a).length + (append side a d).length ≤ side.flatten.length := fun h1 h2 => by
    rw [length_add_append h1]
    exact length_append_le_flatten _ h2
  have hfl := fits hl4 hl5
  have hfr := fits hr4 hr5
  have hfb := fits hbe hbe'
  refine (at_yields (hl4.trans hl5)).bind fun _ h1 => ?_
  refine (at_yields (hr4.trans hr5)).bind fun _ h2 => ?_
  refine (at_yields (hbe.trans hbe')).bind fun _ h3 => ?_
  subst h1 h2 h3
  refine (throwIf_yields fun hbad => by omega).bind fun _ _ => ?_
  refine (substr_yields (by omega)).bind fun _ h4 => (substr_yields (by omega)).bind fun _ h5 => ?_
  refine (at_yields hbe').bind fun _ h6 => ?_
  refine (substr_yields (by omega)).bind fun _ h7 => .pure
    ⟨_, rfl, rfl, rfl, h4, h5, ?_⟩
  rw [h7, h6, pieceOf, baseBytes, ← length_add_append hbe, Nat.add_sub_cancel_left]

theorem threeWayPlan_yields {base left right : Bytes} {merged : MergeResult} {expired : Nat → Bool}
    (h : Cuts (lines base) (lines left) (lines right) merged.text 0 0 0 0 merged.regions)
    (hsplit : ∀ text ∈ [base, left, right],
      Yields E (splitLines (Budget.unattended expired) text) fun ls => ls = lines text) :
    Yields E
      (threeWayPlan expired base left right merged) fun plan =>
        plan.initial = merged.regions.map stateOf ∧
        List.Forall₂ (BlockOf (lines base) (lines left) (lines right)) merged.regions
          plan.blocks := by
  refine (offsets_yields (hsplit base (by simp))).bind fun _ h1 => ?_
  refine (offsets_yields (hsplit left (by simp))).bind fun _ h2 => ?_
  refine (offsets_yields (hsplit right (by simp))).bind fun _ h3 => ?_
  subst h1 h2 h3
  -- The blocks of the regions taken so far stay in front.
  suffices H : ∀ gs p c cl cr plan,
      Cuts (lines base) (lines left) (lines right) merged.text p c cl cr gs →
      Yields E (gs.foldlM (threeWayBlock base left right (offsetsFrom 0 (lines base))
        (offsetsFrom 0 (lines left)) (offsetsFrom 0 (lines right)) merged.text) plan)
        fun out => ∃ blocks, out = { plan with
            blocks := plan.blocks ++ blocks, initial := plan.initial ++ gs.map stateOf } ∧
          List.Forall₂ (BlockOf (lines base) (lines left) (lines right)) gs blocks by
    refine (H _ 0 0 0 0 { hasBase := true } h).weaken ?_
    rintro out ⟨blocks, rfl, hall⟩
    exact ⟨by simp, by simpa using hall⟩
  intro gs
  induction gs with
  | nil => exact fun _ _ _ _ plan _ => .pure ⟨[], by simp, .nil⟩
  | cons g gs ih =>
    intro p c cl cr plan hc
    rw [foldlM_cons]
    have hstep := threeWayBlock_yields (E := E) hc plan
    simp only [lines_flatten] at hstep
    refine hstep.bind fun plan' hp => ?_
    obtain ⟨block, rfl, hblock⟩ := hp
    obtain ⟨-, -, -, -, db, -, -, -, -, hb⟩ := hc.ofBase
    obtain ⟨-, -, -, -, dl, -, -, -, -, hl⟩ := hc.ofLeft
    obtain ⟨-, -, -, -, dr, -, -, -, -, hr⟩ := hc.ofRight
    refine (ih _ _ _ _ _ ⟨hb, hl, hr, fun g hg => hc.regions g (by simp [hg]),
      (hc.regions g (by simp)).starts.2⟩).weaken ?_
    rintro out ⟨blocks, rfl, hall⟩
    exact ⟨block :: blocks, by simp, .cons hblock hall⟩

theorem map_eq_of_forall₂ {α β γ : Type} {R : α → β → Prop} {f : α → γ} {g : β → γ}
    {xs : List α} {ys : List β} (h : List.Forall₂ R xs ys) (hfg : ∀ a b, R a b → g b = f a) :
    ys.map g = xs.map f := by
  induction h with
  | nil => rfl
  | cons hab _ ih => simp [hfg _ _ hab, ih]

/-- From what `Merge` returns, `ThreeWayPlan` on the same inputs can only run out of its own time,
and replacing the regions by the left, right or base pieces gives the left, right or base text.
`sizeMax` bounds every string of the source. -/
theorem merge_plan_reconstructs {limits : Budget} {lib : Library} {base left right : Bytes}
    {merged : MergeResult} {w w' : Work}
    (h : (merge limits lib base left right).run w = .ok (merged, w'))
    (hs : base.length ≤ sizeMax ∧ left.length ≤ sizeMax ∧ right.length ≤ sizeMax)
    (expired : Nat → Bool) :
    Yields (fun e => e = ⟨"Timeout"⟩ ∧ ∃ t, expired t)
      (threeWayPlan expired base left right merged) fun plan =>
        plan.blocks.length = merged.regions.length ∧
        replaceRegions merged.text 0 (merged.regions.zip (plan.blocks.map MergeBlock.left)) = left ∧
        replaceRegions merged.text 0
          (merged.regions.zip (plan.blocks.map MergeBlock.right)) = right ∧
        replaceRegions merged.text 0
          (merged.regions.zip (plan.blocks.map MergeBlock.base)) = base := by
  obtain ⟨hcuts, hl⟩ := (merge_yields limits lib base left right).of_ok h
  have hsplit : ∀ text ∈ [base, left, right], Yields (fun e => e = ⟨"Timeout"⟩ ∧ ∃ t, expired t)
      (splitLines (Budget.unattended expired) text) fun ls => ls = lines text := by
    intro text ht
    simp only [mem_cons, not_mem_nil, or_false] at ht
    rcases ht with rfl | rfl | rfl
    · exact splitLines_within expired hl.1 hs.1
    · exact splitLines_within expired hl.2.1 hs.2.1
    · exact splitLines_within expired hl.2.2 hs.2.2
  refine (threeWayPlan_yields hcuts hsplit).weaken fun plan ⟨_, hp⟩ => ?_
  have hall : ∀ text : Bytes, append (lines text) 0 (lines text).length = text := fun text => by
    rw [append, slice_full, lines_flatten]
  refine ⟨hp.length_eq.symm, ?_, ?_, ?_⟩
  · rw [map_eq_of_forall₂ hp fun _ _ hb => hb.left, hcuts.ofLeft.replaceRegions_eq, hall]
  · rw [map_eq_of_forall₂ hp fun _ _ hb => hb.right, hcuts.ofRight.replaceRegions_eq, hall]
  · rw [map_eq_of_forall₂ hp fun _ _ hb => hb.base, hcuts.ofBase.replaceRegions_eq, hall]

theorem merge_run_abutting : (merge .unlimited ⟨fun _ => 0, fun _ _ => 0⟩ [97, 10, 98, 10]
    [97, 10, 120, 10, 98, 10] [97, 10, 99, 10]).run {} = .ok (⟨[97, 10, 120, 10, 99, 10], [],
      [⟨1, 1, 1, 1, 2, 0, 2, 4, .left⟩, ⟨1, 2, 2, 1, 2, 2, 4, 6, .right⟩]⟩, ⟨7, 61⟩) := by
  decide +kernel

/-- The left side inserts in front of the line that the right side replaces. -/
theorem merge_plan_reconstructs_abutting :
    Yields (fun e => e = ⟨"Timeout"⟩ ∧ ∃ _ : Nat, false = true)
      (threeWayPlan (fun _ => false) [97, 10, 98, 10] [97, 10, 120, 10, 98, 10] [97, 10, 99, 10]
        ⟨[97, 10, 120, 10, 99, 10], [],
          [⟨1, 1, 1, 1, 2, 0, 2, 4, .left⟩, ⟨1, 2, 2, 1, 2, 2, 4, 6, .right⟩]⟩) fun plan =>
        plan.blocks.length = 2 ∧
        replaceRegions [97, 10, 120, 10, 99, 10] 0
          ([⟨1, 1, 1, 1, 2, 0, 2, 4, .left⟩, ⟨1, 2, 2, 1, 2, 2, 4, 6, .right⟩].zip
            (plan.blocks.map MergeBlock.left)) = [97, 10, 120, 10, 98, 10] ∧
        replaceRegions [97, 10, 120, 10, 99, 10] 0
          ([⟨1, 1, 1, 1, 2, 0, 2, 4, .left⟩, ⟨1, 2, 2, 1, 2, 2, 4, 6, .right⟩].zip
            (plan.blocks.map MergeBlock.right)) = [97, 10, 99, 10] ∧
        replaceRegions [97, 10, 120, 10, 99, 10] 0
          ([⟨1, 1, 1, 1, 2, 0, 2, 4, .left⟩, ⟨1, 2, 2, 1, 2, 2, 4, 6, .right⟩].zip
            (plan.blocks.map MergeBlock.base)) = [97, 10, 98, 10] := by
  exact merge_plan_reconstructs merge_run_abutting (by decide) fun _ => false

end Hc.Compare
