import HyperCommander.Compare.LinearDiffLemmas
import HyperCommander.Lib.Agree
import HyperCommander.Lib.Settles

/-!
# `LinearDiff` always completes

* `turn`: a turn of the `while (count)` loop, which is the loop of `linearDiffFrom` by
  `linearDiffFrom_cons`.
* `turn_yields`: a range that is cut is at least two edits wide, and both parts take at most half
  of its edits, rounded up.
* `Stacked`: the range with `n` others below it takes at most `2 ^ (127 - n)` edits, so the stack
  never needs more than its 128 places.
* `linear_diff_completes`: neither the partition nor the stack can fail, and without a limit on
  the steps only the outside ends a run early.
-/

namespace Hc.Compare

open List EditGraph Slice Lcs

variable {E : Failure → Prop} {limits : Budget} {left right : List Line}

/-! ## A turn of the loop -/

/-- A turn of the `while (count)` loop on the range `r`, with `count` ranges left on the stack:
the ranges it pushes, the last one first, and the edits. -/
def turn (limits : Budget) (left right : List Line) (count : Nat) (r : Range) (edits : List Edit) :
    Run (List Range × List Edit) := do
  limits.check
  let r ← trimRange limits left right r
  if r.a_ = r.endA ∨ r.b_ = r.endB then
    let edits ← emitRange limits right edits r.a_ r.endA r.b_ r.endB
    pure ([], edits)
  else if r.endA - r.a_ = 1 then
    let at? ← search limits (fun i => lineAt left r.a_ == lineAt right i) (r.endB - r.b_) r.b_
    match at? with
    | none =>
      let edits ← emitRange limits right edits r.a_ r.endA r.b_ r.endB
      pure ([], edits)
    | some i =>
      let edits ← emitRange limits right edits r.a_ r.a_ r.b_ i
      let edits ← emitRange limits right edits r.endA r.endA (i + 1) r.endB
      pure ([], edits)
  else if r.endB - r.b_ = 1 then
    let at? ← search limits (fun i => lineAt left i == lineAt right r.b_) (r.endA - r.a_) r.a_
    match at? with
    | none =>
      let edits ← emitRange limits right edits r.a_ r.endA r.b_ r.endB
      pure ([], edits)
    | some i =>
      let edits ← emitRange limits right edits r.a_ i r.b_ r.b_
      let edits ← emitRange limits right edits (i + 1) r.endA r.endB r.endB
      pure ([], edits)
  else
    let (a, b) ← partition limits left right r
    throwIf ((a = r.a_ ∧ b = r.b_) ∨ (a = r.endA ∧ b = r.endB) ∨ a < r.a_ ∨ a > r.endA ∨
      b < r.b_ ∨ b > r.endB) "DiffPartition"
    throwIf (count + 2 > pendingLimit) "DiffMemoryLimit"
    pure ([⟨r.a_, a, r.b_, b⟩, ⟨a, r.endA, b, r.endB⟩], edits)

theorem linearDiffFrom_cons (fuel : Nat) (r : Range) (pending : List Range) (edits : List Edit) :
    linearDiffFrom limits left right (fuel + 1) (r :: pending) edits = (do
      let out ← turn limits left right pending.length r edits
      linearDiffFrom limits left right fuel (out.1 ++ pending) out.2) := by
  rw [linearDiffFrom, turn]
  simp only [bind_assoc]
  congr 1
  funext _
  congr 1
  funext r
  split
  · simp only [bind_assoc, pure_bind, nil_append]
  split
  · simp only [bind_assoc]
    congr 1
    funext at?
    cases at? <;> simp only [bind_assoc, pure_bind, nil_append]
  split
  · simp only [bind_assoc]
    congr 1
    funext at?
    cases at? <;> simp only [bind_assoc, pure_bind, nil_append]
  · simp only [bind_assoc, pure_bind, cons_append, nil_append]

variable {r r' : Range} {pending stack : List Range} {pre suf : Nat}

/-- A range without common ends that has lines on both sides takes two edits. -/
theorem Trimmed.two_le_distance (h : Trimmed left right r r') (ha : r'.a_ < r'.endA)
    (hb : r'.b_ < r'.endB) : 2 ≤ r'.distance left right := by
  have hl := h.within.length_lefts
  have hr := h.within.length_rights
  have hla : 0 < (r'.lefts left).length := by omega
  have hrb : 0 < (r'.rights right).length := by omega
  refine EditGraph.two_le_distance (ne_nil_of_length_pos hla) (ne_nil_of_length_pos hrb)
    (fun heq => ?_) fun heq => ?_
  · rw [head?_eq_getElem?, head?_eq_getElem?] at heq
    have hm : Matches (r'.lefts left) (r'.rights right) 0 0 :=
      ⟨_, getElem?_eq_getElem hla, heq ▸ getElem?_eq_getElem hla⟩
    exact h.first_ne ha hb ((matches_slice (by omega) (by omega)).mp hm)
  · rw [getLast?_eq_getElem?, getLast?_eq_getElem?, hl, hr] at heq
    have hlast := getElem?_eq_getElem (show r'.endA - r'.a_ - 1 < (r'.lefts left).length by omega)
    have hm : Matches (r'.lefts left) (r'.rights right) (r'.endA - r'.a_ - 1)
        (r'.endB - r'.b_ - 1) := ⟨_, hlast, heq ▸ hlast⟩
    have := (matches_slice (by omega) (by omega)).mp hm
    rw [show r'.a_ + (r'.endA - r'.a_ - 1) = r'.endA - 1 by omega,
      show r'.b_ + (r'.endB - r'.b_ - 1) = r'.endB - 1 by omega] at this
    exact h.last_ne ha hb this

theorem appendLines_ends (hstep : Yields E limits.step fun _ => True) (count i : Nat)
    (out : Bytes) :
    Yields E (appendLines limits right count i out) fun _ => True := by
  induction count generalizing i out with
  | zero => exact .pure trivial
  | succ count ih => exact hstep.skip fun _ => ih (i + 1) _

theorem emitRange_ends (hstep : Yields E limits.step fun _ => True) (edits : List Edit)
    (a endA b endB : Nat) :
    Yields E (emitRange limits right edits a endA b endB) fun _ => True := by
  refine .ite (fun _ => .pure trivial) fun _ => ?_
  refine .skip (.ite (fun _ => .pure trivial) fun _ => ?_) fun _ =>
    .pure trivial
  exact appendLines_ends hstep _ _ _

/-- What a turn pushes for the range `r`: nothing, or its two parts. -/
structure Pushes (left right : List Line) (r : Range) (pushed : List Range) : Prop where
  two : pushed = [] ∨ pushed.length = 2 ∧ 2 ≤ r.distance left right
  within : ∀ p ∈ pushed, p.Within left right
  half : ∀ p ∈ pushed, 2 * p.distance left right ≤ r.distance left right + 1
  weight_lt : pendingWeight pushed < r.weight

theorem Pushes.nothing (r : Range) : Pushes left right r [] where
  two := .inl rfl
  within _ h := (not_mem_nil h).elim
  half _ h := (not_mem_nil h).elim
  weight_lt := Nat.lt_of_lt_of_le Nat.zero_lt_one (Nat.le_max_left _ _)

/-- The two parts of a range that is cut in the middle. -/
theorem Pushes.cut (h : Trimmed left right r r') (ha : 2 ≤ r'.endA - r'.a_)
    (hb : 2 ≤ r'.endB - r'.b_) {a b : Nat} (hp : r'.IsMiddle left right (a, b))
    (hcorner : ¬ ((a = r'.a_ ∧ b = r'.b_) ∨ a = r'.endA ∧ b = r'.endB)) :
    Pushes left right r [⟨r'.a_, a, r'.b_, b⟩, ⟨a, r'.endA, b, r'.endB⟩] := by
  obtain ⟨⟨h1, h2, h3, h4, -⟩, hfront, hback⟩ := hp
  obtain ⟨-, hw2, -, hw4⟩ := h.within
  have hsize := h.size_le
  refine ⟨.inr ⟨rfl, ?_⟩, ?_, ?_, ?_⟩
  · rw [← h.distance_eq]
    exact h.two_le_distance (by omega) (by omega)
  · intro p hp
    rcases mem_pair.mp hp with rfl | rfl
    · exact ⟨h1, by simp only; omega, h3, by simp only; omega⟩
    · exact ⟨h2, hw2, h4, hw4⟩
  · intro p hp
    rw [← h.distance_eq]
    rcases mem_pair.mp hp with rfl | rfl
    · exact hfront
    · exact hback
  · simpa [pendingWeight] using
      (Range.weight_cut h1 h2 h3 h4 hcorner).trans_le (Range.weight_le hsize)

/-- A turn on a range of the stack. It can only be ended from outside: the cut of a range with two
edits is no corner of it. -/
theorem turn_yields (hi : Interrupts E limits) (hr : r.Within left right) {count : Nat}
    (hcount : 2 ≤ r.distance left right → count + 2 ≤ pendingLimit) (edits : List Edit) :
    Yields E (turn limits left right count r edits) fun out => Pushes left right r out.1 := by
  have hemit := @emitRange_ends E limits right hi.step
  refine hi.check.skip fun _ => (trimRange_yields hi.step hr).bind fun r' ht => ?_
  have hdist := ht.distance_eq
  refine .ite (fun _ => ?_) fun hempty => ?_
  · exact (hemit _ _ _ _ _).skip fun _ => .pure (.nothing r)
  refine .ite (fun _ => ?_) fun hone => ?_
  · refine (search_yields hi.step _ _).bind fun at? _ => ?_
    cases at? with
    | none => exact (hemit _ _ _ _ _).skip fun _ => .pure (.nothing r)
    | some i =>
      exact (hemit _ _ _ _ _).skip fun _ => (hemit _ _ _ _ _).skip fun _ => .pure (.nothing r)
  refine .ite (fun _ => ?_) fun hone' => ?_
  · refine (search_yields hi.step _ _).bind fun at? _ => ?_
    cases at? with
    | none => exact (hemit _ _ _ _ _).skip fun _ => .pure (.nothing r)
    | some i =>
      exact (hemit _ _ _ _ _).skip fun _ => (hemit _ _ _ _ _).skip fun _ => .pure (.nothing r)
  obtain ⟨hw1, -, hw3, -⟩ := id ht.within
  have htwo := ht.two_le_distance (by omega) (by omega)
  refine (partition_yields ht.within hi.check hi.step).bind fun p hp => ?_
  obtain ⟨a, b⟩ := p
  obtain ⟨⟨h1, h2, h3, h4, -⟩, hfront, hback⟩ := id hp
  -- At a corner one part would be the whole range.
  have hcorner : ¬ ((a = r'.a_ ∧ b = r'.b_) ∨ a = r'.endA ∧ b = r'.endB) := by
    rintro (⟨rfl, rfl⟩ | ⟨rfl, rfl⟩)
    · have : 2 * r'.distance left right ≤ r'.distance left right + 1 := hback
      omega
    · have : 2 * r'.distance left right ≤ r'.distance left right + 1 := hfront
      omega
  refine (throwIf_yields fun hc => absurd hc (by omega)).bind fun _ _ => ?_
  refine (throwIf_yields fun hc => absurd (hcount (hdist ▸ htwo)) (by omega)).bind fun _ _ => ?_
  exact .pure (.cut ht (by omega) (by omega) hp hcorner)

/-! ## The stack -/

/-- Every range lies inside the texts, and one with `n` others below it takes at most
`2 ^ (127 - n)` edits. -/
def Stacked (left right : List Line) : List Range → Prop
  | [] => True
  | r :: pending => r.Within left right ∧
      r.distance left right ≤ 2 ^ (pendingLimit - 1 - pending.length) ∧ Stacked left right pending

theorem Stacked.room (h : Stacked left right (r :: pending))
    (h2 : 2 ≤ r.distance left right) : pending.length + 2 ≤ pendingLimit := by
  by_contra hlt
  have hle := h.2.1
  rw [show pendingLimit - 1 - pending.length = 0 by omega] at hle
  omega

theorem Stacked.push {pushed : List Range}
    (h : Stacked left right (r :: pending)) (hp : Pushes left right r pushed) :
    Stacked left right (pushed ++ pending) := by
  obtain ⟨-, hdist, hrest⟩ := id h
  rcases hp.two with rfl | ⟨hlen, h2⟩
  · exact hrest
  have hroom := h.room h2
  obtain ⟨p, q, rfl⟩ := length_eq_two.mp hlen
  obtain ⟨n, hn⟩ : ∃ n, pendingLimit - 1 - pending.length = n + 1 :=
    ⟨pendingLimit - 2 - pending.length, by omega⟩
  have hhalf : ∀ s ∈ [p, q], s.distance left right ≤ 2 ^ n := by
    intro s hs
    have := hp.half s hs
    rw [hn, Nat.pow_succ] at hdist
    omega
  refine ⟨hp.within p (by simp), ?_, hp.within q (by simp), ?_, hrest⟩
  · show p.distance left right ≤ 2 ^ (pendingLimit - 1 - (pending.length + 1))
    rw [show pendingLimit - 1 - (pending.length + 1) = n by omega]
    exact hhalf p (by simp)
  · show q.distance left right ≤ 2 ^ (pendingLimit - 1 - pending.length)
    rw [hn]
    exact (hhalf q (by simp)).trans (Nat.pow_le_pow_right (by decide) (Nat.le_succ n))

/-- The one range that the loop starts with. -/
theorem stacked_start (hl : pre + suf ≤ left.length)
    (hr : pre + suf ≤ right.length) (hword : limits.traceBytes < 2 ^ 64)
    (hfit : linearDiffWorkspaceBytes (left.length + right.length - 2 * (pre + suf)) ≤
      limits.traceBytes) :
    Stacked left right [⟨pre, left.length - suf, pre, right.length - suf⟩] := by
  have hw : Range.Within ⟨pre, left.length - suf, pre, right.length - suf⟩ left right :=
    ⟨by simp only; omega, by simp only; omega, by simp only; omega, by simp only; omega⟩
  refine ⟨hw, ?_, trivial⟩
  have hd := hw.distance_add
  have h127 : (2 : Nat) ^ 64 ≤ 2 ^ (pendingLimit - 1 - ([] : List Range).length) :=
    Nat.pow_le_pow_right (by decide) (by decide)
  unfold linearDiffWorkspaceBytes at hfit
  simp only [Range.size] at hd
  omega

theorem linearDiffFrom_ends (hi : Interrupts E limits) (fuel : Nat)
    (edits : List Edit) (h : Stacked left right stack) (hw : pendingWeight stack ≤ fuel) :
    Yields E (linearDiffFrom limits left right fuel stack edits) fun _ => True := by
  induction fuel generalizing stack edits with
  | zero =>
    cases stack with
    | nil => exact .pure trivial
    | cons r pending =>
      exfalso
      simp only [pendingWeight, map_cons, sum_cons, Range.weight] at hw
      omega
  | succ fuel ih =>
    cases stack with
    | nil => exact .pure trivial
    | cons r pending =>
      rw [linearDiffFrom_cons]
      refine (turn_yields hi h.1 h.room edits).bind fun out hp => ih _ (h.push hp) ?_
      have hlt := hp.weight_lt
      simp only [pendingWeight, map_cons, sum_cons] at hw
      simp only [pendingWeight, map_append, sum_append] at hlt ⊢
      omega

/-- The stacks that the loop of `LinearDiff` reaches. -/
inductive Stacks (limits : Budget) (left right : List Line) (pre suf : Nat) : List Range → Prop
  | start : Stacks limits left right pre suf [⟨pre, left.length - suf, pre, right.length - suf⟩]
  | turn {r pending pushed edits edits'} (h : Stacks limits left right pre suf (r :: pending))
    (ht : Returns (turn limits left right pending.length r edits) (pushed, edits')) :
    Stacks limits left right pre suf (pushed ++ pending)

theorem Stacks.stacked (h : Stacks limits left right pre suf stack)
    (hstart : Stacked left right [⟨pre, left.length - suf, pre, right.length - suf⟩]) :
    Stacked left right stack ∧ stack.length ≤ pendingLimit := by
  have hi : Interrupts (fun _ => True) limits := ⟨fun _ _ => trivial, trivial⟩
  induction h with
  | start => exact ⟨hstart, by show 1 ≤ 128; omega⟩
  | turn h ht ih =>
    obtain ⟨hs, hlen⟩ := ih
    have hp := (turn_yields hi hs.1 hs.room _).of_returns ht
    refine ⟨hs.push hp, ?_⟩
    rw [length_append]
    rw [length_cons] at hlen
    rcases hp.two with hnil | ⟨htwo, h2⟩
    · simp only at hnil
      rw [hnil, length_nil]
      omega
    · simp only at htwo
      have := hs.room h2
      omega

/-! ## Without a limit on the steps -/

section Settles

variable (limits)

/-- The budget with another limit on the steps. -/
def Budget.withSteps (steps : Nat) : Budget := { limits with steps := steps }

/-- A failure that is not due to the limit on the steps. -/
def Budget.Unstepped (e : Failure) : Prop := limits.Outside e ∨ e ≠ ⟨"DiffWorkLimit"⟩

theorem check_settles : Settles limits.Unstepped fun k => (limits.withSteps k).check :=
  Settles.const (Budget.check_yields fun _ => .inl)

theorem step_settles : Settles limits.Unstepped fun k => (limits.withSteps k).step := by
  refine Settles.bind (m := fun _ => tick) (.const tick_yields) fun n => Settles.bind ?_ fun _ => ?_
  · intro s
    refine ⟨n, .ok ((), s), fun k hk => ?_, fun e he => by cases he⟩
    show (if n > k then throw ⟨"DiffWorkLimit"⟩ else pure () : Run Unit).run s = _
    rw [if_neg (Nat.not_lt.mpr hk)]
    rfl
  · exact Settles.ite (fun _ => check_settles limits) fun _ => Settles.pure

theorem countWhile_settles (cond : Nat → Bool) (fuel i : Nat) :
    Settles limits.Unstepped fun k => countWhile (limits.withSteps k) cond fuel i := by
  induction fuel generalizing i with
  | zero => exact Settles.pure
  | succ fuel ih =>
    exact Settles.ite (fun _ => (step_settles limits).bind fun _ => ih (i + 1))
      fun _ => Settles.pure

theorem diagonal_settles (n m : Nat) (same : Nat → Nat → Bool) (d : Nat) (k low high : Int) :
    Settles limits.Unstepped fun s => diagonal (limits.withSteps s) n m same d k low high := by
  refine (step_settles limits).bind fun _ => Settles.ite (fun _ => Settles.pure) fun _ => ?_
  exact (countWhile_settles limits _ _ _).bind fun _ => Settles.pure

theorem phase_settles (n m : Nat) (same : Nat → Nat → Bool) (offset : Int) (d : Nat)
    (hit : Int → Int → Option (Nat × Nat)) (fuel : Nat) (k : Int) (f : Frontier) :
    Settles limits.Unstepped fun s =>
      phase (limits.withSteps s) n m same offset d hit fuel k f := by
  induction fuel generalizing k f with
  | zero => exact Settles.pure
  | succ fuel ih =>
    refine (diagonal_settles limits _ _ _ _ _ _ _).bind fun x => ?_
    cases (if 0 ≤ x then hit k x else none) with
    | none => exact ih _ _
    | some point => exact Settles.pure

theorem partitionFrom_settles (r : Range) (offset : Int) (fuel d : Nat)
    (forward reverse : Frontier) : Settles limits.Unstepped fun s =>
      partitionFrom (limits.withSteps s) left right r offset fuel d forward reverse := by
  induction fuel generalizing d forward reverse with
  | zero => exact Settles.fail (.inr (by decide))
  | succ fuel ih =>
    refine (check_settles limits).bind fun _ => ?_
    refine (phase_settles limits _ _ _ _ _ _ _ _ _).bind fun out => ?_
    obtain ⟨forward, met⟩ := out
    cases met with
    | some point => exact Settles.pure
    | none =>
      refine (phase_settles limits _ _ _ _ _ _ _ _ _).bind fun out => ?_
      obtain ⟨reverse, met⟩ := out
      cases met with
      | some point => exact Settles.pure
      | none => exact ih _ _ _

theorem appendLines_settles (count i : Nat) (out : Bytes) :
    Settles limits.Unstepped fun s => appendLines (limits.withSteps s) right count i out := by
  induction count generalizing i out with
  | zero => exact Settles.pure
  | succ count ih => exact (step_settles limits).bind fun _ => ih _ _

theorem emitRange_settles (edits : List Edit) (a endA b endB : Nat) :
    Settles limits.Unstepped fun s => emitRange (limits.withSteps s) right edits a endA b endB := by
  have hbytes : ∀ old : Bytes, Settles limits.Unstepped fun s => if limits.rangesOnly then pure old
      else appendLines (limits.withSteps s) right (endB - b) b old :=
    fun old => Settles.ite (fun _ => Settles.pure) fun _ => appendLines_settles limits _ _ _
  exact Settles.ite (fun _ => Settles.pure) fun _ => (hbytes _).bind fun _ => Settles.pure

theorem search_settles (found : Nat → Bool) (fuel i : Nat) :
    Settles limits.Unstepped fun s => search (limits.withSteps s) found fuel i := by
  induction fuel generalizing i with
  | zero => exact Settles.pure
  | succ fuel ih =>
    exact (step_settles limits).bind fun _ => Settles.ite (fun _ => Settles.pure) fun _ => ih _

theorem trimRange_settles (r : Range) :
    Settles limits.Unstepped fun s => trimRange (limits.withSteps s) left right r :=
  (countWhile_settles limits _ _ _).bind fun _ => (countWhile_settles limits _ _ _).bind fun _ =>
    Settles.pure

theorem throwIf_settles {c : Prop} [Decidable c] {code : String} (h : code ≠ "DiffWorkLimit") :
    Settles limits.Unstepped fun _ => throwIf c code :=
  Settles.const (throwIf_yields fun _ => .inr fun he => h (Failure.mk.inj he))

theorem turn_settles (count : Nat) (r : Range) (edits : List Edit) :
    Settles limits.Unstepped fun s => turn (limits.withSteps s) left right count r edits := by
  have hemit : ∀ (es : List Edit) a endA b endB, Settles limits.Unstepped fun s => (do
      let es ← emitRange (limits.withSteps s) right es a endA b endB
      pure ([], es) : Run (List Range × List Edit)) :=
    fun es a endA b endB => (emitRange_settles limits es a endA b endB).bind fun _ => Settles.pure
  refine (check_settles limits).bind fun _ => (trimRange_settles limits r).bind fun r => ?_
  refine Settles.ite (fun _ => hemit _ _ _ _ _) fun _ => ?_
  refine Settles.ite (fun _ => ?_) fun _ => Settles.ite (fun _ => ?_) fun _ => ?_
  · refine (search_settles limits _ _ _).bind fun at? => ?_
    cases at? with
    | none => exact hemit _ _ _ _ _
    | some i => exact (emitRange_settles limits _ _ _ _ _).bind fun _ => hemit _ _ _ _ _
  · refine (search_settles limits _ _ _).bind fun at? => ?_
    cases at? with
    | none => exact hemit _ _ _ _ _
    | some i => exact (emitRange_settles limits _ _ _ _ _).bind fun _ => hemit _ _ _ _ _
  · refine (partitionFrom_settles limits _ _ _ _ _ _).bind fun p => ?_
    refine (throwIf_settles limits (by decide)).bind fun _ => ?_
    exact (throwIf_settles limits (by decide)).bind fun _ => Settles.pure

theorem linearDiffFrom_settles (fuel : Nat) (stack : List Range) (edits : List Edit) :
    Settles limits.Unstepped fun s =>
      linearDiffFrom (limits.withSteps s) left right fuel stack edits := by
  induction fuel generalizing stack edits with
  | zero =>
    cases stack with
    | nil => exact Settles.pure
    | cons r pending => exact Settles.fail (.inr (by decide))
  | succ fuel ih =>
    cases stack with
    | nil => exact Settles.pure
    | cons r pending =>
      simp only [linearDiffFrom_cons]
      exact (turn_settles limits _ _ _).bind fun out => ih _ _

theorem linearDiff_settles (pre suf : Nat) :
    Settles limits.Unstepped fun s => linearDiff (limits.withSteps s) left right pre suf := by
  refine (check_settles limits).bind fun _ => (throwIf_settles limits (by decide)).bind fun _ => ?_
  refine (@throwIf_settles limits (_ > limits.traceBytes) _ "DiffMemoryLimit" (by decide)).bind
    fun _ => ?_
  exact (linearDiffFrom_settles limits _ _ _).bind fun _ => (check_settles limits).bind fun _ =>
    Settles.pure

end Settles

/-! ## The whole run -/

theorem linearDiff_ends (hi : Interrupts E limits) {pre suf : Nat} (hl : pre + suf ≤ left.length)
    (hr : pre + suf ≤ right.length) (hword : limits.traceBytes < 2 ^ 64)
    (hfit : linearDiffWorkspaceBytes (left.length + right.length - 2 * (pre + suf)) ≤
      limits.traceBytes) :
    Yields E (linearDiff limits left right pre suf) fun _ => True := by
  refine hi.check.skip fun _ => (throwIf_yields fun hc => absurd hc (by omega)).bind fun _ _ => ?_
  refine (throwIf_yields fun hc => absurd hc (by omega)).bind fun _ _ => ?_
  refine .skip (linearDiffFrom_ends hi _ _ (stacked_start hl hr hword hfit) ?_) fun _ =>
    hi.check.skip fun _ => .pure trivial
  simp only [pendingWeight, map_cons, map_nil, sum_cons, sum_nil, Range.weight,
    Range.size]
  omega

/-- For line sequences whose workspace fits the memory limit, a number of 64 bits: `LinearDiff`
fails only from outside or at the limit on the steps; if that limit is high enough, only from
outside. Its stack keeps within its places, and what it pushes is smaller in edit distance than
the range it comes from. -/
theorem linear_diff_completes {pre suf : Nat} (hl : pre + suf ≤ left.length)
    (hr : pre + suf ≤ right.length) (hword : limits.traceBytes < 2 ^ 64)
    (hfit : linearDiffWorkspaceBytes (left.length + right.length - 2 * (pre + suf)) ≤
      limits.traceBytes) :
    Yields (fun e => limits.Outside e ∨ e = ⟨"DiffWorkLimit"⟩)
        (linearDiff limits left right pre suf) (fun _ => True) ∧
      Settles limits.Outside (fun steps => linearDiff (limits.withSteps steps) left right pre suf) ∧
      ∀ stack, Stacks limits left right pre suf stack → stack.length ≤ pendingLimit ∧
        ∀ r pending edits pushed edits', stack = r :: pending →
          Returns (turn limits left right pending.length r edits) (pushed, edits') →
            ∀ p ∈ pushed, p.distance left right < r.distance left right := by
  have hi : ∀ limits : Budget,
      Interrupts (fun e => limits.Outside e ∨ e = ⟨"DiffWorkLimit"⟩) limits :=
    fun _ => ⟨fun _ => .inl, .inr rfl⟩
  refine ⟨linearDiff_ends (hi limits) hl hr hword hfit, fun w => ?_, fun stack hs => ?_⟩
  · obtain ⟨n, r, hrun, hfail⟩ := linearDiff_settles limits pre suf w
    refine ⟨n, r, hrun, fun e he => ?_⟩
    have hends := linearDiff_ends (hi (limits.withSteps n)) hl hr hword hfit
    rcases hends.of_error ((hrun n le_rfl).trans he) with h | h
    · exact h
    · exact (hfail e he).resolve_right fun hne => hne h
  · obtain ⟨hstacked, hlen⟩ := hs.stacked (stacked_start hl hr hword hfit)
    refine ⟨hlen, ?_⟩
    rintro r pending edits pushed edits' rfl ht p hp
    have hany : Interrupts (fun _ => True) limits := ⟨fun _ _ => trivial, trivial⟩
    have hpush := (turn_yields hany hstacked.1 hstacked.room edits).of_returns ht
    have hhalf := hpush.half p hp
    rcases hpush.two with hnil | ⟨-, h2⟩
    · exact absurd hp (by rw [show pushed = [] from hnil]; exact not_mem_nil)
    · omega

/-- Two texts without a common end. -/
theorem linear_diff_completes_abc :
    ∃ n, ∀ k, n ≤ k → ∃ out, (linearDiff (Budget.unlimited.withSteps k)
      [[97], [98], [99], [97]] [[98], [97], [98], [99]] 0 0).run {} = .ok out := by
  have h :=
    @linear_diff_completes Budget.unlimited [[97], [98], [99], [97]] [[98], [97], [98], [99]]
    0 0 (by decide) (by decide) (by decide) (by decide)
  obtain ⟨n, r, hr, he⟩ := h.2.1 {}
  refine ⟨n, fun k hk => ?_⟩
  rw [hr k hk]
  cases r with
  | ok out => exact ⟨out, rfl⟩
  | error e =>
    obtain ⟨-, t, ht⟩ := Budget.unattended_outside (he e rfl)
    cases ht

end Hc.Compare
