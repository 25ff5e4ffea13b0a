import HyperCommander.Compare.Alignment
import HyperCommander.Compare.DiffCorrect

/-!
# Similar lines (`AlignmentMap::WithSimilarLines`)

Changed runs are split at pairs of lines that resemble each other more than they resemble any other
line. The pass has a bound on its work, and if its time is up it gives the map back as it was.

* `chain_increasing`: the chosen pairs go up on both sides.
* `withSimilarLines_yields`: the refined map is aligned.
* `alignment_consistent`, `unchanged_outside`: from `Diff` to the refined map.
-/

namespace Hc.Compare

open List Slice Tiling

/-! ## Resemblance -/

def isSpace (c : UInt8) : Bool := c == 32 || c == 9 || c == cr || c == lf

/-- The `trim` lambda. -/
def trimLine (text : Line) : Line :=
  ((text.dropWhile isSpace).reverse.dropWhile isSpace).reverse

/-- The length of the common beginning. -/
def commonPrefix : Bytes → Bytes → Nat
  | x :: a, y :: b => if x = y then commonPrefix a b + 1 else 0
  | _, _ => 0

/-- The score of two trimmed lines, out of 1000. -/
def similarity (a b : Line) : Nat :=
  let start := commonPrefix a b
  let common := start + commonPrefix (a.drop start).reverse (b.drop start).reverse
  if common ≥ 4 then 2000 * common / (a.length + b.length) else 0

/-- The best and the second best score of a line, and where the best one was. -/
structure Best where
  first : Nat := 0
  second : Nat := 0
  choice : Nat := 0

/-- The `best` lambda. -/
def Best.add (best : Best) (score place : Nat) : Best :=
  if score > best.first then ⟨score, best.first, place⟩
  else { best with second := max best.second score }

def bestOf (scores : List Nat) : Best :=
  scores.zipIdx.foldl (fun best p => best.add p.1 p.2) {}

/-- The pairs of lines that are each other's best match by far. -/
def candidates (a b : List Line) : List (Nat × Nat) :=
  let rows := a.map fun x => bestOf (b.map fun y => similarity x y)
  let cols := b.map fun y => bestOf (a.map fun x => similarity x y)
  (List.range a.length).filterMap fun i =>
    let row := rows.getD i {}
    let col := cols.getD row.choice {}
    if row.first ≥ 700 ∧ row.first ≥ row.second + 80 ∧ col.choice = i ∧
      col.first ≥ col.second + 80 then some (i, row.choice) else none

/-! ## The longest chain -/

/-- The loop over the pairs `c` from index `i` on. `tails` are the ends of the best chains of each
length; their pairs go up, so that `std::lower_bound` finds the first one that does not lie
below. -/
def chainTails (c : List (Nat × Nat)) : (count i : Nat) → (tails : List Nat) →
    (previous : List (Option Nat)) → List Nat × List (Option Nat)
  | 0, _, tails, previous => (tails, previous)
  | count + 1, i, tails, previous =>
    let value := (c.getD i (0, 0)).2
    let position := tails.findIdx fun k => !decide ((c.getD k (0, 0)).2 < value)
    let before := if position = 0 then none else tails[position - 1]?
    chainTails c count (i + 1)
      (if position = tails.length then tails ++ [i] else tails.set position i)
        (previous ++ [before])

/-- The loop that follows `previous`; the indices go down. -/
def followChain (c : List (Nat × Nat)) (previous : List (Option Nat)) :
    (fuel : Nat) → Option Nat → List (Nat × Nat)
  | fuel + 1, some i => c.getD i (0, 0) :: followChain c previous fuel (previous.getD i none)
  | _, _ => []

/-- The longest chain of pairs that go up on both sides. -/
def longestChain (c : List (Nat × Nat)) : List (Nat × Nat) :=
  let built := chainTails c c.length 0 [] []
  (followChain c built.2 c.length built.1.getLast?).reverse

/-! ## The pass -/

/-- The result under way. -/
structure Refinement where
  runs : List AlignmentRun := []
  rows : Nat := 0
  similar : Bool
  work : Nat := 0

/-- The `append` lambda. -/
def Refinement.append (s : Refinement) (a endA b endB : Nat) (changed : Bool) : Refinement :=
  let height := max (endA - a) (endB - b)
  if height = 0 then s
  else { s with
    runs := s.runs ++ [⟨(a, b), (endA, endB), changed, s.rows, s.rows + height⟩]
    rows := s.rows + height }

/-- The loop over the anchors of a run, from the lines `a` and `b` on. -/
def Refinement.split (run : AlignmentRun) : (a b : Nat) → List (Nat × Nat) → Refinement → Refinement
  | a, b, [], s => s.append a run.end_.1 b run.end_.2 true
  | a, b, (i, j) :: anchors, s =>
    let endA := run.begin_.1 + i
    let endB := run.begin_.2 + j
    let s := s.append a endA b endB true
    let s := s.append endA (endA + 1) endB (endB + 1) true
    split run (endA + 1) (endB + 1) anchors s

/-- A run that keeps the work done so far when it fails. -/
abbrev Charged := StateT Work (Except (Failure × Nat))

def charge {α : Type} (work : Nat) (m : Run α) : Charged α := fun w =>
  match m.run w with
  | .ok r => .ok r
  | .error e => .error (e, work)

/-- `count` looks at the outside, one for each turn of a loop. -/
def checkMany (limits : Budget) : (count : Nat) → Run Unit
  | 0 => pure ()
  | count + 1 => do
    limits.check
    checkMany limits count

/-- The pairs of a run, and the work done after it. -/
def runCandidates (limits : Budget) (left right : List Line) (maximum work : Nat)
    (run : AlignmentRun) : Charged (List (Nat × Nat) × Nat) := do
  let n := run.end_.1 - run.begin_.1
  let m := run.end_.2 - run.begin_.2
  if run.changed = true ∧ n ≠ 0 ∧ m ≠ 0 ∧ n ≤ 128 ∧ m ≤ 128 ∧ work < maximum then
    let a := (slice left run.begin_.1 run.end_.1).map trimLine
    let b := (slice right run.begin_.2 run.end_.2).map trimLine
    let cost := (a.map List.length).sum * m + (b.map List.length).sum * n + n * m
    if (∀ x ∈ a ++ b, x.length ≤ 2048) ∧ cost ≤ maximum - work then
      charge (work + cost) (checkMany limits n)
      pure (candidates a b, work + cost)
    else pure ([], work)
  else pure ([], work)

/-- The body of the loop over the runs. -/
def refineRun (limits : Budget) (left right : List Line) (maximum : Nat) (s : Refinement)
    (run : AlignmentRun) : Charged Refinement := do
  charge s.work limits.check
  let found ← runCandidates limits left right maximum s.work run
  let anchors := longestChain found.1
  if anchors.all fun p => p.1 = p.2 then
    pure ({ s with work := found.2 }.append run.begin_.1 run.end_.1 run.begin_.2 run.end_.2
      run.changed)
  else
    pure ({ s with work := found.2, similar := true }.split run run.begin_.1 run.begin_.2 anchors)

def refineRuns (limits : Budget) (left right : List Line) (maximum : Nat) :
    Refinement → List AlignmentRun → Charged Refinement
  | s, [] => pure s
  | s, run :: runs => do
    let s ← refineRun limits left right maximum s run
    refineRuns limits left right maximum s runs

/-- The `try` block. -/
def AlignmentMap.refine (limits : Budget) (map : AlignmentMap) (left right : Bytes) :
    Charged AlignmentMap := do
  let leftLines ← charge 0 (splitLines limits left)
  let rightLines ← charge 0 (splitLines limits right)
  charge 0 (throwIf (leftLines.length ≠ map.lines.1 ∨ rightLines.length ≠ map.lines.2)
    "InvalidAlignmentInput")
  let s ← refineRuns limits leftLines rightLines (min 4000000 limits.steps)
    { similar := map.similar }
    map.runs
  charge s.work limits.check
  pure { map with runs := s.runs, rows := s.rows, similar := s.similar, similarityWork := s.work }

/-- `WithSimilarLines`. Once the time is up it stays so; the looks of the pass that was given up are
not counted. -/
def AlignmentMap.withSimilarLines (limits : Budget) (map : AlignmentMap) (left right : Bytes) :
    Run AlignmentMap := fun w =>
  match (map.refine limits left right).run w with
  | .ok r => .ok r
  | .error (e, work) =>
    if e.code = "Timeout" then .ok ({ map with similarityWork := work }, w) else .error e

/-! ## The pairs go up -/

/-- One pair lies in front of another on both sides. -/
def Up (p q : Nat × Nat) : Prop := p.1 < q.1 ∧ p.2 < q.2

section Chain

variable {c : List (Nat × Nat)} {previous : List (Option Nat)}

theorem bestOf_choice {scores : List Nat} (h : scores ≠ []) :
    (bestOf scores).choice < scores.length := by
  have hmem : ∀ p ∈ scores.zipIdx, p.2 < scores.length := fun p hp =>
    (snd_lt_of_mem_zipIdx hp).trans_eq (Nat.add_zero _)
  have hstart : ({} : Best).choice < scores.length := length_pos_iff.mpr h
  unfold bestOf
  generalize scores.zipIdx = ps at hmem
  generalize ({} : Best) = best at hstart
  induction ps generalizing best with
  | nil => exact hstart
  | cons p ps ih =>
    refine ih (fun q hq => hmem q (mem_cons_of_mem _ hq)) (best.add p.1 p.2) ?_
    unfold Best.add
    split
    · exact hmem p mem_cons_self
    · exact hstart

/-- A candidate is a line of each side. -/
theorem mem_candidates {a b : List Line} {p : Nat × Nat} (h : p ∈ candidates a b) :
    p.1 < a.length ∧ p.2 < b.length := by
  obtain ⟨i, hi, hp⟩ := mem_filterMap.mp h
  have hi := mem_range.mp hi
  dsimp only at hp
  split at hp
  · rename_i hc
    cases hp
    refine ⟨hi, ?_⟩
    have hrow : (a.map fun x => bestOf (b.map fun y => similarity x y)).getD i {} =
        bestOf (b.map fun y => similarity a[i] y) := by
      rw [getD_eq_getElem?_getD, getElem?_map, getElem?_eq_getElem hi]
      rfl
    rw [hrow] at hc ⊢
    have hne : (b.map fun y => similarity a[i] y) ≠ [] := by
      intro hnil
      rw [hnil] at hc
      exact absurd hc.1 (by decide)
    exact (bestOf_choice hne).trans_eq (length_map _)
  · cases hp

theorem pairwise_candidates (a b : List Line) :
    (candidates a b).Pairwise fun p q => p.1 < q.1 := by
  refine List.Pairwise.filterMap _ (fun i j hij p hp q hq => ?_) pairwise_lt_range
  dsimp only at hp hq
  split at hp
  · split at hq
    · cases hp
      cases hq
      exact hij
    · cases hq
  · cases hp

/-- Every link leads back to a pair with a smaller second line. -/
def Links (c : List (Nat × Nat)) (previous : List (Option Nat)) : Prop :=
  ∀ i k, previous.getD i none = some k → k < i ∧ (c.getD k (0, 0)).2 < (c.getD i (0, 0)).2

theorem chainTails_links {count i : Nat} {tails : List Nat} (hl : Links c previous)
    (hlen : previous.length = i) (ht : ∀ k ∈ tails, k < i) :
    Links c (chainTails c count i tails previous).2 ∧
      ∀ k ∈ (chainTails c count i tails previous).1, k < i + count := by
  induction count generalizing i tails previous with
  | zero => exact ⟨hl, ht⟩
  | succ count ih =>
    rw [chainTails, show i + (count + 1) = i + 1 + count by omega]
    refine ih (fun i' k hk => ?_) (by rw [length_append, hlen]; rfl) fun k hk => ?_
    · rw [getD_eq_getElem?_getD] at hk
      rcases Nat.lt_trichotomy i' i with hlt | rfl | hgt
      · rw [getElem?_append_left (by omega), ← getD_eq_getElem?_getD] at hk
        exact hl i' k hk
      · -- The new link: the tail in front of the place found.
        rw [getElem?_append_right (by omega), hlen, Nat.sub_self] at hk
        split at hk
        · cases hk
        · rename_i hpos
          refine ⟨ht k (mem_of_getElem? hk), ?_⟩
          obtain ⟨hj, rfl⟩ := List.getElem?_eq_some_iff.mp hk
          have := not_of_lt_findIdx (Nat.sub_one_lt hpos)
          simpa using this
      · rw [getElem?_eq_none (by rw [length_append, hlen]; simp; omega)] at hk
        cases hk
    · have hk : k ∈ tails ∨ k = i := by
        split at hk
        · simpa using hk
        · exact mem_or_eq_of_mem_set hk
      rcases hk with hk | rfl
      · have := ht k hk
        omega
      · omega

/-- A chain followed from a pair on goes down from it. -/
theorem followChain_down (hc : c.Pairwise fun p q => p.1 < q.1) (hl : Links c previous)
    (fuel i : Nat) (hi : i < c.length) :
    (followChain c previous fuel (some i)).Pairwise (fun q p => Up p q) ∧
      ∀ p ∈ followChain c previous fuel (some i), p ∈ c ∧ (p = c.getD i (0, 0) ∨
        Up p (c.getD i (0, 0))) := by
  induction fuel generalizing i with
  | zero => exact ⟨.nil, fun _ hp => absurd hp not_mem_nil⟩
  | succ fuel ih =>
    rw [followChain]
    have hself : c.getD i (0, 0) ∈ c := by
      rw [getD_eq_getElem _ _ hi]
      exact getElem_mem hi
    rcases hk : previous.getD i none with - | k
    · have hnil : followChain c previous fuel none = [] := by cases fuel <;> rfl
      rw [hnil]
      refine ⟨pairwise_singleton _ _, fun p hp => ?_⟩
      rw [mem_singleton.mp hp]
      exact ⟨hself, .inl rfl⟩
    · obtain ⟨hki, hlt⟩ := hl i k hk
      obtain ⟨h1, h2⟩ := ih k (hki.trans hi)
      have hup : Up (c.getD k (0, 0)) (c.getD i (0, 0)) := by
        refine ⟨?_, hlt⟩
        rw [getD_eq_getElem _ _ (hki.trans hi), getD_eq_getElem _ _ hi]
        exact pairwise_iff_getElem.mp hc k i _ hi hki
      have hbelow : ∀ p ∈ followChain c previous fuel (some k), Up p (c.getD i (0, 0)) := by
        intro p hp
        rcases (h2 p hp).2 with rfl | hp
        · exact hup
        · exact ⟨hp.1.trans hup.1, hp.2.trans hup.2⟩
      refine ⟨pairwise_cons.mpr ⟨hbelow, h1⟩, fun p hp => ?_⟩
      rcases mem_cons.mp hp with rfl | hp
      · exact ⟨hself, .inl rfl⟩
      · exact ⟨(h2 p hp).1, .inr (hbelow p hp)⟩

/-- The chosen pairs are candidates and go up on both sides. -/
theorem chain_increasing (hc : c.Pairwise fun p q => p.1 < q.1) :
    (longestChain c).Pairwise Up ∧ ∀ p ∈ longestChain c, p ∈ c := by
  have hlinks := @chainTails_links c [] c.length 0 [] (fun i k hk => by simp at hk) rfl
    fun k hk => absurd hk not_mem_nil
  unfold longestChain
  dsimp only
  rcases hlast : (chainTails c c.length 0 [] []).1.getLast? with - | i
  · have hnil : followChain c (chainTails c c.length 0 [] []).2 c.length none = [] := by
      cases c.length <;> rfl
    rw [hnil]
    exact ⟨.nil, fun _ hp => absurd hp not_mem_nil⟩
  · have hi := hlinks.2 i (mem_of_getLast? hlast)
    have hdown := followChain_down hc hlinks.1 c.length i (by omega)
    refine ⟨pairwise_reverse.mpr hdown.1, fun p hp => ?_⟩
    exact (hdown.2 p (mem_reverse.mp hp)).1

end Chain

/-! ## The refined runs -/

/-- The runs so far tile the lines in front of `a` and `b` and the rows, with `P` of the lines that
are changed. -/
structure Refined (P : Nat → Nat → Prop) (left right : List Line) (s : Refinement) (a b : Nat) :
    Prop where
  first : SideTiles s.runs 0 0 a
  second : SideTiles s.runs 1 0 b
  rows : Tiles AlignmentRun.rowBegin AlignmentRun.rowEnd 0 s.runs s.rows
  height : ∀ r ∈ s.runs, r.height ≤ r.rowEnd - r.rowBegin
  same : ∀ r ∈ s.runs, r.changed = false →
    slice left r.begin_.1 r.end_.1 = slice right r.begin_.2 r.end_.2
  changed : ChangedLines P s.runs

section Refined

variable {P : Nat → Nat → Prop} {left right : List Line} {s : Refinement} {a b a' b' : Nat}
  {E : Failure → Prop} {limits : Budget} {maximum : Nat} {run : AlignmentRun}

theorem Refined.append (h : Refined P left right s a b) (ha : a ≤ a') (hb : b ≤ b') {changed : Bool}
    (hsame : changed = false → slice left a a' = slice right b b')
    (hchanged : changed = true → AllLines P (a, b) (a', b')) :
    Refined P left right (s.append a a' b b' changed) a' b' := by
  unfold Refinement.append
  dsimp only
  split
  · rw [show a' = a by omega, show b' = b by omega]
    exact h
  · have hmem : ∀ {P : AlignmentRun → Prop}, (∀ r ∈ s.runs, P r) →
        P ⟨(a, b), (a', b'), changed, s.rows, s.rows + max (a' - a) (b' - b)⟩ →
        ∀ r ∈ s.runs ++ [⟨(a, b), (a', b'), changed, s.rows, s.rows + max (a' - a) (b' - b)⟩],
          P r := by
      intro P hall hnew r hr
      rcases mem_append.mp hr with hr | hr
      · exact hall r hr
      · exact mem_singleton.mp hr ▸ hnew
    exact ⟨h.first.append ⟨rfl, ha, rfl⟩, h.second.append ⟨rfl, hb, rfl⟩,
      h.rows.append ⟨rfl, Nat.le_add_right _ _, rfl⟩,
      hmem h.height (Nat.le_of_eq (Nat.add_sub_cancel_left _ _).symm), hmem h.same hsame,
      hmem h.changed hchanged⟩

theorem Refined.split {anchors : List (Nat × Nat)} (h : Refined P left right s a b)
    (hP : AllLines P run.begin_ run.end_) (hab : run.begin_.1 ≤ a ∧ run.begin_.2 ≤ b)
    (hup : anchors.Pairwise Up)
    (hin : ∀ p ∈ anchors, a ≤ run.begin_.1 + p.1 ∧ run.begin_.1 + p.1 < run.end_.1 ∧
      b ≤ run.begin_.2 + p.2 ∧ run.begin_.2 + p.2 < run.end_.2)
    (ha : a ≤ run.end_.1) (hb : b ≤ run.end_.2) :
    Refined P left right (s.split run a b anchors) run.end_.1 run.end_.2 := by
  induction anchors generalizing a b s with
  | nil =>
    exact h.append ha hb (fun hc => by cases hc) fun _ => hP.mono hab ⟨Nat.le_refl _, Nat.le_refl _⟩
  | cons p anchors ih =>
    obtain ⟨i, j⟩ := p
    obtain ⟨h1, h2, h3, h4⟩ := hin _ mem_cons_self
    obtain ⟨hfirst, hup⟩ := pairwise_cons.mp hup
    rw [Refinement.split]
    refine ih ?_ (by omega) hup (fun q hq => ?_) h2 h4
    · have hbefore : Refined P left right (s.append a _ b _ true) (run.begin_.1 + i)
          (run.begin_.2 + j) :=
        h.append h1 h3 (fun hc => by cases hc) fun _ =>
          hP.mono hab ⟨Nat.le_of_lt h2, Nat.le_of_lt h4⟩
      refine hbefore.append (Nat.le_succ _) (Nat.le_succ _) (fun hc => by cases hc) fun _ => ?_
      exact hP.mono ⟨Nat.le_add_right _ _, Nat.le_add_right _ _⟩ ⟨h2, h4⟩
    · obtain ⟨h5, h6⟩ := hfirst q hq
      obtain ⟨-, h7, -, h8⟩ := hin q (mem_cons_of_mem _ hq)
      omega

theorem charge_yields {α : Type} {m : Run α} {Q : α → Prop} (h : Yields E m Q) (work : Nat) :
    Yields (fun e : Failure × Nat => E e.1) (charge work m) Q := by
  refine .of_runs (fun w r w' hrun => ?_) fun w e hrun => ?_
  · unfold charge StateT.run at hrun
    dsimp only at hrun
    split at hrun
    · rename_i r' heq
      cases hrun
      exact h.of_ok heq
    · cases hrun
  · unfold charge StateT.run at hrun
    dsimp only at hrun
    split at hrun
    · cases hrun
    · rename_i e' heq
      cases hrun
      exact h.of_error heq

theorem checkMany_yields (hE : ∀ e, limits.Outside e → E e) (count : Nat) :
    Yields E (checkMany limits count) fun _ => True := by
  induction count with
  | zero => exact .pure trivial
  | succ count ih => exact (Budget.check_yields hE).skip fun _ => ih

/-- The pairs found are lines of the run, in order on the first side. -/
theorem runCandidates_yields (hE : ∀ e, limits.Outside e → E e) (work : Nat)
    (hl : run.end_.1 ≤ left.length) (hr : run.end_.2 ≤ right.length) :
    Yields (fun e : Failure × Nat => E e.1) (runCandidates limits left right maximum work run)
      fun found => found.1.Pairwise (fun p q => p.1 < q.1) ∧ ∀ p ∈ found.1,
        run.changed = true ∧ p.1 < run.end_.1 - run.begin_.1 ∧ p.2 < run.end_.2 - run.begin_.2 := by
  have hnone : ∀ work : Nat, Yields (fun e : Failure × Nat => E e.1)
      (pure ([], work) : Charged (List (Nat × Nat) × Nat)) fun found =>
        found.1.Pairwise (fun p q => p.1 < q.1) ∧ ∀ p ∈ found.1,
          run.changed = true ∧ p.1 < run.end_.1 - run.begin_.1 ∧ p.2 < run.end_.2 - run.begin_.2 :=
    fun _ => .pure ⟨.nil, fun _ hp => absurd hp not_mem_nil⟩
  refine .ite (fun hrun => .ite (fun _ => ?_) fun _ => hnone _) fun _ => hnone _
  refine (charge_yields (checkMany_yields hE _) _).skip fun _ => .pure ?_
  refine ⟨pairwise_candidates _ _, fun p hp => ⟨hrun.1, ?_⟩⟩
  have := mem_candidates hp
  rwa [length_map, length_map, length_slice hl, length_slice hr] at this

theorem refineRun_yields (hE : ∀ e, limits.Outside e → E e)
    (h : Refined P left right s run.begin_.1 run.begin_.2)
    (hleft : run.begin_.1 ≤ run.end_.1 ∧ run.end_.1 ≤ left.length)
    (hright : run.begin_.2 ≤ run.end_.2 ∧ run.end_.2 ≤ right.length)
    (hsame : run.changed = false →
      slice left run.begin_.1 run.end_.1 = slice right run.begin_.2 run.end_.2)
    (hchanged : run.changed = true → AllLines P run.begin_ run.end_) :
    Yields (fun e : Failure × Nat => E e.1) (refineRun limits left right maximum s run) fun s' =>
      Refined P left right s' run.end_.1 run.end_.2 := by
  refine (charge_yields (Budget.check_yields hE) _).skip fun _ => ?_
  refine (runCandidates_yields hE _ hleft.2 hright.2).bind fun found hfound => ?_
  have hstart : ∀ similar work, Refined P left right { s with similar := similar, work := work }
      run.begin_.1 run.begin_.2 :=
    fun _ _ => ⟨h.first, h.second, h.rows, h.height, h.same, h.changed⟩
  refine .ite (fun _ => .pure ?_) fun hanchors => .pure ?_
  · exact (hstart s.similar found.2).append hleft.1 hright.1 hsame hchanged
  · obtain ⟨hup, hmem⟩ := chain_increasing hfound.1
    -- A run that is not changed has no pairs.
    have hrun : run.changed = true := by
      obtain ⟨i, j, hp, -⟩ := by simpa using hanchors
      exact (hfound.2 (i, j) (hmem (i, j) hp)).1
    refine (hstart true found.2).split (hchanged hrun) ⟨Nat.le_refl _, Nat.le_refl _⟩ hup
      (fun p hp => ?_) hleft.1 hright.1
    have := (hfound.2 p (hmem p hp)).2
    omega

/-- The loop goes over runs that tile what is left. -/
theorem refineRuns_yields (hE : ∀ e, limits.Outside e → E e) {runs : List AlignmentRun}
    (h : Refined P left right s a b) (h0 : SideTiles runs 0 a left.length)
    (h1 : SideTiles runs 1 b right.length)
    (hsame : ∀ r ∈ runs, r.changed = false →
      slice left r.begin_.1 r.end_.1 = slice right r.begin_.2 r.end_.2)
    (hchanged : ChangedLines P runs) :
    Yields (fun e : Failure × Nat => E e.1) (refineRuns limits left right maximum s runs) fun s' =>
      Refined P left right s' left.length right.length := by
  induction runs generalizing s a b with
  | nil =>
    cases h0
    cases h1
    exact .pure h
  | cons run runs ih =>
    obtain ⟨rfl, h2, h0⟩ := h0
    obtain ⟨rfl, h3, h1⟩ := h1
    rw [refineRuns]
    refine (refineRun_yields hE h ⟨h2, h0.le⟩ ⟨h3, h1.le⟩
      (hsame run mem_cons_self) (hchanged run mem_cons_self)).bind fun s' hs' => ?_
    exact ih hs' h0 h1 (fun r hr => hsame r (mem_cons_of_mem _ hr)) fun r hr =>
      hchanged r (mem_cons_of_mem _ hr)

end Refined

/-- Why the pass can fail: not for its time. -/
def Untimely (limits : Budget) (e : Failure) : Prop := limits.Outside e ∧ e.code ≠ "Timeout"

/-- The refined map of two texts is aligned like the map, and no other line is changed; that the
time is up never makes it fail. -/
theorem withSimilarLines_yields {limits : Budget} {map : AlignmentMap} {left right : Bytes}
    {P : Nat → Nat → Prop} (h : Aligned (lines left, lines right) map)
    (hchanged : ChangedLines P map.runs)
    (hl : (lines left).length ≤ alignmentLineLimit ∧ left.length ≤ sizeMax)
    (hr : (lines right).length ≤ alignmentLineLimit ∧ right.length ≤ sizeMax) :
    Yields (Untimely limits) (map.withSimilarLines limits left right) fun map' =>
      Aligned (lines left, lines right) map' ∧ map'.lines = map.lines ∧
        ChangedLines P map'.runs := by
  have hrefine : Yields (fun e : Failure × Nat => limits.Outside e.1) (map.refine limits left right)
      fun map' => Aligned (lines left, lines right) map' ∧ map'.lines = map.lines ∧
        ChangedLines P map'.runs := by
    refine (charge_yields (splitLines_yields (fun _ he => he)
      (fun hc => absurd hl.1 (Nat.not_le.mpr hc)) fun hc => absurd hl.2 (Nat.not_le.mpr hc))
      _).bind fun ls hls => ?_
    refine (charge_yields (splitLines_yields (fun _ he => he)
      (fun hc => absurd hr.1 (Nat.not_le.mpr hc)) fun hc => absurd hr.2 (Nat.not_le.mpr hc))
      _).bind fun rs hrs => ?_
    obtain ⟨rfl, -⟩ := hls
    obtain ⟨rfl, -⟩ := hrs
    refine (charge_yields (throwIf_yields fun hc => ?_) _).bind fun _ _ => ?_
    · rw [h.lines] at hc
      rcases hc with hc | hc
      · exact absurd rfl hc
      · exact absurd rfl hc
    have hside := h.sides
    rw [h.lines] at hside
    have hstart : Refined P (lines left) (lines right) { similar := map.similar } 0 0 :=
      ⟨rfl, rfl, rfl, fun _ hr => absurd hr not_mem_nil, fun _ hr => absurd hr not_mem_nil,
        fun _ hr => absurd hr not_mem_nil⟩
    refine (refineRuns_yields (fun _ he => he) hstart (hside 0) (hside 1) h.same hchanged).bind
      fun s hs => ?_
    refine (charge_yields (Budget.check_yields fun _ he => he) _).skip fun _ => .pure ?_
    refine ⟨⟨h.lines, fun side => ?_, hs.rows, hs.height, hs.same⟩, rfl, hs.changed⟩
    rw [h.lines]
    cases side
    · exact hs.first
    · exact hs.second
  refine .of_runs (fun w map' w' hrun => ?_) fun w e hrun => ?_
  · unfold AlignmentMap.withSimilarLines StateT.run at hrun
    dsimp only at hrun
    split at hrun
    · rename_i r heq
      cases hrun
      exact hrefine.of_ok heq
    · rename_i e work heq
      -- The time was up: the map as it was.
      split at hrun
      · cases hrun
        exact ⟨⟨h.lines, h.sides, h.rows, h.height, h.same⟩, rfl, hchanged⟩
      · cases hrun
  · unfold AlignmentMap.withSimilarLines StateT.run at hrun
    dsimp only at hrun
    split at hrun
    · cases hrun
    · rename_i e' work heq
      split at hrun
      · cases hrun
      · rename_i hcode
        cases hrun
        exact ⟨hrefine.of_error heq, hcode⟩

/-! ## From `Diff` to the refined map -/

/-- The runs tile both texts from their first line to the last, and the look-ups fit the lines. -/
def TilesTexts (texts : Sides (List Line)) (map : AlignmentMap) : Prop :=
  (∀ side ≤ 1, SideTiles map.runs side 0 (texts.at side).length) ∧ Consistent texts map

theorem Aligned.tilesTexts {texts : Sides (List Line)} {map : AlignmentMap}
    (h : Aligned texts map) : TilesTexts texts map :=
  ⟨fun side _ => h.lines_at side ▸ h.sides side, h.consistent⟩

section Diff

variable {limits : Budget} {lib : Library} {left right : Bytes} {edits : List Edit} {w w' : Work}

theorem diff_isScript (h : (diff limits lib left right).run w = .ok (edits, w')) :
    IsScript (lines left) (lines right) edits := by
  obtain ⟨⟨hb, -⟩, -⟩ := (diff_yields limits lib left right).of_ok h
  have := hb.isScript
  rwa [reverse_reverse] at this

/-- Texts that differ have passed the limit of `Diff`, which counts the lines of both. -/
theorem diff_lineLimit (h : (diff limits lib left right).run w = .ok (edits, w'))
    (heq : left = right → (lines left).length ≤ alignmentLineLimit) :
    (lines left).length ≤ alignmentLineLimit ∧ (lines right).length ≤ alignmentLineLimit := by
  by_cases hne : left = right
  · exact ⟨heq hne, hne ▸ heq hne⟩
  · have hsum := ((diff_yields limits lib left right).of_ok h).2 hne
    have hlimit : defaultMaxLines = alignmentLineLimit := rfl
    omega

/-- `Build` accepts what `Diff` returns, if equal texts are within the line limit. The map tiles
both texts and its look-ups fit the lines, and so it is after `WithSimilarLines` under any budget,
whose time may be up. `sizeMax` bounds every string of the source. -/
theorem alignment_consistent (h : (diff limits lib left right).run w = .ok (edits, w'))
    (heq : left = right → (lines left).length ≤ alignmentLineLimit)
    (hsize : left.length ≤ sizeMax ∧ right.length ≤ sizeMax) (budget : Budget) :
    Yields budget.Outside
      (AlignmentMap.build budget (lines left).length (lines right).length edits) fun map =>
        TilesTexts (lines left, lines right) map ∧
        ∀ budget' : Budget, Yields (Untimely budget') (map.withSimilarLines budget' left right)
          fun map' => TilesTexts (lines left, lines right) map' := by
  obtain ⟨hl, hr⟩ := diff_lineLimit h heq
  refine (build_yields (diff_isScript h) hl hr).weaken fun map hmap => ⟨hmap.tilesTexts, ?_⟩
  intro budget'
  exact (withSimilarLines_yields hmap (changedLines_true _) ⟨hl, hsize.1⟩ ⟨hr, hsize.2⟩).weaken
      fun _ hmap' =>
    hmap'.1.tilesTexts

/-- In both maps the lines outside the edits lie in runs that are not changed, so each is mapped to
its partner. -/
theorem unchanged_outside (h : (diff limits lib left right).run w = .ok (edits, w'))
    (heq : left = right → (lines left).length ≤ alignmentLineLimit)
    (hsize : left.length ≤ sizeMax ∧ right.length ≤ sizeMax) (budget : Budget) :
    Yields budget.Outside
      (AlignmentMap.build budget (lines left).length (lines right).length edits) fun map =>
        Untouched (lines left, lines right) edits map ∧
        ∀ budget' : Budget, Yields (Untimely budget') (map.withSimilarLines budget' left right)
          fun map' => Untouched (lines left, lines right) edits map' := by
  obtain ⟨hl, hr⟩ := diff_lineLimit h heq
  refine ((build_yields (diff_isScript h) hl hr).and (build_changed _ _)).weaken fun map hmap => ?_
  obtain ⟨haligned, hchanged⟩ := hmap
  refine ⟨haligned.untouched hchanged, fun budget' => ?_⟩
  refine (withSimilarLines_yields haligned hchanged ⟨hl, hsize.1⟩ ⟨hr, hsize.2⟩).weaken
    fun map' hmap' => ?_
  obtain ⟨haligned', -, hchanged'⟩ := hmap'
  exact haligned'.untouched hchanged'

end Diff

theorem alignment_consistent_abc :
    Yields Budget.unlimited.Outside
      (AlignmentMap.build .unlimited 2 2 [⟨0, 1, 0, 0, []⟩, ⟨2, 2, 1, 2, [99, 10]⟩]) fun map =>
        TilesTexts ([[97, 10], [98, 10]], [[98, 10], [99, 10]]) map ∧
        ∀ budget' : Budget, Yields (Untimely budget')
          (map.withSimilarLines budget' [97, 10, 98, 10] [98, 10, 99, 10])
          fun map' => TilesTexts ([[97, 10], [98, 10]], [[98, 10], [99, 10]]) map' :=
  alignment_consistent diff_run_abc (fun heq => absurd heq (by decide)) ⟨by decide, by decide⟩
    .unlimited

/-- `Diff` has an answer for equal texts of any length, but there is no map of more lines than the
limit. -/
theorem build_sizeLimit :
    (diff .unlimited plainLibrary (List.replicate 2000001 lf) (List.replicate 2000001 lf)).run {} =
      .ok ([], ⟨0, 1⟩) ∧
    (AlignmentMap.build .unlimited (lines (List.replicate 2000001 lf)).length
      (lines (List.replicate 2000001 lf)).length []).run {} = .error ⟨"AlignmentSizeLimit"⟩ := by
  constructor
  · rw [diff]
    simp only [if_true]
    rfl
  · rw [lines_replicate_lf, length_replicate]
    rfl

end Hc.Compare
