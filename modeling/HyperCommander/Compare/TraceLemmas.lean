import HyperCommander.Compare.LinearDiffLemmas
import HyperCommander.Compare.Trace

/-!
# What the trace loop finds

* `traceRow_yields`: the entries of a row are furthest points, and the first row that reaches the
  end is the one of the distance.
* `backtrack_yields`: the operations read back form a path through the edit graph (`Path`) with
  as many changes as the distance.
* `joinOps_built`: joined operations are a canonical script under construction.
-/

namespace Hc.Compare

open List EditGraph Slice Lcs

variable {E : Failure → Prop} {limits : Budget} {l r : List Line}

/-! ## Rows -/

/-- Entry `i` of row `d` lies on the snake from its start. -/
def Snaked (l r : List Line) (d : Nat) (previous : List Int) (i : Nat) (x : Int) : Prop :=
  ∃ a b j : Nat, rowStart previous d i = a ∧ (a : Int) - b = -d + 2 * i ∧
    (∀ t < j, Matches l r (a + t) (b + t)) ∧ x = (a + j : Nat)

/-- The entries of a row so far. -/
structure RowOf (l r : List Line) (d : Nat) (previous row : List Int) : Prop where
  furthest : ∀ i < row.length, Furthest l r d (-d + 2 * i) (row.getD i 0)
  snaked : ∀ i < row.length, Snaked l r d previous i (row.getD i 0)

/-- The row before row `d` is complete. -/
def Before (l r : List Line) (d : Nat) (previous : List Int) : Prop :=
  ∀ e, d = e + 1 → previous.length = d ∧
    ∀ i < d, Furthest l r e (-e + 2 * i) (previous.getD i 0)

/-- Where a snake starts, and that its end is the furthest point. -/
theorem rowStart_spec {d i : Nat} {previous : List Int} (hi : i ≤ d) (hp : Before l r d previous) :
    ∃ a b : Nat, rowStart previous d i = a ∧ (a : Int) - b = -d + 2 * i ∧ cost l r a b ≤ d ∧
      ∀ j, (∀ t < j, Matches l r (a + t) (b + t)) → ¬ Matches l r (a + j) (b + j) →
        Furthest l r d (-d + 2 * i) (a + j : Nat) := by
  cases d with
  | zero =>
    obtain rfl : i = 0 := by omega
    refine ⟨0, 0, rfl, rfl, by rw [cost_zero], fun j hj hm => ?_⟩
    have hc := cost_snake hj
    refine ⟨0 + j, 0 + j, rfl, by push_cast; omega, by rw [hc, cost_zero], ?_⟩
    rw [cost_of_not_matches hm]
    omega
  | succ d =>
    obtain ⟨hlen, hrow⟩ := hp d rfl
    -- The chosen start lies past what cost `d` reaches on both neighbouring diagonals.
    suffices H : ∃ a b : Nat, rowStart previous (d + 1) i = a ∧
        (a : Int) - b = -(d + 1 : Nat) + 2 * i ∧ cost l r a b ≤ d + 1 ∧
        (0 < i → previous.getD (i - 1) 0 < a) ∧ (i < d + 1 → previous.getD i 0 < a + 1) by
      obtain ⟨a, b, ha, hk, hc, hlow, hhigh⟩ := H
      refine ⟨a, b, ha, hk, hc, fun j hj hm => ?_⟩
      refine furthest_succ (by push_cast at hk ⊢; omega) (by rw [cost_snake hj]; exact hc) hm
        (fun h => ?_) fun h => ?_
      · have h1 := hrow (i - 1) (by omega)
        refine ⟨previous.getD (i - 1) 0, ?_, by push_cast; omega⟩
        rwa [show -((d + 1 : Nat) : Int) + 2 * i - 1 = -d + 2 * (i - 1 : Nat) by omega]
      · have h1 := hrow i (by omega)
        refine ⟨previous.getD i 0, ?_, by push_cast; omega⟩
        rwa [show -((d + 1 : Nat) : Int) + 2 * i + 1 = -d + 2 * i by omega]
    unfold rowStart
    rw [if_neg (Nat.succ_ne_zero d)]
    by_cases ht : takesInsert previous (d + 1) i
    · rw [if_pos ht]
      simp only [takesInsert, Bool.or_eq_true, beq_iff_eq, Bool.and_eq_true, bne_iff_ne,
        decide_eq_true_eq] at ht
      obtain ⟨a, b, ha, hb, hc, -⟩ := hrow i (by omega)
      refine ⟨a, b + 1, ha, by push_cast; omega, cost_succ_right_le.trans (by omega), ?_, ?_⟩
      · omega
      · omega
    · rw [if_neg ht]
      simp only [takesInsert, Bool.or_eq_true, beq_iff_eq, Bool.and_eq_true, bne_iff_ne,
        decide_eq_true_eq] at ht
      obtain ⟨a, b, ha, hb, hc, -⟩ := hrow (i - 1) (by omega)
      refine ⟨a + 1, b, by push_cast; omega, by push_cast; omega,
        cost_succ_left_le.trans (by omega), ?_, ?_⟩
      · push_cast; omega
      · push_cast; omega

/-- A point beyond the end of both lists within cost `d ≤ distance` is the end. -/
theorem end_of_cost {d a b : Nat} (hd : d ≤ distance l r) (hc : cost l r a b ≤ d)
    (ha : l.length ≤ a) (hb : r.length ≤ b) : a = l.length ∧ b = r.length ∧ d = distance l r := by
  have h1 := cost_add_common (l := l) (r := r) (x := a) (y := b)
  have h2 := distance_add_lcs (l := l) (r := r)
  unfold common at h1
  rw [take_of_length_le ha, take_of_length_le hb] at h1
  omega

theorem RowOf.concat {d : Nat} {previous row : List Int} {x : Int}
    (h : RowOf l r d previous row) (hf : Furthest l r d (-d + 2 * row.length) x)
    (hs : Snaked l r d previous row.length x) : RowOf l r d previous (row ++ [x]) := by
  constructor
  · intro i hi
    rcases Nat.lt_or_ge i row.length with hlt | hge
    · rw [getD_append _ _ _ _ hlt]; exact h.furthest i hlt
    · obtain rfl : i = row.length := by simp at hi; omega
      rw [getD_append_right _ _ _ _ (Nat.le_refl _)]; simpa using hf
  · intro i hi
    rcases Nat.lt_or_ge i row.length with hlt | hge
    · rw [getD_append _ _ _ _ hlt]; exact h.snaked i hlt
    · obtain rfl : i = row.length := by simp at hi; omega
      rw [getD_append_right _ _ _ _ (Nat.le_refl _)]; simpa using hs

/-- What the loop over a row says about the distance. -/
def RowResult (l r : List Line) (d : Nat) (previous : List Int) (out : List Int × Bool) : Prop :=
  (out.2 = false → out.1.length = d + 1 ∧ RowOf l r d previous out.1 ∧ d < distance l r) ∧
  (out.2 = true → d = distance l r ∧ ∃ i : Nat, 2 * (i : Int) = (l.length : Int) - r.length + d ∧
    Snaked l r d previous i l.length)

theorem traceRow_yields (hstep : Yields E limits.step fun _ => True) {left right : List Line}
    {pre n m : Nat} (hn : pre + n ≤ left.length) (hm : pre + m ≤ right.length) {d : Nat}
    {previous : List Int} (hl : l = slice left pre (pre + n)) (hr : r = slice right pre (pre + m))
    (hd : d ≤ distance l r) (hp : Before l r d previous) (fuel : Nat) (row : List Int)
    (hf : row.length + fuel = d + 1) (hrow : RowOf l r d previous row)
    (hout : ∀ i < row.length,
      ¬ ((l.length : Int) ≤ row.getD i 0 ∧ (r.length : Int) ≤ row.getD i 0 - (-d + 2 * i))) :
    Yields E (traceRow limits left right pre n m d previous fuel row.length row)
      (RowResult l r d previous) := by
  have hln : l.length = n := by rw [hl, length_slice (by omega)]; omega
  have hrm : r.length = m := by rw [hr, length_slice (by omega)]; omega
  induction fuel generalizing row with
  | zero =>
    refine .pure ⟨fun _ => ⟨by simpa using hf, hrow, ?_⟩, nofun⟩
    -- The furthest point on the diagonal of the end would have reached it.
    refine Nat.lt_of_le_of_ne hd fun he => ?_
    have hpar := distance_parity (l := l) (r := r)
    have hdiff := diff_le_cost (l := l) (r := r) (x := l.length) (y := r.length)
    rw [cost_length] at hdiff
    obtain ⟨i, hi⟩ : ∃ i : Nat, 2 * (i : Int) = (l.length : Int) - r.length + d :=
      ⟨(((l.length : Int) - r.length + d) / 2).toNat, by omega⟩
    have hle := (hrow.furthest i (by omega)).le_of_cost (a := l.length) (b := r.length) (by omega)
      (by rw [cost_length]; omega)
    exact hout i (by omega) ⟨hle, by omega⟩
  | succ fuel ih =>
    refine hstep.skip fun _ => ?_
    simp only
    obtain ⟨a, b, ha, hk, hc, hend⟩ := rowStart_spec (l := l) (r := r) (i := row.length)
      (by omega) hp
    rw [ha, show (a : Int) - (-d + 2 * row.length) = b by omega]
    refine (countWhile_yields hstep _ _).bind fun j hj => ?_
    obtain ⟨-, hjn, hrun, hstop⟩ := hj
    have hmatch : ∀ t, a + t < n → b + t < m →
        (lineAt left (pre + ((a : Int) + t).toNat) == lineAt right (pre + ((b : Int) + t).toNat)
          ↔ Matches l r (a + t) (b + t)) := by
      intro t h1 h2
      rw [show ((a : Int) + t).toNat = a + t by omega, show ((b : Int) + t).toNat = b + t by omega,
        lineAt_eq_iff (by omega) (by omega), hl, hr, matches_slice (by omega) (by omega)]
    have hsnake : ∀ t < j, Matches l r (a + t) (b + t) := by
      intro t ht
      have := hrun t (Nat.zero_le _) ht
      simp only [Bool.and_eq_true, decide_eq_true_eq] at this
      exact (hmatch t (by omega) (by omega)).mp this.2.2.2.2
    have hlast : ¬ Matches l r (a + j) (b + j) := by
      intro hmj
      have h1 := hmj.lt
      refine hstop (by omega) ?_
      simp only [Bool.and_eq_true, decide_eq_true_eq]
      exact ⟨by omega, by omega, by omega, by omega, (hmatch j (by omega) (by omega)).mpr hmj⟩
    have hfur := hend j hsnake hlast
    have hsn : Snaked l r d previous row.length (a + j : Nat) := ⟨a, b, j, ha, hk, hsnake, rfl⟩
    refine .ite (fun hdone => .pure ⟨nofun, fun _ => ?_⟩) fun hdone => ?_
    · obtain ⟨h1, h2, h3⟩ := end_of_cost hd (a := a + j) (b := b + j)
        (by rw [cost_snake hsnake]; exact hc) (by omega) (by omega)
      refine ⟨h3, row.length, by omega, ?_⟩
      rwa [h1] at hsn
    · have := ih (row ++ [(a : Int) + j]) (by simp; omega) ?_ ?_
      · simpa using this
      · exact hrow.concat (by exact_mod_cast hfur) (by exact_mod_cast hsn)
      · intro i hi
        rcases Nat.lt_or_ge i row.length with hlt | hge
        · rw [getD_append _ _ _ _ hlt]; exact hout i hlt
        · obtain rfl : i = row.length := by simp at hi; omega
          rw [getD_append_right _ _ _ _ (Nat.le_refl _)]
          simp only [Nat.sub_self, getD_cons_zero]
          omega

/-! ## The rows and the way back -/

/-- The rows below row `d`; each knows the one before it. -/
def Traced (l r : List Line) (d : Nat) (trace : List (List Int)) : Prop :=
  ∀ e < d, (trace.getD e []).length = e + 1 ∧
    RowOf l r e (trace.getD (e - 1) []) (trace.getD e [])

theorem Traced.before {d : Nat} {trace : List (List Int)} (h : Traced l r d trace) :
    Before l r d (trace.getD (d - 1) []) := by
  rintro e rfl
  obtain ⟨hlen, hrow⟩ := h e (Nat.lt_succ_self e)
  rw [Nat.add_sub_cancel]
  exact ⟨hlen, fun i hi => hrow.furthest i (by omega)⟩

theorem getLastD_eq_getD {α : Type} (xs : List α) (a : α) :
    xs.getLastD a = xs.getD (xs.length - 1) a := by
  rw [getLastD_eq_getLast?, getLast?_eq_getElem?, getD_eq_getElem?_getD]

/-- What the trace loop hands over: the distance, and a start for the way back. -/
def FoundEnd (l r : List Line) (distance : Nat) (trace : List (List Int)) : Prop :=
  distance = EditGraph.distance l r ∧ Traced l r distance trace ∧
    ∃ i : Nat, 2 * (i : Int) = (l.length : Int) - r.length + distance ∧
      Snaked l r distance (trace.getD (distance - 1) []) i l.length

theorem traceFrom_yields (hi : Interrupts E limits) {left right : List Line} {pre n m : Nat}
    (hn : pre + n ≤ left.length) (hm : pre + m ≤ right.length)
    (hl : l = slice left pre (pre + n)) (hr : r = slice right pre (pre + m)) (traceLimit : Nat)
    (fuel d : Nat) (trace : List (List Int)) (bytes : Nat) (hf : d + fuel = n + m + 1)
    (hd : d ≤ EditGraph.distance l r) (hlen : trace.length = d) (ht : Traced l r d trace) :
    Yields E (traceFrom limits left right pre n m traceLimit fuel d trace bytes) fun ending =>
      ∀ distance trace, ending = .found distance trace → FoundEnd l r distance trace := by
  have hln : l.length = n := by rw [hl, length_slice (by omega)]; omega
  have hrm : r.length = m := by rw [hr, length_slice (by omega)]; omega
  have hmax := distance_add_lcs (l := l) (r := r)
  induction fuel generalizing d trace bytes with
  | zero => omega
  | succ fuel ih =>
    refine hi.check.skip fun _ => .ite (fun _ => .pure fun _ _ h => by cases h)
      fun _ => ?_
    have hlast : trace.getLastD [] = trace.getD (d - 1) [] := by rw [getLastD_eq_getD, hlen]
    rw [hlast]
    have hempty : RowOf l r d (trace.getD (d - 1) []) [] :=
      ⟨fun i h => absurd h (Nat.not_lt_zero i), fun i h => absurd h (Nat.not_lt_zero i)⟩
    refine (traceRow_yields hi.step hn hm hl hr hd ht.before (d + 1) [] (by simp) hempty
      fun i h => absurd h (Nat.not_lt_zero i)).bind fun out ho => ?_
    obtain ⟨row, done⟩ := out
    have hkeep : ∀ e < d, (trace ++ [row]).getD e [] = trace.getD e [] := fun e he =>
      getD_append _ _ _ _ (by omega)
    refine .ite (fun hdone => .pure ?_) fun hdone => ?_
    · intro distance trace' h
      cases h
      obtain ⟨h1, i, h2, h3⟩ := ho.2 hdone
      refine ⟨h1, fun e he => ?_, i, h2, ?_⟩
      · rw [hkeep e he, hkeep (e - 1) (by omega)]
        exact ht e he
      · rcases Nat.eq_zero_or_pos d with rfl | hpos
        · exact h3
        · rwa [hkeep (d - 1) (by omega)]
    · obtain ⟨h1, h2, h3⟩ := ho.1 (by simpa using hdone)
      refine ih (d + 1) (trace ++ [row]) _ (by omega) h3 (by simp [hlen]) fun e he => ?_
      have hrow : (trace ++ [row]).getD d [] = row := by
        rw [getD_append_right _ _ _ _ (by omega)]; simp [hlen]
      rcases Nat.lt_or_ge e d with hlt | hge
      · rw [hkeep e hlt, hkeep (e - 1) (by omega)]
        exact ht e hlt
      · obtain rfl : e = d := by omega
        rw [hrow]
        refine ⟨h1, ?_⟩
        rcases Nat.eq_zero_or_pos e with rfl | hpos
        · exact ⟨h2.furthest, h2.snaked⟩
        · rwa [hkeep (e - 1) (by omega)]

/-- The operations lead from `(x, y)` to the ends of both lists. -/
inductive Path (l r : List Line) : List Op → Nat → Nat → Prop
  | stop : Path l r [] l.length r.length
  | keep {ops x y} (hm : Matches l r x y) (h : Path l r ops (x + 1) (y + 1)) :
    Path l r (.keep :: ops) x y
  | delete {ops x y} (hx : x < l.length) (h : Path l r ops (x + 1) y) :
    Path l r (.delete :: ops) x y
  | insert {ops x y} (hy : y < r.length) (h : Path l r ops x (y + 1)) :
    Path l r (.insert :: ops) x y

/-- The operations that change a line. -/
def changes (ops : List Op) : Nat := ops.countP (· ≠ .keep)

theorem Path.le {ops : List Op} {x y : Nat} (h : Path l r ops x y) :
    x ≤ l.length ∧ y ≤ r.length := by
  induction h with
  | stop => exact ⟨Nat.le_refl _, Nat.le_refl _⟩
  | keep hm h ih => omega
  | delete hx h ih => omega
  | insert hy h ih => omega

theorem Path.keeps {ops : List Op} {x y k : Nat} (hk : ∀ t < k, Matches l r (x + t) (y + t))
    (h : Path l r ops (x + k) (y + k)) : Path l r (List.replicate k .keep ++ ops) x y := by
  induction k generalizing x y with
  | zero => exact h
  | succ k ih =>
    refine .keep (hk 0 (by omega)) (ih (fun t ht => ?_) ?_)
    · have := hk (t + 1) (by omega)
      rwa [show x + (t + 1) = x + 1 + t by omega, show y + (t + 1) = y + 1 + t by omega] at this
    · rwa [show x + (k + 1) = x + 1 + k by omega, show y + (k + 1) = y + 1 + k by omega] at h

theorem changes_keeps (k : Nat) (ops : List Op) :
    changes (List.replicate k .keep ++ ops) = changes ops := by
  simp [changes, countP_append, countP_replicate]

theorem changes_cons {op : Op} (h : op ≠ .keep) (ops : List Op) :
    changes (op :: ops) = changes ops + 1 := by
  simp [changes, h]

/-- Going back from an entry of row `d` completes the path to the front, with `d` changes. -/
theorem backtrack_yields (hi : Interrupts E limits) {trace : List (List Int)} (d : Nat)
    {x y i : Nat} {ops : List Op} (ht : Traced l r d trace)
    (hx : Snaked l r d (trace.getD (d - 1) []) i x) (hk : (x : Int) - y = -d + 2 * i)
    (hid : i ≤ d) (hp : Path l r ops x y) :
    Yields E (backtrack limits trace d x y ops) fun out =>
      Path l r out 0 0 ∧ changes out = changes ops + d := by
  induction d generalizing x y i ops with
  | zero =>
    obtain ⟨a, b, j, ha, hab, hj, hxj⟩ := hx
    have ha0 : (0 : Int) = a := by simpa [rowStart] using ha
    obtain rfl : 0 = a := by omega
    obtain rfl : 0 = b := by omega
    obtain rfl : j = x := by omega
    obtain rfl : y = j := by omega
    have hs : slideCount 0 0 (y : Int) y = y := by simp [slideCount]
    rw [backtrack, hs]
    refine .pure ⟨Path.keeps hj (by simpa using hp), ?_⟩
    rw [changes_keeps, Nat.add_zero]
  | succ d ih =>
    obtain ⟨hlen, hrow⟩ := ht d (Nat.lt_succ_self d)
    rw [Nat.add_sub_cancel] at hx
    obtain ⟨a, b, j, ha, hab, hj, hxj⟩ := hx
    rw [rowStart, if_neg (Nat.succ_ne_zero d)] at ha
    have hi' : (((x : Int) - y + (d + 1 : Nat)) / 2).toNat = i := by omega
    obtain rfl : x = a + j := by omega
    obtain rfl : y = b + j := by omega
    refine hi.check.skip fun _ => ?_
    simp only [hi']
    by_cases hins : takesInsert (trace.getD d []) (d + 1) i
    · rw [if_pos hins] at ha
      simp only [hins, if_true, ha]
      -- An insertion leads from `(a, b - 1)` to the start of the snake.
      have hlt : i < d + 1 := by
        simp only [takesInsert, Bool.or_eq_true, beq_iff_eq, Bool.and_eq_true, bne_iff_ne] at hins
        omega
      obtain ⟨a', b', ha', hb', -⟩ := hrow.furthest i (by omega)
      have hb : b = b' + 1 := by omega
      subst hb
      obtain ⟨h1, h2⟩ := hp.le
      rw [show (a : Int) - ((a + j : Nat) - (b' + 1 + j : Nat) + 1) = (b' : Nat) by omega,
        show slideCount (a : Int) b' (a + j : Nat) (b' + 1 + j : Nat) = j by
          unfold slideCount; omega]
      refine (ih (i := i) (fun e he => ht e (by omega)) ?_ (by omega) (by omega)
        (.insert (by omega) (hp.keeps hj))).weaken fun out ho => ?_
      · have := hrow.snaked i (by omega)
        rwa [ha] at this
      · rw [ho.2, changes_cons (by decide), changes_keeps]
        exact ⟨ho.1, by omega⟩
    · rw [if_neg hins] at ha
      simp only [hins, Bool.false_eq_true, if_false]
      have hpos : 0 < i := by
        simp only [takesInsert, Bool.or_eq_true, beq_iff_eq] at hins
        omega
      obtain ⟨a', b', ha', hb', -⟩ := hrow.furthest (i - 1) (by omega)
      have hb : a = a' + 1 := by omega
      subst hb
      obtain ⟨h1, h2⟩ := hp.le
      rw [ha', show (a' : Int) - ((a' + 1 + j : Nat) - (b + j : Nat) + -1) = (b : Nat) by omega,
        show slideCount (a' : Int) b (a' + 1 + j : Nat) (b + j : Nat) = j by
          unfold slideCount; omega]
      refine (ih (i := i - 1) (fun e he => ht e (by omega)) ?_ (by omega) (by omega)
        (.delete (by omega) (hp.keeps hj))).weaken fun out ho => ?_
      · have := hrow.snaked (i - 1) (by omega)
        rwa [ha'] at this
      · rw [ho.2, changes_cons (by decide), changes_keeps]
        exact ⟨ho.1, by omega⟩

/-! ## Joining operations -/

/-- The newest edit ends at the cursor. -/
def Touches (edits : List Edit) (a b : Nat) : Prop :=
  ∃ e ∈ edits.head?, e.end_ = a ∧ e.otherEnd = b

theorem backOf_eq_openEdit {edits : List Edit} {a b : Nat} {isOpen : Bool}
    (h : isOpen = true ↔ Touches edits a b) : backOf isOpen edits a b = openEdit edits a b := by
  cases edits with
  | nil => cases isOpen <;> rfl
  | cons e es =>
    cases isOpen with
    | true =>
      obtain ⟨f, hf, h1, h2⟩ := h.mp rfl
      cases hf
      simp [backOf, openEdit, h1, h2]
    | false =>
      refine (if_pos ?_).symm
      by_contra hc
      exact absurd (h.mpr ⟨e, rfl, by omega, by omega⟩) (by decide)

theorem touches_closeEdit (opened : Edit × List Edit) (endA endB : Nat) (bytes : Bytes) :
    Touches (closeEdit opened endA endB bytes) endA endB := ⟨_, rfl, rfl, rfl⟩

theorem openEdit_end {edits : List Edit} {a b : Nat} :
    (openEdit edits a b).1.end_ = a ∧ (openEdit edits a b).1.otherEnd = b := by
  unfold openEdit
  split
  · exact ⟨rfl, rfl⟩
  · split
    · exact ⟨rfl, rfl⟩
    · simp only; omega

/-- Joining the operations of a path gives a script as long as the path has changes. -/
theorem joinOps_built {ro : Bool} {left right : List Line} {pre n m : Nat}
    (hn : pre + n ≤ left.length) (hm : pre + m ≤ right.length) (hl : l = slice left pre (pre + n))
    (hr : r = slice right pre (pre + m)) {ops : List Op} {x y : Nat} (hp : Path l r ops x y)
    {edits : List Edit} (isOpen : Bool) (hb : Built ro left right edits (pre + x) (pre + y))
    (ho : isOpen = true ↔ Touches edits (pre + x) (pre + y)) :
    Built ro left right (joinOps ro right ops edits (pre + x) (pre + y) isOpen)
      (pre + n) (pre + m) ∧
      scriptSize (joinOps ro right ops edits (pre + x) (pre + y) isOpen) =
        scriptSize edits + changes ops := by
  have hln : l.length = n := by rw [hl, length_slice (by omega)]; omega
  have hrm : r.length = m := by rw [hr, length_slice (by omega)]; omega
  induction hp generalizing edits isOpen with
  | stop =>
    rw [hln, hrm] at hb ⊢
    exact ⟨hb, rfl⟩
  | @keep ops x y hxy h ih =>
    have hlt := hxy.lt
    rw [hl, hr, matches_slice (by omega) (by omega)] at hxy
    have hopen : false = true ↔ Touches edits (pre + (x + 1)) (pre + (y + 1)) := by
      refine ⟨nofun, ?_⟩
      rintro ⟨e, he, h1, h2⟩
      cases edits with
      | nil => cases he
      | cons f es =>
        cases he
        obtain ⟨k, hk1, hk2⟩ := hb.cursor
        omega
    obtain ⟨h1, h2⟩ := ih _ (hb.keep hxy) hopen
    exact ⟨h1, by rw [joinOps, changes, countP_cons_of_neg (by simp)]; exact h2⟩
  | @delete ops x y hx h ih =>
    have hle := h.le
    obtain ⟨h1, h2⟩ := hb.close (pre + (x + 1)) (pre + y) (by omega) (by omega)
      (by omega) (by omega) (by omega)
    have hnil : replacementOf ro right (pre + y) (pre + y) = [] := by
      simp [replacementOf, append]
    rw [hnil, append_nil] at h1 h2
    have hstep : joinOps ro right (.delete :: ops) edits (pre + x) (pre + y) isOpen =
        joinOps ro right ops (closeEdit (openEdit edits (pre + x) (pre + y)) (pre + (x + 1))
          (pre + y) (openEdit edits (pre + x) (pre + y)).1.replacement) (pre + (x + 1)) (pre + y)
          true := by
      rw [joinOps, backOf_eq_openEdit ho]
      simp only [Nat.add_assoc, closeEdit]
      rw [show (openEdit edits (pre + x) (pre + y)).1.otherEnd = _ from openEdit_end.2]
    obtain ⟨h3, h4⟩ := ih _ h1 ⟨fun _ => touches_closeEdit _ _ _ _, fun _ => rfl⟩
    rw [hstep, changes_cons (by decide)]
    exact ⟨h3, by omega⟩
  | @insert ops x y hy h ih =>
    have hle := h.le
    obtain ⟨h1, h2⟩ := hb.close (pre + x) (pre + (y + 1)) (by omega) (by omega)
      (by omega) (by omega) (by omega)
    have hone : replacementOf ro right (pre + y) (pre + (y + 1)) =
        if ro then [] else lineAt right (pre + y) := by
      have hy' : right[pre + y]? = some right[pre + y] := getElem?_eq_getElem (by omega)
      unfold replacementOf append lineAt
      rw [← Nat.add_assoc, slice_succ (Nat.le_refl _) hy', getD_eq_getElem?_getD, hy']
      simp
    rw [hone] at h1 h2
    have hstep : joinOps ro right (.insert :: ops) edits (pre + x) (pre + y) isOpen =
        joinOps ro right ops (closeEdit (openEdit edits (pre + x) (pre + y)) (pre + x)
          (pre + (y + 1)) ((openEdit edits (pre + x) (pre + y)).1.replacement ++
            if ro then [] else lineAt right (pre + y))) (pre + x) (pre + (y + 1)) true := by
      rw [joinOps, backOf_eq_openEdit ho]
      simp only [Nat.add_assoc, closeEdit]
      rw [show (openEdit edits (pre + x) (pre + y)).1.end_ = _ from openEdit_end.1]
    obtain ⟨h3, h4⟩ := ih _ h1 ⟨fun _ => touches_closeEdit _ _ _ _, fun _ => rfl⟩
    rw [hstep, changes_cons (by decide)]
    exact ⟨h3, by omega⟩

end Hc.Compare
