import HyperCommander.Compare.DiffLemmas
import HyperCommander.Lib.Agree

/-!
# Two runs of `Diff`

Which edits `Diff` finds depends on the two texts and on `traceBytes_` only: the outside conditions,
the limit of steps and `rangesOnly_` decide whether it returns and whether its edits carry bytes.

* `diff_agree`: two runs on the same texts find the same ranges.
* `diff_agree_bytes`: and, if both carry bytes, the same edits.
-/

namespace Hc.Compare

open List Slice

/-- An edit without the bytes it carries. -/
def Edit.bare (e : Edit) : Edit := { e with replacement := [] }

/-- The same ranges in order. -/
def SameRanges (es fs : List Edit) : Prop := es.map Edit.bare = fs.map Edit.bare

theorem SameRanges.refl (es : List Edit) : SameRanges es es := rfl

theorem SameRanges.append {es es' fs fs' : List Edit} (h : SameRanges es es')
    (h' : SameRanges fs fs') : SameRanges (es ++ fs) (es' ++ fs') := by
  unfold SameRanges at *
  rw [map_append, map_append, h, h']

theorem SameRanges.reverse {es fs : List Edit} (h : SameRanges es fs) :
    SameRanges es.reverse fs.reverse := by
  unfold SameRanges at *
  rw [map_reverse, map_reverse, h]

theorem sameRanges_cons {e f : Edit} {es fs : List Edit} :
    SameRanges (e :: es) (f :: fs) ↔ e.bare = f.bare ∧ SameRanges es fs := by
  simp [SameRanges]

theorem sameRanges_single {a b c d : Nat} {s t : Bytes} :
    SameRanges [⟨a, b, c, d, s⟩] [⟨a, b, c, d, t⟩] := rfl

theorem bare_eq_iff {e f : Edit} : e.bare = f.bare ↔ e.begin_ = f.begin_ ∧ e.end_ = f.end_ ∧
    e.otherBegin = f.otherBegin ∧ e.otherEnd = f.otherEnd := by
  simp [Edit.bare]

section Engines

variable {limits limits' : Budget} {lib : Library} {left right : List Line}

variable {fuel i count pre suf n m d a b endA endB : Nat} {es fs : List Edit} {order : List Nat}
  {k offset : Int}

theorem countWhile_agree {cond : Nat → Bool} :
    Agree (countWhile limits cond fuel i) (countWhile limits' cond fuel i) Eq := by
  induction fuel generalizing i with
  | zero => exact .pure rfl
  | succ fuel ih =>
    rw [countWhile, countWhile]
    exact .ite Iff.rfl (fun _ => .skip fun _ _ => ih) fun _ => .pure rfl

theorem lowerBound_agree {before : Nat → Bool} {first : Nat} :
    Agree (lowerBound limits before fuel first count)
      (lowerBound limits' before fuel first count) Eq := by
  induction fuel generalizing first count with
  | zero => exact .pure rfl
  | succ fuel ih =>
    rw [lowerBound, lowerBound]
    refine .ite Iff.rfl (fun _ => .pure rfl) fun _ => .skip fun _ _ => ?_
    exact .ite Iff.rfl (fun _ => ih) fun _ => ih

/-! ### The hashes -/

theorem hashLines_agree {text : List Line} :
    Agree (hashLines limits lib text count i) (hashLines limits' lib text count i) Eq := by
  induction count generalizing i with
  | zero => exact .pure rfl
  | succ count ih =>
    rw [hashLines, hashLines]
    refine .skip fun _ _ => ih.bind fun rest rest' h => .pure ?_
    rw [h]

theorem binarySearch_agree {values : List Nat} {value : Nat} :
    Agree (binarySearch limits values value) (binarySearch limits' values value) Eq := by
  refine lowerBound_agree.bind fun i j h => ?_
  subst h
  exact .ite Iff.rfl (fun _ => .pure rfl) fun _ => .skip fun _ _ => .pure rfl

theorem anyHash_agree {hashes : List Nat} {large : List Line} :
    Agree (anyHash limits lib hashes large count i) (anyHash limits' lib hashes large count i)
      Eq := by
  induction count generalizing i with
  | zero => exact .pure rfl
  | succ count ih =>
    rw [anyHash, anyHash]
    refine .skip fun _ _ => binarySearch_agree.bind fun found found' h => ?_
    subst h
    exact .ite Iff.rfl (fun _ => .pure rfl) fun _ => ih

theorem commonHash_agree :
    Agree (commonHash limits lib left right pre suf n m)
      (commonHash limits' lib left right pre suf n m) Eq := by
  refine hashLines_agree.bind fun hashes hashes' h => ?_
  subst h
  exact .skip fun _ _ => anyHash_agree

theorem replaceAll_agree :
    Agree (replaceAll limits left right pre suf) (replaceAll limits' left right pre suf)
      SameRanges :=
  .skip fun _ _ => .skip fun _ _ => .pure sameRanges_single

/-! ### The bounded history -/

theorem traceRow_agree {previous row : List Int} :
    Agree (traceRow limits left right pre n m d previous fuel i row)
      (traceRow limits' left right pre n m d previous fuel i row) Eq := by
  induction fuel generalizing i row with
  | zero => exact .pure rfl
  | succ fuel ih =>
    rw [traceRow, traceRow]
    refine .skip fun _ _ => countWhile_agree.bind fun run run' h => ?_
    subst h
    exact .ite Iff.rfl (fun _ => .pure rfl) fun _ => ih

theorem traceFrom_agree {traceLimit bytes : Nat} {trace : List (List Int)} :
    Agree (traceFrom limits left right pre n m traceLimit fuel d trace bytes)
      (traceFrom limits' left right pre n m traceLimit fuel d trace bytes) Eq := by
  induction fuel generalizing d trace bytes with
  | zero => exact .pure rfl
  | succ fuel ih =>
    rw [traceFrom, traceFrom]
    refine .skip fun _ _ => .ite Iff.rfl (fun _ => .pure rfl) fun _ => ?_
    refine traceRow_agree.bind fun row row' h => ?_
    subst h
    exact .ite Iff.rfl (fun _ => .pure rfl) fun _ => ih

theorem backtrack_agree {trace : List (List Int)} {x y : Int} {ops : List Op} :
    Agree (backtrack limits trace d x y ops) (backtrack limits' trace d x y ops) Eq := by
  induction d generalizing x y ops with
  | zero => exact .pure rfl
  | succ d ih =>
    rw [backtrack, backtrack]
    exact .skip fun _ _ => ih

theorem sameRanges_backOf {isOpen : Bool} {es fs : List Edit} {a b : Nat} (h : SameRanges es fs) :
    (backOf isOpen es a b).1.bare = (backOf isOpen fs a b).1.bare ∧
      SameRanges (backOf isOpen es a b).2 (backOf isOpen fs a b).2 := by
  cases isOpen with
  | false => exact ⟨rfl, h⟩
  | true =>
    cases es with
    | nil =>
      obtain rfl : fs = [] := by simpa [SameRanges] using h.symm
      exact ⟨rfl, h⟩
    | cons e es =>
      cases fs with
      | nil => simp [SameRanges] at h
      | cons f fs => exact sameRanges_cons.1 h

theorem joinOps_sameRanges {r r' : Bool} {ops : List Op} {isOpen : Bool} (h : SameRanges es fs) :
    SameRanges (joinOps r right ops es a b isOpen) (joinOps r' right ops fs a b isOpen) := by
  induction ops generalizing es fs a b isOpen with
  | nil => exact h
  | cons op ops ih =>
    obtain ⟨hback, hrest⟩ := @sameRanges_backOf isOpen es fs a b h
    rw [bare_eq_iff] at hback
    obtain ⟨h1, h2, h3, h4⟩ := hback
    cases op with
    | keep => exact ih h
    | delete => exact ih (sameRanges_cons.2 ⟨bare_eq_iff.2 ⟨h1, rfl, h3, h4⟩, hrest⟩)
    | insert => exact ih (sameRanges_cons.2 ⟨bare_eq_iff.2 ⟨h1, h2, h3, rfl⟩, hrest⟩)

/-! ### Sparse matches -/

theorem matchesOf_agree {A : Nat} :
    Agree (matchesOf limits left right pre order A) (matchesOf limits' left right pre order A)
      Eq := by
  refine lowerBound_agree.bind fun first first' h => ?_
  subst h
  refine lowerBound_agree.bind fun last last' h => .pure ?_
  rw [h]

theorem countMatches_agree {maximum : Nat} :
    Agree (countMatches limits left right pre order maximum fuel i count)
      (countMatches limits' left right pre order maximum fuel i count) Eq := by
  induction fuel generalizing i count with
  | zero => exact .pure rfl
  | succ fuel ih =>
    rw [countMatches, countMatches]
    refine .skip fun _ _ => matchesOf_agree.bind fun p p' h => ?_
    subst h
    exact .ite Iff.rfl (fun _ => .pure rfl) fun _ => ih

theorem insertMatches_agree {bs : List Nat} {c : Chains} :
    Agree (insertMatches limits i bs c) (insertMatches limits' i bs c) Eq := by
  induction bs generalizing c with
  | nil => exact .pure rfl
  | cons b bs ih =>
    rw [insertMatches, insertMatches]
    refine .skip fun _ _ => lowerBound_agree.bind fun index index' h => ?_
    subst h
    exact ih

theorem insertAll_agree {c : Chains} :
    Agree (insertAll limits left right pre order fuel i c)
      (insertAll limits' left right pre order fuel i c) Eq := by
  induction fuel generalizing i c with
  | zero => exact .pure rfl
  | succ fuel ih =>
    rw [insertAll, insertAll]
    refine .skip fun _ _ => matchesOf_agree.bind fun p p' h => ?_
    subst h
    refine insertMatches_agree.bind fun c c' h => ?_
    subst h
    exact ih

theorem collect_agree {nodes : List Node} {at_ : Option Nat} :
    Agree (collect limits nodes fuel at_) (collect limits' nodes fuel at_) Eq := by
  induction fuel generalizing at_ with
  | zero =>
    cases at_ with
    | none => exact .pure rfl
    | some i => exact .fail_left
  | succ fuel ih =>
    cases at_ with
    | none => exact .pure rfl
    | some i =>
      rw [collect, collect]
      refine .skip fun _ _ => ih.bind fun rest rest' h => .pure ?_
      rw [h]

theorem emitGap_agree :
    Agree (emitGap limits right pre a b endA endB) (emitGap limits' right pre a b endA endB)
      SameRanges :=
  .ite Iff.rfl (fun _ => .pure rfl) fun _ => .skip fun _ _ => .pure sameRanges_single

theorem emitGaps_agree {anchors : List (Nat × Nat)} :
    Agree (emitGaps limits right pre n m anchors a b)
      (emitGaps limits' right pre n m anchors a b) SameRanges := by
  induction anchors generalizing a b with
  | nil => exact emitGap_agree
  | cons anchor anchors ih =>
    rw [emitGaps, emitGaps]
    refine .skip fun _ _ => emitGap_agree.bind fun gap gap' h => ?_
    exact ih.bind fun rest rest' hrest => .pure (h.append hrest)

/-- Both runs leave the input to `LinearDiff`, or find the same ranges. -/
def SameSparse : Option (List Edit) → Option (List Edit) → Prop
  | none, none => True
  | some es, some fs => SameRanges es fs
  | _, _ => False

theorem sparseDiff_agree (ht : limits.traceBytes = limits'.traceBytes) :
    Agree (sparseDiff limits lib left right pre suf) (sparseDiff limits' lib left right pre suf)
      SameSparse := by
  refine .skip fun _ _ => .skip fun _ _ => .ite (by rw [ht]) (fun _ => .pure trivial) fun _ => ?_
  rw [ht]
  refine .skip fun _ _ => .skip fun _ _ => countMatches_agree.bind fun total total' h => ?_
  subst h
  cases total with
  | none => exact .pure trivial
  | some total =>
    refine .skip fun _ _ => insertAll_agree.bind fun c c' h => ?_
    subst h
    refine collect_agree.bind fun back back' h => ?_
    subst h
    exact emitGaps_agree.bind fun edits edits' h => .skip fun _ _ => .pure h

/-! ### Linear space -/

theorem diagonal_agree {same : Nat → Nat → Bool} {low high : Int} :
    Agree (diagonal limits n m same d k low high) (diagonal limits' n m same d k low high) Eq := by
  refine .skip fun _ _ => .ite Iff.rfl (fun _ => .pure rfl) fun _ => ?_
  refine countWhile_agree.bind fun run run' h => .pure ?_
  rw [h]

theorem phase_agree {same : Nat → Nat → Bool}
    {hit : Int → Int → Option (Nat × Nat)} {f : Frontier} :
    Agree (phase limits n m same offset d hit fuel k f)
      (phase limits' n m same offset d hit fuel k f)
      Eq := by
  induction fuel generalizing k f with
  | zero => exact .pure rfl
  | succ fuel ih =>
    rw [phase, phase]
    refine diagonal_agree.bind fun x x' h => ?_
    subst h
    split
    · exact .pure rfl
    · exact ih

theorem partitionFrom_agree {r : Range} {f g : Frontier} :
    Agree (partitionFrom limits left right r offset fuel d f g)
      (partitionFrom limits' left right r offset fuel d f g) Eq := by
  induction fuel generalizing d f g with
  | zero => exact .fail_left
  | succ fuel ih =>
    rw [partitionFrom, partitionFrom]
    refine .skip fun _ _ => phase_agree.bind fun p p' h => ?_
    subst h
    obtain ⟨f, met⟩ := p
    cases met with
    | some point => exact .pure rfl
    | none =>
      refine phase_agree.bind fun p p' h => ?_
      subst h
      obtain ⟨g, met⟩ := p
      cases met with
      | some point => exact .pure rfl
      | none => exact ih

theorem sameRanges_openEdit {es fs : List Edit} {a b : Nat} (h : SameRanges es fs) :
    (openEdit es a b).1.bare = (openEdit fs a b).1.bare ∧
      SameRanges (openEdit es a b).2 (openEdit fs a b).2 := by
  cases es with
  | nil =>
    obtain rfl : fs = [] := by simpa [SameRanges] using h.symm
    exact ⟨rfl, h⟩
  | cons e es =>
    cases fs with
    | nil => simp [SameRanges] at h
    | cons f fs =>
      obtain ⟨hbare, hrest⟩ := sameRanges_cons.1 h
      obtain ⟨h1, h2, h3, h4⟩ := bare_eq_iff.1 hbare
      dsimp only [openEdit]
      rw [h2, h4]
      split
      · exact ⟨rfl, h⟩
      · exact ⟨hbare, hrest⟩

theorem emitRange_agree (h : SameRanges es fs) :
    Agree (emitRange limits right es a endA b endB) (emitRange limits' right fs a endA b endB)
      SameRanges := by
  refine .ite Iff.rfl (fun _ => .pure h) fun _ => .skip fun bytes bytes' => .pure ?_
  obtain ⟨hback, hrest⟩ := @sameRanges_openEdit es fs a b h
  obtain ⟨h1, -, h3, -⟩ := bare_eq_iff.1 hback
  exact sameRanges_cons.2 ⟨bare_eq_iff.2 ⟨h1, rfl, h3, rfl⟩, hrest⟩

theorem search_agree {found : Nat → Bool} :
    Agree (search limits found fuel i) (search limits' found fuel i) Eq := by
  induction fuel generalizing i with
  | zero => exact .pure rfl
  | succ fuel ih =>
    rw [search, search]
    exact .skip fun _ _ => .ite Iff.rfl (fun _ => .pure rfl) fun _ => ih

theorem trimRange_agree {r : Range} :
    Agree (trimRange limits left right r) (trimRange limits' left right r) Eq := by
  refine countWhile_agree.bind fun i i' h => ?_
  subst h
  refine countWhile_agree.bind fun j j' h => .pure ?_
  rw [h]

theorem linearDiffFrom_agree {pending : List Range}
    (h : SameRanges es fs) : Agree (linearDiffFrom limits left right fuel pending es)
      (linearDiffFrom limits' left right fuel pending fs) SameRanges := by
  induction fuel generalizing pending es fs with
  | zero =>
    cases pending with
    | nil => exact .pure h
    | cons r pending => exact .fail_left
  | succ fuel ih =>
    cases pending with
    | nil => exact .pure h
    | cons r pending =>
      have hemit : ∀ {a endA b endB : Nat}, Agree
          (emitRange limits right es a endA b endB >>=
            linearDiffFrom limits left right fuel pending)
          (emitRange limits' right fs a endA b endB >>=
            linearDiffFrom limits' left right fuel pending)
          SameRanges := (emitRange_agree h).bind fun _ _ h => ih h
      have hboth : ∀ {a a' endA endA' b b' endB endB' : Nat}, Agree
          (do let es ← emitRange limits right es a endA b endB
              let es ← emitRange limits right es a' endA' b' endB'
              linearDiffFrom limits left right fuel pending es)
          (do let fs ← emitRange limits' right fs a endA b endB
              let fs ← emitRange limits' right fs a' endA' b' endB'
              linearDiffFrom limits' left right fuel pending fs)
          SameRanges :=
        (emitRange_agree h).bind fun _ _ h => (emitRange_agree h).bind fun _ _ h => ih h
      rw [linearDiffFrom, linearDiffFrom]
      refine .skip fun _ _ => trimRange_agree.bind fun r r' hr => ?_
      subst hr
      refine .ite Iff.rfl (fun _ => hemit) fun _ => .ite Iff.rfl (fun _ => ?_) fun _ =>
        .ite Iff.rfl (fun _ => ?_) fun _ => ?_
      · refine search_agree.bind fun at_ at' h => ?_
        subst h
        cases at_ with
        | none => exact hemit
        | some i => exact hboth
      · refine search_agree.bind fun at_ at' h => ?_
        subst h
        cases at_ with
        | none => exact hemit
        | some i => exact hboth
      · refine partitionFrom_agree.bind fun p p' hp => ?_
        subst hp
        exact .skip fun _ _ => .skip fun _ _ => ih h

theorem linearDiff_agree : Agree (linearDiff limits left right pre suf)
    (linearDiff limits' left right pre suf) SameRanges :=
  .skip fun _ _ => .skip fun _ _ => .skip fun _ _ =>
    (linearDiffFrom_agree (.refl [])).bind fun _ _ h => .skip fun _ _ => .pure h.reverse

/-! ### `Diff` -/

theorem diffLines_agree (ht : limits.traceBytes = limits'.traceBytes) :
    Agree (diffLines limits lib left right) (diffLines limits' lib left right) SameRanges := by
  refine .skip fun _ _ => countWhile_agree.bind fun pre pre' h => ?_
  subst h
  refine countWhile_agree.bind fun suf suf' h => ?_
  subst h
  refine .skip fun _ _ => .skip fun _ _ => .ite Iff.rfl (fun _ => replaceAll_agree) fun _ => ?_
  have hdisjoint : Agree (if left.length - pre - suf + (right.length - pre - suf) > 2048 ∧
        min (left.length - pre - suf) (right.length - pre - suf) ≤ limits.traceBytes / 8 then
      (do let common ← commonHash limits lib left right pre suf (left.length - pre - suf)
            (right.length - pre - suf); pure !common) else pure false)
      (if left.length - pre - suf + (right.length - pre - suf) > 2048 ∧
        min (left.length - pre - suf) (right.length - pre - suf) ≤ limits'.traceBytes / 8 then
      (do let common ← commonHash limits' lib left right pre suf (left.length - pre - suf)
            (right.length - pre - suf); pure !common) else pure false) Eq := by
    rw [ht]
    refine .ite Iff.rfl (fun _ => ?_) fun _ => .pure rfl
    refine commonHash_agree.bind fun common common' h => .pure ?_
    rw [h]
  refine hdisjoint.bind fun disjoint disjoint' h => ?_
  subst h
  refine .ite Iff.rfl (fun _ => replaceAll_agree) fun _ => ?_
  rw [ht]
  refine traceFrom_agree.bind fun ending ending' h => ?_
  subst h
  cases ending with
  | exceeded =>
    refine (sparseDiff_agree ht).bind fun es fs h => ?_
    cases es with
    | none =>
      cases fs with
      | none => exact linearDiff_agree
      | some fs => exact h.elim
    | some es =>
      cases fs with
      | none => exact h.elim
      | some fs => exact .pure h
  | found distance trace =>
    refine backtrack_agree.bind fun ops ops' h => ?_
    subst h
    exact .skip fun _ _ => .pure (joinOps_sameRanges (.refl [])).reverse

end Engines

/-- The lines that a text is cut into are always the same. -/
theorem splitLines_agree {limits limits' : Budget} {text : Bytes} {n n' m m' : Nat} :
    Agree (splitLines limits text n m) (splitLines limits' text n' m') Eq := by
  have hlines : ∀ (limits : Budget) (n m : Nat), Yields (fun _ => True)
      (splitLines limits text n m) fun out => out = lines text ∧ out.length ≤ n := fun _ _ _ =>
    splitLines_yields (fun _ _ => trivial) (fun _ => trivial) fun _ => trivial
  intro s t a b s' t' ha hb
  rw [((hlines _ _ _).of_ok ha).1, ((hlines _ _ _).of_ok hb).1]

/-- Two runs of `Diff` on the same texts find the same ranges. -/
theorem diff_agree {limits limits' : Budget} (ht : limits.traceBytes = limits'.traceBytes)
    (lib : Library) (left right : Bytes) :
    Agree (diff limits lib left right) (diff limits' lib left right) SameRanges := by
  refine .skip fun _ _ => .ite Iff.rfl (fun _ => .pure (.refl [])) fun _ => ?_
  refine .skip fun _ _ => .skip fun _ _ => .skip fun _ _ => splitLines_agree.bind fun ls ls' h => ?_
  subst h
  refine splitLines_agree.bind fun rs rs' h => ?_
  subst h
  exact diffLines_agree ht

/-- What `Diff` returned is determined by its ranges. -/
theorem eq_of_sameRanges {limits limits' : Budget} (hr : limits.rangesOnly = limits'.rangesOnly)
    {left right : List Line} {es fs : List Edit} {n m n' m' : Nat}
    (he : Built limits.rangesOnly left right es.reverse n m)
    (hf : Built limits'.rangesOnly left right fs.reverse n' m') (h : SameRanges es fs) :
    es = fs := by
  have hes : ∀ e ∈ es, e.replacement =
      replacementOf limits.rangesOnly right e.otherBegin e.otherEnd :=
    fun e hm => (he.forall_edit e (mem_reverse.mpr hm)).2.2.2
  have hfs : ∀ e ∈ fs, e.replacement =
      replacementOf limits.rangesOnly right e.otherBegin e.otherEnd :=
    fun e hm => hr ▸ (hf.forall_edit e (mem_reverse.mpr hm)).2.2.2
  clear he hf
  induction es generalizing fs with
  | nil => simpa [SameRanges] using h.symm
  | cons e es ih =>
    cases fs with
    | nil => simp [SameRanges] at h
    | cons f fs =>
      obtain ⟨hbare, hrest⟩ := sameRanges_cons.1 h
      obtain ⟨h1, h2, h3, h4⟩ := bare_eq_iff.1 hbare
      have he := hes e mem_cons_self
      have hf := hfs f mem_cons_self
      rw [h3, h4, ← hf] at he
      have hef : e = f := by
        cases e
        cases f
        simp_all
      rw [hef, ih hrest (fun x hx => hes x (mem_cons_of_mem _ hx))
        fun x hx => hfs x (mem_cons_of_mem _ hx)]

/-- Two runs of `Diff` on the same texts that both carry bytes, or both do not, find the same
edits. -/
theorem diff_agree_bytes {limits limits' : Budget} (ht : limits.traceBytes = limits'.traceBytes)
    (hr : limits.rangesOnly = limits'.rangesOnly) (lib : Library) (left right : Bytes) :
    Agree (diff limits lib left right) (diff limits' lib left right) Eq := by
  intro s t a b s' t' ha hb
  exact eq_of_sameRanges hr ((diff_yields limits lib left right).of_ok ha).1.1
    ((diff_yields limits' lib left right).of_ok hb).1.1
    ((diff_agree ht lib left right).of_run ha hb)

end Hc.Compare
