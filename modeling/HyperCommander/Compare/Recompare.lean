import HyperCommander.Compare.DecisionPlan
import HyperCommander.Compare.MergeModelLemmas
import HyperCommander.Lib.Decimal

/-!
# Comparing again (`HyperCompare/runtime/recompare.cpp`)

When the inputs of a merge are read anew, the decisions of the old work go over to the blocks of the
new plan. Blocks are the same when their signatures are: the SHA-256 of their texts with 64 bytes
around each. `refreshWork` is what the window does with the result.

* `signatureText_inj`: blocks with one signature text have the same sides.
* `transferStates_yields`: the states that the loop over the new blocks gives.
* `recompare_carries`: what a refreshed window holds.
-/

namespace Hc.Compare

open List Slice Decimal

/-! ## The sessions -/

/-- `Result`, for a merge. -/
structure MergeSession where
  completion : String
  error : String
  exitCode : Int
  inputs : List Snapshot
  plan : Option MergePlan
  output : Bytes
  decisionsSnapshot : Bool
  /-- `expected_.revision_`. -/
  expected : String
  hasOutputExpectation : Bool
  inputsChanged : Bool := false
  integrationSeed : Option Bytes := none
  reintegratedText : Option Bytes := none

/-- `inputs_.at(index).utf8_`; every session has its inputs. -/
def MergeSession.text (session : MergeSession) (index : Nat) : Bytes :=
  (session.inputs[index]?.map Snapshot.utf8).getD []

/-- The `seed` lambda. -/
def integrationSeed (input : Request) (value : MergeSession) (plan : MergePlan) : Bytes :=
  if plan.hasBase ∨ value.decisionsSnapshot then value.output
  else value.text (if input.takeAll = "right" then 1 else 0)

/-! ## Signatures -/

/-- What the `side` lambda adds to a digest. -/
def sideText (text : Bytes) (begin_ : Nat) (chunk : Bytes) : Bytes :=
  let before := min 64 begin_
  let after := min 64 (text.length - begin_ - chunk.length)
  field (slice text (begin_ - before) begin_) ++ (field chunk ++
    field (slice text (begin_ + chunk.length) (begin_ + chunk.length + after)))

/-- The `side` lambda. -/
def addSide (text : Bytes) (begin_ : Nat) (chunk : Bytes) : Run Bytes := do
  throwIf (begin_ > text.length ∨ chunk.length > text.length - begin_ ∨
    slice text begin_ (begin_ + chunk.length) ≠ chunk) "InvalidMergeLocation"
  pure (sideText text begin_ chunk)

/-- `signature`. -/
def signature (sha256 : Bytes → Bytes) (session : MergeSession) (hasBase : Bool)
    (block : MergeBlock) : Run Bytes := do
  let left ← addSide (session.text 0) block.leftBegin block.left
  let right ← addSide (session.text 1) block.rightBegin block.right
  let base ← if hasBase then addSide (session.text 2) block.baseBegin block.base else pure []
  pure (sha256 (left ++ (right ++ base)))

/-! ## Transferring decisions -/

/-- The loop over the old blocks: the index of the block with a signature, -1 for several blocks. -/
def indexBlocks (sha256 : Bytes → Bytes) (limits : Budget) (session : MergeSession)
    (hasBase : Bool) :
    (i : Nat) → List MergeBlock → (old : Bytes → Option Int) → Run (Bytes → Option Int)
  | _, [], old => pure old
  | i, block :: blocks, old => do
    limits.check
    let key ← signature sha256 session hasBase block
    indexBlocks sha256 limits session hasBase (i + 1) blocks
      (Function.update old key (some (if (old key).isSome then -1 else i)))

/-- The loop that counts the signatures of the new blocks. -/
def countBlocks (sha256 : Bytes → Bytes) (limits : Budget) (session : MergeSession)
    (hasBase : Bool) :
    List MergeBlock → (keys : List Bytes) → (counts : Bytes → Nat) →
      Run (List Bytes × (Bytes → Nat))
  | [], keys, counts => pure (keys, counts)
  | block :: blocks, keys, counts => do
    limits.check
    let key ← signature sha256 session hasBase block
    countBlocks sha256 limits session hasBase blocks (keys ++ [key])
      (Function.update counts key (counts key + 1))

/-- `{0, 0, Resolution::Unresolved, false}`. -/
def unmappedState : BlockState := ⟨0, 0, .unresolved, false⟩

/-- The old state that a block with this signature takes over, and its index. -/
def candidate (states : List BlockState) (resultBytes : Nat) (old : Bytes → Option Int)
    (counts : Bytes → Nat) (key : Bytes) : Option (Int × BlockState) :=
  let index := (old key).getD (-1)
  if index < 0 ∨ counts key ≠ 1 then none
  else states[index.toNat]?.bind fun state =>
    if state.mapped = false ∨ state.begin_ > state.end_ ∨ state.end_ > resultBytes then none
    else some (index, state)

/-- The loop over the new blocks, by their signatures: their states, and whether the states are in
the order of the old ones. -/
def transferStates (limits : Budget) (find : Bytes → Option (Int × BlockState)) :
    (previousEnd : Nat) → (previousIndex : Int) → (ordered : Bool) → List Bytes →
      Run (List BlockState × Bool)
  | _, _, ordered, [] => pure ([], ordered)
  | previousEnd, previousIndex, ordered, key :: keys => do
    limits.check
    match find key with
    | none => do
      let more ← transferStates limits find previousEnd previousIndex ordered keys
      pure (unmappedState :: more.1, more.2)
    | some (index, state) => do
      let ordered :=
        ordered && (decide (previousIndex < index) && decide (previousEnd ≤ state.begin_))
      let more ← transferStates limits find state.end_ index ordered keys
      pure (state :: more.1, more.2)

/-- The loop over the inputs. -/
def inputsDiffer : List Snapshot → List Snapshot → Run Bool
  | before :: befores, after :: afters => do
    throwIf (before.path ≠ after.path) "InvalidRecompareSession"
    let more ← inputsDiffer befores afters
    pure (before.raw != after.raw || before.encoding != after.encoding || more)
  | _, _ => pure false

/-- What the text of the editor and the new seed are merged to. -/
def reintegrate (limits : Budget) (lib : Library) (decodes : Bytes → Bool) (result : MergeSession)
    (plan : MergePlan) (oldSeed newSeed : Bytes) (resultBytes : Nat) (manual : Bytes) :
    Run Bytes := do
  throwIf (manual.length > resultLimit ∨ manual.length ≠ resultBytes ∨ manual.contains 0 ∨
    decodes manual = false) "InvalidReintegrationText"
  throwIf (plan.hasBase = false ∧ result.text 0 ≠ result.text 1) "ReintegrationRequiresBase"
  let merged ← merge limits lib oldSeed manual newSeed
  throwIf (merged.conflicts ≠ []) "ReintegrationConflict"
  throwIf (merged.text.length > resultLimit) "ResultSizeLimit"
  pure merged.text

/-- The `try` block of `Recompare`, for the comparison `fresh` that `Execute` gives. -/
def recompareWith (sha256 : Bytes → Bytes) (limits : Budget) (lib : Library)
    (decodes : Bytes → Bool) (input : Request) (previous fresh : MergeSession)
    (states : List BlockState) (resultBytes : Nat) (manual : Option Bytes) : Run MergeSession :=
  match previous.plan, fresh.plan with
  | some old, some new => do
    throwIf (old.hasBase ≠ new.hasBase ∨ states.length ≠ old.blocks.length ∨
      previous.inputs.length ≠ fresh.inputs.length ∨ previous.hasOutputExpectation = false)
      "InvalidRecompareSession"
    let changed ← inputsDiffer previous.inputs fresh.inputs
    limits.check
    let oldSeed := previous.integrationSeed.getD (integrationSeed input previous old)
    let result : MergeSession := { fresh with
      expected := previous.expected
      hasOutputExpectation := true
      inputsChanged := changed
      integrationSeed := some oldSeed }
    match manual with
    | some text => do
      let newSeed := integrationSeed input fresh new
      let merged ← reintegrate limits lib decodes result new oldSeed newSeed resultBytes text
      limits.check
      pure { result with
        plan := some { new with initial := new.initial.map fun _ => unmappedState }
        reintegratedText := some merged
        integrationSeed := some newSeed }
    | none =>
      if changed = false then pure { result with plan := some old }
      else do
        let index ← indexBlocks sha256 limits previous old.hasBase 0 old.blocks fun _ => none
        let counted ← countBlocks sha256 limits fresh new.hasBase new.blocks [] fun _ => 0
        let targets ← transferStates limits
          (candidate states resultBytes index counted.2) 0 (-1) true
          counted.1
        -- Moved blocks must not reuse ranges in a different order.
        let initial := if targets.2 then targets.1 else targets.1.map fun _ => unmappedState
        limits.check
        pure { result with plan := some { new with initial := initial } }
  | _, _ => throw ⟨"InvalidRecompareSession"⟩

/-- `Recompare`. What a failed result says besides its failure is read nowhere. -/
def recompare (sha256 : Bytes → Bytes) (limits : Budget) (lib : Library) (decodes : Bytes → Bool)
    (input : Request) (previous fresh : MergeSession) (states : List BlockState) (resultBytes : Nat)
    (manual : Option Bytes) (work : Work) : MergeSession :=
  if fresh.completion ≠ "Complete" then fresh
  else
    match (recompareWith sha256 limits lib decodes input previous fresh states
      resultBytes manual).run
      work with
    | .ok (result, _) => result
    | .error failure => { fresh with
        error := failure.code
        exitCode := if failure.code = "Canceled" then 3 else 2
        completion := if failure.code = "Canceled" then "Canceled" else "Failed" }

/-! ## The window -/

/-- `CompareWindow::refresh` with `MergeController::Refresh` and `RestoreWork`; `admitted` is
whether the editors have the memory, and `revisions` what `nextRevision` gives. -/
def refreshWork (admitted : Bool) (revisions : Nat × Nat) (e : Editor)
    (value : MergeSession) : Editor :=
  if value.completion ≠ "Complete" then e
  else if value.inputsChanged = false ∧ value.reintegratedText = none then e
  else if admitted = false then e
  else
    match value.plan with
    | none => e
    | some plan =>
      let refreshed := Editor.remember
        { MergeModel.new plan revisions.1 with reviewRequired := true } e.text []
      match value.reintegratedText with
      | none => refreshed
      | some text =>
        .remember { refreshed.model with revision := revisions.2 } text refreshed.history

/-! ## What a signature says -/

/-- The text that the digest is taken of. -/
def signatureText (session : MergeSession) (hasBase : Bool) (block : MergeBlock) : Bytes :=
  sideText (session.text 0) block.leftBegin block.left ++
    (sideText (session.text 1) block.rightBegin block.right ++
      if hasBase then sideText (session.text 2) block.baseBegin block.base else [])

/-- The signatures of the blocks of a plan. -/
def signatures (sha256 : Bytes → Bytes) (session : MergeSession) (plan : MergePlan) : List Bytes :=
  plan.blocks.map fun block => sha256 (signatureText session plan.hasBase block)

section Signature

variable {sha256 : Bytes → Bytes} {session : MergeSession} {hasBase : Bool}

/-- A side is added as it is, with nothing that could be taken for a part of the next one. -/
theorem sideText_inj {text text' chunk chunk' rest rest' : Bytes} {begin_ begin' : Nat}
    (h : sideText text begin_ chunk ++ rest = sideText text' begin' chunk' ++ rest') :
    chunk = chunk' ∧ rest = rest' := by
  unfold sideText at h
  simp only [append_assoc] at h
  obtain ⟨-, h⟩ := field_append_inj h
  obtain ⟨hchunk, h⟩ := field_append_inj h
  exact ⟨hchunk, (field_append_inj h).2⟩

/-- Blocks with one signature text have the same sides. -/
theorem signatureText_inj {session' : MergeSession} {a b : MergeBlock}
    (h : signatureText session hasBase a = signatureText session' hasBase b) :
    a.left = b.left ∧ a.right = b.right ∧ (hasBase = true → a.base = b.base) := by
  obtain ⟨hleft, h⟩ := sideText_inj h
  obtain ⟨hright, h⟩ := sideText_inj h
  refine ⟨hleft, hright, fun hbase => ?_⟩
  subst hbase
  rw [if_pos rfl, if_pos rfl] at h
  rw [← append_nil (sideText _ _ a.base), ← append_nil (sideText _ _ b.base)] at h
  exact (sideText_inj h).1

theorem addSide_yields (text : Bytes) (begin_ : Nat) (chunk : Bytes) :
    Yields (fun _ => True) (addSide text begin_ chunk) fun out =>
      out = sideText text begin_ chunk :=
  throwIf_past fun _ => .pure rfl

theorem signature_yields (block : MergeBlock) :
    Yields (fun _ => True) (signature sha256 session hasBase block) fun out =>
      out = sha256 (signatureText session hasBase block) := by
  refine (addSide_yields _ _ _).bind fun left hl => (addSide_yields _ _ _).bind fun right hr => ?_
  unfold signatureText
  refine .ite (fun h => ?_) fun h => ?_
  · refine (addSide_yields _ _ _).bind fun base hb => .pure ?_
    rw [hl, hr, hb, if_pos h]
  · exact .pure (by rw [hl, hr, if_neg h])

end Signature

/-! ## The index of the old blocks -/

/-- The index says where a signature stands that occurs once, and -1 for one that occurs again. -/
def Indexes (old : Bytes → Option Int) (keys : List Bytes) : Prop :=
  ∀ key, (old key = none ∧ key ∉ keys) ∨ (old key = some (-1) ∧ 2 ≤ keys.count key) ∨
    ∃ i : Nat, old key = some i ∧ keys[i]? = some key ∧ keys.count key = 1

theorem Indexes.snoc {old : Bytes → Option Int} {keys : List Bytes} (h : Indexes old keys)
    (key : Bytes) :
    Indexes (Function.update old key (some (if (old key).isSome then -1 else keys.length)))
      (keys ++ [key]) := by
  intro other
  have hcount : (keys ++ [key]).count other = keys.count other + if key = other then 1 else 0 := by
    rw [count_append, count_singleton]
    simp only [beq_iff_eq]
  rcases eq_or_ne other key with rfl | hne
  · rw [Function.update_self, hcount, if_pos rfl]
    rcases h other with ⟨hnone, hnot⟩ | ⟨hsome, hc⟩ | ⟨i, hsome, hget, hc⟩
    · refine .inr (.inr ⟨keys.length, ?_, ?_, ?_⟩)
      · rw [hnone]
        rfl
      · rw [getElem?_concat_length]
      · rw [count_eq_zero.mpr hnot]
    · exact .inr (.inl ⟨by rw [hsome]; rfl, by omega⟩)
    · exact .inr (.inl ⟨by rw [hsome]; rfl, by omega⟩)
  · rw [Function.update_of_ne hne, hcount, if_neg hne.symm, Nat.add_zero]
    refine (h other).imp (fun hk => ⟨hk.1, ?_⟩) (Or.imp_right ?_)
    · rw [mem_append, mem_singleton]
      exact not_or.mpr ⟨hk.2, hne⟩
    · rintro ⟨i, hsome, hget, hc⟩
      refine ⟨i, hsome, ?_, hc⟩
      rw [List.getElem?_append_left (List.getElem?_eq_some_iff.mp hget).1, hget]

section Index

variable {sha256 : Bytes → Bytes} {limits : Budget} {session : MergeSession} {hasBase : Bool}

theorem indexBlocks_yields {i : Nat} {blocks : List MergeBlock} {old : Bytes → Option Int}
    {keys : List Bytes} (h : Indexes old keys) (hi : i = keys.length) :
    Yields (fun _ => True) (indexBlocks sha256 limits session hasBase i blocks old) fun out =>
      Indexes out (keys ++ blocks.map fun block =>
        sha256 (signatureText session hasBase block)) := by
  induction blocks generalizing i old keys with
  | nil =>
    refine .pure ?_
    rwa [map_nil, append_nil]
  | cons block blocks ih =>
    refine .past fun _ => (signature_yields block).bind fun key hkey => ?_
    subst hi
    refine (ih (h.snoc key) ?_).weaken fun out hout => ?_
    · rw [length_append, length_singleton]
    · rwa [append_assoc, hkey] at hout

theorem countBlocks_yields {blocks : List MergeBlock} {keys : List Bytes} {counts : Bytes → Nat}
    (h : ∀ key, counts key = keys.count key) :
    Yields (fun _ => True) (countBlocks sha256 limits session hasBase blocks keys counts) fun out =>
      out.1 = (keys ++ blocks.map fun block => sha256 (signatureText session hasBase block)) ∧
        ∀ key, out.2 key = out.1.count key := by
  induction blocks generalizing keys counts with
  | nil =>
    refine .pure ⟨?_, h⟩
    rw [map_nil, append_nil]
  | cons block blocks ih =>
    refine .past fun _ => (signature_yields block).bind fun key hkey => ?_
    refine (ih fun other => ?_).weaken fun out hout => ?_
    · rw [count_append, count_singleton, Function.update_apply, ← h other]
      rcases eq_or_ne other key with rfl | hne
      · rw [if_pos rfl, beq_self_eq_true, if_pos rfl]
      · rw [if_neg hne, beq_eq_false_iff_ne.mpr hne.symm, if_neg Bool.false_ne_true, Nat.add_zero]
    · refine ⟨?_, hout.2⟩
      rw [hout.1, hkey, append_assoc]
      rfl

end Index

/-! ## The transfer -/

section Transfer

variable {limits : Budget} {states : List BlockState} {resultBytes : Nat} {old : Bytes → Option Int}
  {counts : Bytes → Nat} {key : Bytes} {s : BlockState}

/-- A state that is taken over is mapped into the result, from a signature that occurs once. -/
theorem candidate_some {i : Int} (h : candidate states resultBytes old counts key = some (i, s)) :
    old key = some i ∧ 0 ≤ i ∧ counts key = 1 ∧ states[i.toNat]? = some s ∧ s.mapped = true ∧
      s.begin_ ≤ s.end_ ∧ s.end_ ≤ resultBytes := by
  unfold candidate at h
  dsimp only at h
  split at h
  · cases h
  rename_i hc
  obtain ⟨hneg, hcount⟩ := not_or.mp hc
  obtain ⟨t, ht, h⟩ := Option.bind_eq_some_iff.mp h
  split at h
  · cases h
  rename_i hbad
  obtain ⟨hi, rfl⟩ := Prod.mk.inj (Option.some.inj h)
  have hkey : old key = some i := by
    cases hold : old key with
    | none =>
      rw [hold] at hneg
      exact absurd (by decide) hneg
    | some n =>
      rw [hold] at hi
      exact congrArg some hi
  rw [hi] at ht hneg
  refine ⟨hkey, by omega, not_not.mp hcount, ht, ?_, by omega, by omega⟩
  exact Bool.not_eq_false _ ▸ fun hm => hbad (.inl hm)

/-- The state that a signature gives. -/
def Gives (find : Bytes → Option (Int × BlockState)) (key : Bytes) (s : BlockState) : Prop :=
  s = unmappedState ∨ ∃ i, find key = some (i, s)

/-- The loop gives every block the state of its signature; when it says that they are in order, they
are apart. -/
theorem transferStates_yields {find : Bytes → Option (Int × BlockState)}
    (hfind : ∀ key i s, find key = some (i, s) → s.begin_ ≤ s.end_) {previousEnd : Nat}
    {previousIndex : Int} {ordered : Bool} {keys : List Bytes} :
    Yields (fun _ => True) (transferStates limits find previousEnd previousIndex ordered keys)
      fun out => List.Forall₂ (Gives find) keys out.1 ∧ (out.2 = true → ordered = true ∧
        out.1.Pairwise Apart ∧ ∀ s ∈ out.1, s.mapped = true → previousEnd ≤ s.begin_) := by
  induction keys generalizing previousEnd previousIndex ordered with
  | nil => exact .pure ⟨.nil, fun h => ⟨h, .nil, nofun⟩⟩
  | cons key keys ih =>
    refine .past fun _ => ?_
    cases hf : find key with
    | none =>
      refine ih.bind fun more hmore => .pure ⟨.cons (.inl rfl) hmore.1, fun h => ?_⟩
      obtain ⟨hordered, hapart, hfrom⟩ := hmore.2 h
      refine ⟨hordered, .cons (fun t _ hm => ?_) hapart, fun s hs hm => ?_⟩
      · cases hm
      · rcases mem_cons.mp hs with rfl | hs
        · cases hm
        · exact hfrom s hs hm
    | some found =>
      obtain ⟨index, state⟩ := found
      refine ih.bind fun more hmore => .pure ⟨.cons (.inr ⟨index, hf⟩) hmore.1, fun h => ?_⟩
      obtain ⟨hordered, hapart, hfrom⟩ := hmore.2 h
      rw [Bool.and_eq_true, Bool.and_eq_true, decide_eq_true_eq, decide_eq_true_eq] at hordered
      obtain ⟨hbefore, -, hle⟩ := hordered
      refine ⟨hbefore, .cons (fun t ht _ hm => hfrom t ht hm) hapart, fun s hs hm => ?_⟩
      rcases mem_cons.mp hs with rfl | hs
      · exact hle
      · have hrange := hfind key index state hf
        have := hfrom s hs hm
        omega

end Transfer

/-! ## What is carried over -/

/-- The state of the new block `b` is that of the old block `a`: their signature occurs once in both
plans, and they have the same sides. -/
structure TakenOver (sha256 : Bytes → Bytes) (previous fresh : MergeSession) (old new : MergePlan)
    (states : List BlockState) (s : BlockState) (a b : MergeBlock) : Prop where
  state : (s, a) ∈ states.zip old.blocks
  same : sha256 (signatureText previous old.hasBase a) = sha256 (signatureText fresh new.hasBase b)
  once : (signatures sha256 previous old).count
    (sha256 (signatureText previous old.hasBase a)) = 1
  onceNew : (signatures sha256 fresh new).count (sha256 (signatureText fresh new.hasBase b)) = 1
  sides : a.left = b.left ∧ a.right = b.right ∧ (old.hasBase = true → a.base = b.base)

/-- The states of a new plan, for what the editor holds then. -/
structure Carried (sha256 : Bytes → Bytes) (previous fresh : MergeSession) (old new : MergePlan)
    (states after : List BlockState) (text text' : Bytes) : Prop where
  apart : after.Pairwise Apart
  inside : ∀ s ∈ after, s.mapped = true → s.begin_ ≤ s.end_ ∧ s.end_ ≤ text'.length
  /-- Every block is undecided and nowhere, or takes over a state. -/
  taken : List.Forall₂ (fun b s => s = unmappedState ∨ text' = text ∧
    ∃ a, TakenOver sha256 previous fresh old new states s a b) new.blocks after
  /-- What the old ranges held, the new ones hold. -/
  keeps : ∀ ok, Good ok old states text → Good ok new after text'

theorem fits_unmapped {ok : Bytes → Nat → Prop} {hasBase : Bool} {text : Bytes} {b : MergeBlock} :
    Fits ok hasBase text unmappedState b where
  range h := by cases h
  ends h := by cases h
  covers h := by cases h
  unmapped _ := .inl rfl
  base h := by cases h

theorem promised_eq {a b : MergeBlock} {hasBase : Bool} {r : Resolution}
    (h : a.left = b.left ∧ a.right = b.right ∧ (hasBase = true → a.base = b.base))
    (hbase : r = .base → hasBase = true) : promised a r = promised b r := by
  obtain ⟨hl, hr, hb⟩ := h
  by_cases hbr : r = .base
  · subst hbr
    exact congrArg some (hb (hbase rfl))
  · unfold promised
    rw [hl, hr]
    cases r <;> first | rfl | exact absurd rfl hbr

theorem TakenOver.fits {sha256 : Bytes → Bytes} {previous fresh : MergeSession}
    {old new : MergePlan} {states : List BlockState} {s : BlockState} {a b : MergeBlock}
    {ok : Bytes → Nat → Prop} {text : Bytes}
    (h : TakenOver sha256 previous fresh old new states s a b) (hgood : Good ok old states text)
    (hbase : old.hasBase = new.hasBase) :
    Fits ok new.hasBase text s b := by
  have hfits : Fits ok old.hasBase text s a := (forall₂_iff_zip.mp hgood.blocks).2 h.state
  exact ⟨hfits.range, hfits.ends, fun hm bytes hbytes =>
    hfits.covers hm bytes (promised_eq h.sides hfits.base ▸ hbytes), hfits.unmapped,
    fun hb => hbase ▸ hfits.base hb⟩

/-- The digest tells the signature texts of the sessions apart. -/
def Separates (sha256 : Bytes → Bytes) (previous fresh : MergeSession)
    (old new : MergePlan) : Prop :=
  ∀ a ∈ old.blocks, ∀ b ∈ new.blocks,
    sha256 (signatureText previous old.hasBase a) = sha256 (signatureText fresh new.hasBase b) →
      signatureText previous old.hasBase a = signatureText fresh new.hasBase b

section Carry

variable {sha256 : Bytes → Bytes} {previous fresh : MergeSession} {old new : MergePlan}
  {states : List BlockState} {text : Bytes}

/-- With every block undecided and nowhere there is nothing to keep. -/
theorem carried_unmapped {after : List BlockState} (text' : Bytes)
    (hlen : after.length = new.blocks.length) :
    Carried sha256 previous fresh old new states (after.map fun _ => unmappedState) text text' := by
  have hall : ∀ s ∈ after.map (fun _ => unmappedState), s.mapped = false := fun s hs => by
    obtain ⟨-, -, rfl⟩ := mem_map.mp hs
    rfl
  have hapart : (after.map fun _ => unmappedState).Pairwise Apart := by
    rw [pairwise_map]
    exact pairwise_of_forall fun _ _ h => by cases h
  refine ⟨hapart, fun s hs hm => ?_, ?_, fun ok _ => ⟨?_, hapart⟩⟩
  · rw [hall s hs] at hm
    cases hm
  · rw [forall₂_map_right_iff]
    exact forall₂_iff_zip.mpr ⟨hlen.symm, fun _ => .inl rfl⟩
  · rw [forall₂_map_left_iff]
    exact forall₂_iff_zip.mpr ⟨hlen, fun _ => fits_unmapped⟩

/-- A state that a signature gives is taken over. -/
theorem takenOver_of_gives {index : Bytes → Option Int} {counts : Bytes → Nat} {b : MergeBlock}
    {s : BlockState} {resultBytes : Nat} (hbase : old.hasBase = new.hasBase)
    (hsep : Separates sha256 previous fresh old new)
    (hindex : Indexes index (signatures sha256 previous old))
    (hcounts : ∀ key, counts key = (signatures sha256 fresh new).count key) (hb : b ∈ new.blocks)
    (h : Gives (candidate states resultBytes index counts)
      (sha256 (signatureText fresh new.hasBase b)) s) :
    s = unmappedState ∨ ((s.mapped = true → s.begin_ ≤ s.end_ ∧ s.end_ ≤ resultBytes) ∧
      ∃ a, TakenOver sha256 previous fresh old new states s a b) := by
  refine h.imp_right ?_
  rintro ⟨i, hi⟩
  obtain ⟨hkey, hpos, hone, hget, -, hle, hend⟩ := candidate_some hi
  refine ⟨fun _ => ⟨hle, hend⟩, ?_⟩
  obtain ⟨hnone, -⟩ | ⟨hsome, -⟩ | ⟨n, hsome, hsig, honce⟩ :=
    hindex (sha256 (signatureText fresh new.hasBase b))
  · rw [hnone] at hkey
    cases hkey
  · rw [hsome] at hkey
    obtain rfl := Option.some.inj hkey
    exact absurd hpos (by decide)
  · rw [hsome] at hkey
    obtain rfl := Option.some.inj hkey
    rw [signatures, getElem?_map] at hsig
    obtain ⟨a, ha, hsame⟩ := Option.map_eq_some_iff.mp hsig
    have htext := hsep a (mem_of_getElem? ha) b hb hsame
    rw [Int.toNat_natCast] at hget
    refine ⟨a, mem_of_getElem? (getElem?_zip_eq_some.mpr ⟨hget, ha⟩), hsame, ?_, ?_, ?_⟩
    · rw [hsame]
      exact honce
    · rw [← hcounts]
      exact hone
    · rw [← hbase] at htext
      exact signatureText_inj htext

/-- The states that the transfer gives are carried over. -/
theorem carried_transfer {index : Bytes → Option Int} {counts : Bytes → Nat}
    {targets : List BlockState} (hbase : old.hasBase = new.hasBase)
    (hsep : Separates sha256 previous fresh old new)
    (hindex : Indexes index (signatures sha256 previous old))
    (hcounts : ∀ key, counts key = (signatures sha256 fresh new).count key)
    (hgives : List.Forall₂ (Gives (candidate states text.length index counts))
      (signatures sha256 fresh new) targets)
    (hapart : targets.Pairwise Apart) :
    Carried sha256 previous fresh old new states targets text text := by
  rw [signatures, forall₂_map_left_iff] at hgives
  obtain ⟨hlen, hgives⟩ := forall₂_iff_zip.mp hgives
  have htaken : ∀ b s, (b, s) ∈ new.blocks.zip targets → _ := fun b s hbs =>
    takenOver_of_gives hbase hsep hindex hcounts (of_mem_zip hbs).1 (hgives hbs)
  refine ⟨hapart, fun s hs hm => ?_, ?_, fun ok hgood => ⟨?_, hapart⟩⟩
  · obtain ⟨j, hj⟩ := mem_iff_getElem?.mp hs
    have hjlt := (List.getElem?_eq_some_iff.mp hj).1
    have hb := getElem?_eq_getElem (hlen ▸ hjlt : j < new.blocks.length)
    rcases htaken _ s (mem_of_getElem? (getElem?_zip_eq_some.mpr ⟨hb, hj⟩)) with rfl | h
    · cases hm
    · exact h.1 hm
  · exact forall₂_iff_zip.mpr ⟨hlen, fun hbs => (htaken _ _ hbs).imp_right fun h => ⟨rfl, h.2⟩⟩
  · refine (List.Forall₂.flip ?_)
    refine forall₂_iff_zip.mpr ⟨hlen, fun hbs => ?_⟩
    rcases htaken _ _ hbs with rfl | ⟨-, a, ha⟩
    · exact fits_unmapped
    · exact ha.fits hgood hbase

/-- What `Execute` gives for a merge: a state for every block, and nothing integrated. -/
structure Executed (fresh : MergeSession) (new : MergePlan) : Prop where
  plan : fresh.plan = some new
  states : new.initial.length = new.blocks.length
  plain : fresh.reintegratedText = none

/-- What `Recompare` gives for the work of an editor that holds `text`. -/
theorem recompareWith_yields {limits : Budget} {lib : Library} {decodes : Bytes → Bool}
    {input : Request} {manual : Option Bytes} (hold : previous.plan = some old)
    (hnew : Executed fresh new) (hsep : Separates sha256 previous fresh old new) :
    Yields (fun _ => True)
      (recompareWith sha256 limits lib decodes input previous fresh states text.length manual)
      fun value => (value.inputsChanged = false ∧ value.reintegratedText = none) ∨
        ∃ plan, value.plan = some plan ∧ plan.hasBase = new.hasBase ∧ plan.blocks = new.blocks ∧
          Carried sha256 previous fresh old new states plan.initial text
            (value.reintegratedText.getD text) := by
  unfold recompareWith
  rw [hold, hnew.plan]
  refine throwIf_past fun hc => ?_
  obtain ⟨hbase, -⟩ := not_or.mp hc
  refine .past fun changed => .past fun _ => ?_
  cases manual with
  | some manual =>
    refine .past fun merged => .past fun _ => Yields.pure (.inr ?_)
    exact ⟨_, rfl, rfl, rfl, carried_unmapped merged hnew.states⟩
  | none =>
    refine .ite (fun hsame => .pure (.inl ⟨hsame, hnew.plain⟩)) fun _ => ?_
    have hempty : Indexes (fun _ => none) [] := fun _ => .inl ⟨rfl, not_mem_nil⟩
    refine (indexBlocks_yields hempty rfl).bind fun index hindex => ?_
    refine (countBlocks_yields fun _ => rfl).bind fun counted ⟨hkeys, hcounts⟩ => ?_
    have hfind : ∀ key i s, candidate states text.length index counted.2 key = some (i, s) →
        s.begin_ ≤ s.end_ := fun key i s h => (candidate_some h).2.2.2.2.2.1
    refine (transferStates_yields hfind).bind fun targets ⟨hgives, hordered⟩ => ?_
    refine .past fun _ => Yields.pure (.inr ⟨_, rfl, rfl, rfl, ?_⟩)
    rw [hnew.plain, Option.getD_none]
    rw [nil_append] at hindex hkeys
    rw [hkeys] at hgives hcounts
    split
    · rename_i h
      exact carried_transfer (not_not.mp hbase) hsep hindex hcounts hgives (hordered h).2.1
    · refine carried_unmapped text ?_
      rw [← hgives.length_eq, length_map]

end Carry

/-- The window takes a result in when it is complete, new and there is memory for it. -/
def TakesIn (admitted : Bool) (value : MergeSession) : Prop :=
  value.completion = "Complete" ∧ ¬ (value.inputsChanged = false ∧ value.reintegratedText = none) ∧
    admitted = true

theorem refreshWork_of_not {admitted : Bool} {revisions : Nat × Nat} {e : Editor}
    {value : MergeSession} (h : ¬ TakesIn admitted value) :
    refreshWork admitted revisions e value = e := by
  unfold refreshWork
  split
  · rfl
  split
  · rfl
  split
  · rfl
  rename_i h1 h2 h3
  exact absurd ⟨not_not.mp h1, h2, Bool.not_eq_false _ ▸ h3⟩ h

theorem refreshWork_of {admitted : Bool} {revisions : Nat × Nat} {e : Editor} {value : MergeSession}
    {plan : MergePlan} (h : TakesIn admitted value) (hplan : value.plan = some plan) :
    (refreshWork admitted revisions e value).model.plan = plan ∧
      (refreshWork admitted revisions e value).model.state = plan.initial ∧
      (refreshWork admitted revisions e value).text = value.reintegratedText.getD e.text := by
  obtain ⟨hcomplete, hnew, hadmitted⟩ := h
  unfold refreshWork
  rw [if_neg (not_not.mpr hcomplete), if_neg hnew, if_neg (by rw [hadmitted]; decide), hplan]
  cases value.reintegratedText <;> exact ⟨rfl, rfl, rfl⟩

/-- A window that takes a recompare in holds a state for every new block: the mapped ranges are in
order, apart and inside of the text, and a state that is not the empty one comes from the only old
block with the signature of this block, which no other new block has. What the old ranges held by
their decisions, the new ones hold. Otherwise it holds its old work. -/
theorem recompare_carries (sha256 : Bytes → Bytes) (limits : Budget) (lib : Library)
    (decodes : Bytes → Bool) (input : Request) (previous fresh : MergeSession) (new : MergePlan)
    (e : Editor) (hprevious : previous.plan = some e.model.plan) (hfresh : Executed fresh new)
    (hsep : Separates sha256 previous fresh e.model.plan new) (manual : Option Bytes) (work : Work)
    (admitted : Bool) (revisions : Nat × Nat) :
    let value :=
      recompare sha256 limits lib decodes input previous fresh e.model.state e.text.length
      manual work
    let after := refreshWork admitted revisions e value
    (TakesIn admitted value → after.model.plan.blocks = new.blocks ∧
      after.model.plan.hasBase = new.hasBase ∧
      Carried sha256 previous fresh e.model.plan new e.model.state after.model.state e.text
        after.text) ∧
      (¬ TakesIn admitted value → after = e) := by
  intro value after
  refine ⟨fun h => ?_, refreshWork_of_not⟩
  have hvalue : value.inputsChanged = false ∧ value.reintegratedText = none ∨
      ∃ plan, value.plan = some plan ∧ plan.hasBase = new.hasBase ∧ plan.blocks = new.blocks ∧
        Carried sha256 previous fresh e.model.plan new e.model.state plan.initial e.text
          (value.reintegratedText.getD e.text) := by
    have hcomplete : value.completion = "Complete" := h.1
    by_cases hf : fresh.completion ≠ "Complete"
    · have hv : value = fresh := if_pos hf
      exact absurd (hv ▸ hcomplete) hf
    have hv : value = _ := if_neg hf
    cases hrun : (recompareWith sha256 limits lib decodes input previous fresh e.model.state
      e.text.length manual).run work with
    | ok out =>
      rw [hrun] at hv
      rw [hv]
      exact (recompareWith_yields hprevious hfresh hsep).of_ok hrun
    | error failure =>
      rw [hrun] at hv
      rw [hv] at hcomplete
      dsimp only at hcomplete
      split at hcomplete <;> exact absurd hcomplete (by decide)
  obtain hsame | ⟨plan, hplan, hbase, hblocks, hcarried⟩ := hvalue
  · exact absurd hsame h.2.1
  obtain ⟨h1, h2, h3⟩ := @refreshWork_of admitted revisions e value plan h hplan
  rw [h1, h2, h3]
  exact ⟨hblocks, hbase, hcarried⟩

/-! ## A run -/

/-- SHA-256 of the two signature texts below, which differ in length. -/
def markedSha256 (text : Bytes) : Bytes :=
  if text.length = 276 then
    [57, 50, 85, 158, 35, 8, 30, 139, 179, 102, 233, 74, 185, 64, 149, 185,
      7, 191, 51, 71, 78, 29, 17, 43, 55, 129, 227, 178, 157, 73, 207, 104]
  else if text.length = 146 then
    [21, 7, 101, 29, 64, 133, 21, 41, 50, 75, 163, 45, 250, 238, 98, 131,
      129, 177, 131, 85, 171, 23, 61, 151, 189, 155, 230, 114, 196, 19, 226, 230]
  else text

/-- A line of 64 bytes. -/
def longLine : Bytes := List.replicate 63 112 ++ [10]

/-- Three lines, a long one in front of each. -/
def markedText (x y z : UInt8) : Bytes :=
  longLine ++ ([x, 10] ++ (longLine ++ ([y, 10] ++ (longLine ++ [z, 10]))))

/-- Three lines are changed, the first two of them alike and with the same bytes around. -/
def markedPlan : MergePlan where
  blocks := [⟨1, 64, 64, 0, 1, 1, 0, [97, 10], [98, 10], [], false⟩,
    ⟨2, 130, 130, 0, 3, 3, 0, [97, 10], [98, 10], [], false⟩,
    ⟨3, 196, 196, 0, 5, 5, 0, [99, 10], [100, 10], [], false⟩]
  initial := [⟨64, 66, .left, true⟩, ⟨130, 132, .left, true⟩, ⟨196, 198, .left, true⟩]

/-- A session whose left input has these bytes in front in its file. -/
def markedSession (mark : Bytes) : MergeSession where
  completion := "Complete"
  error := ""
  exitCode := 0
  inputs := [⟨"left", "UTF-8", mark ++ markedText 97 97 99, markedText 97 97 99, false⟩,
    ⟨"right", "UTF-8", markedText 98 98 100, markedText 98 98 100, false⟩]
  plan := some markedPlan
  output := []
  decisionsSnapshot := false
  expected := ""
  hasOutputExpectation := true

/-- The user has taken the right side of the first and of the last block. -/
def markedStates : List BlockState :=
  [⟨64, 66, .right, true⟩, ⟨130, 132, .left, true⟩, ⟨196, 198, .right, true⟩]

def markedEditor : Editor := ⟨⟨markedPlan, markedStates, 1, false⟩, markedText 98 97 100, []⟩

/-- The left file gets a byte order mark. -/
def markedRefresh : MergeSession :=
  recompare markedSha256 .unlimited ⟨fun _ => 0, fun _ _ => 0⟩ (fun _ => true) ⟨"auto", ""⟩
    (markedSession []) (markedSession [0xef, 0xbb, 0xbf]) markedEditor.model.state
    markedEditor.text.length none {}

/-- Only the last decision stays: the signature of the other two blocks occurs twice. -/
theorem recompare_carries_marked :
    Carried markedSha256 (markedSession []) (markedSession [0xef, 0xbb, 0xbf]) markedPlan markedPlan
      markedStates [unmappedState, unmappedState, ⟨196, 198, .right, true⟩] (markedText 98 97 100)
      (markedText 98 97 100) := by
  have hsep : Separates markedSha256 (markedSession [])
    (markedSession [0xef, 0xbb, 0xbf]) markedPlan
      markedPlan := by
    unfold Separates
    decide +kernel
  have h := recompare_carries markedSha256 .unlimited ⟨fun _ => 0, fun _ _ => 0⟩ (fun _ => true)
    ⟨"auto", ""⟩ (markedSession []) (markedSession [0xef, 0xbb, 0xbf]) markedPlan markedEditor rfl
    ⟨rfl, rfl, rfl⟩ hsep none {} true (2, 3)
  have hnew : TakesIn true markedRefresh := ⟨by decide +kernel, by decide +kernel, rfl⟩
  have hstate : (refreshWork true (2, 3) markedEditor markedRefresh).model.state =
      [unmappedState, unmappedState, ⟨196, 198, .right, true⟩] := by decide +kernel
  have htext : (refreshWork true (2, 3) markedEditor markedRefresh).text =
      markedText 98 97 100 := by
    decide +kernel
  dsimp only at h
  rw [← markedRefresh.eq_1, hstate, htext] at h
  exact (h.1 hnew).2.2

end Hc.Compare
