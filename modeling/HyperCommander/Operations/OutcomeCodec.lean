import HyperCommander.Lib.DataStream
import HyperCommander.Storage.Types

/-!
# Outcomes of items as bytes (`UniqueLibs/qtItemOutcomeStore.cpp`, `qtPagedStorage.cpp`)

An outcome, with the snapshot of its source and its error, is written to a binary stream and read
back. The native path of an error is not written, so it is left out.

* `decodeOutcome_encodeOutcome`: an outcome whose record is not too long is read back.
-/

namespace Hc.Operations.DurableLog

open List Storage DataStream

/-- `IdentityScope`. -/
inductive IdentityScope
  | persistent
  | navigationSession
deriving DecidableEq, Repr

/-- `ResourceId`. -/
structure ResourceId where
  provider : Str := []
  key : Str := []
  scope : IdentityScope := .navigationSession
  revision : Option Str := none
deriving DecidableEq, Repr

/-- `EntrySnapshot`. -/
structure EntrySnapshot where
  id : ResourceId := {}
  locator : Locator := { root := [] }
  name : Str := []
  directory : Bool := false
  size : UInt64 := 0
  attributes : UInt32 := 0
  created : Int64 := 0
  modified : Int64 := 0
  hints : OrdMap Str Str := .empty
deriving DecidableEq

/-- `Error`, as far as it is written. -/
structure Failure where
  category : ErrorCategory := .internal
  code : Str := []
  provider : Str := []
  retryable : Bool := false
  userAction : Str := []
  resource : Option ResourceId := none
deriving DecidableEq, Repr

/-- `ItemOutcome::Status`. -/
inductive Status
  | completed
  | skipped
  | failed
deriving DecidableEq, Repr

/-- `ItemOutcome`. -/
structure ItemOutcome where
  item : Str := []
  status : Status := .completed
  error : Option Failure := none
  destinationCommitted : Bool := false
  sourceRemoved : Bool := false
  source : Option EntrySnapshot := none
deriving DecidableEq

/-! The values of the enumerations, in their order. -/

def scopes : List IdentityScope := [.persistent, .navigationSession]

def locatorKinds : List LocatorKind := [.local_, .shell, .smb, .archive, .plugin]

def categories : List ErrorCategory :=
  [.invalidRequest, .notFound, .accessDenied, .unavailable, .cancelled, .staleRevision,
    .unsupported, .budgetExceeded, .internal]

def statuses : List Status := [.completed, .skipped, .failed]

/-- An enumeration value as one byte. -/
def putEnum {α : Type} [DecidableEq α] (values : List α) (a : α) : Str :=
  Bytes.be 1 (values.idxOf a)

def putOption {α : Type} (put : α → Str) : Option α → Str
  | none => putFlag false
  | some a => putFlag true ++ put a

/-- `DiskError`. -/
def diskError (code : String) : Error := ⟨.unavailable, code, true⟩

/-- `index-corrupt`. -/
def indexCorrupt : Error := diskError "index-corrupt"

/-- `Corrupt` of `DecodeOutcome`. -/
def corrupt : Error := ⟨.unavailable, "result-record-corrupt", false⟩

/-- The identity in `EncodeEntry`. -/
def encodeId (id : ResourceId) : Str :=
  put id.provider ++ (put id.key ++ (putEnum scopes id.scope ++ putOption put id.revision))

/-- The locator in `EncodeEntry`. -/
def encodeLocator (l : Locator) : Str :=
  putEnum locatorKinds l.kind ++ (put l.root ++ (Bytes.be 8 l.nesting.length ++
    l.nesting.flatMap fun hop => put hop.provider ++ put hop.entry))

/-- The hints in `EncodeEntry`. -/
def encodeHints (hints : OrdMap Str Str) : Str :=
  Bytes.be 8 hints.entries.length ++ hints.entries.flatMap fun h => put h.1 ++ put h.2

/-- `EncodeEntry`. -/
def encodeEntry (e : EntrySnapshot) : Str :=
  Bytes.be 4 1 ++ (encodeId e.id ++ (encodeLocator e.locator ++ (put e.name ++
    (putFlag e.directory ++ (Bytes.be 8 e.size.toNat ++ (Bytes.be 4 e.attributes.toNat ++
    (Bytes.be 8 e.created.toUInt64.toNat ++ (Bytes.be 8 e.modified.toUInt64.toNat ++
      encodeHints e.hints))))))))

/-- A value of an enumeration; `e` for a number that is none. -/
def getEnum {α : Type} (values : List α) (e : Error) : Reader Error α := do
  let n ← nat 1
  match values[n]? with
  | some a => pure a
  | none => fail e

/-- A value that is there or not. -/
def getPresent {α : Type} (present : Bool) (get : Reader Error α) : Reader Error (Option α) :=
  if present then do
    let a ← get
    pure (some a)
  else pure none

def getOption {α : Type} (get : Reader Error α) : Reader Error (Option α) := do
  let present ← flag
  getPresent present get

/-- `map::emplace`: a key that is there keeps its value. -/
def emplace (m : OrdMap Str Str) (h : Str × Str) : OrdMap Str Str :=
  match m.find h.1 with
  | some _ => m
  | none => m.set h.1 h.2

def getHop : Reader Error ContainerHop := do
  let provider ← bytes
  let entry ← bytes
  pure ⟨provider, entry⟩

def getHint : Reader Error (Str × Str) := do
  let key ← bytes
  let value ← bytes
  pure (key, value)

/-- The identity in `DecodeEntry`. -/
def getId : Reader Error ResourceId := do
  let provider ← bytes
  let key ← bytes
  let scope ← getEnum scopes indexCorrupt
  let revision ← getOption bytes
  pure { provider := provider, key := key, scope := scope, revision := revision }

/-- A list with its length in `DecodeEntry`; every item takes eight of the `size` bytes. -/
def getList {α : Type} (size : Nat) (get : Reader Error α) : Reader Error (List α) := do
  let count ← nat 8
  refuse (count > size / 8) indexCorrupt
  times count get

/-- The locator in `DecodeEntry`. -/
def getLocator (size : Nat) : Reader Error Locator := do
  let kind ← getEnum locatorKinds indexCorrupt
  let root ← bytes
  let nesting ← getList size getHop
  pure { kind := kind, root := root, nesting := nesting }

/-- `DecodeEntry`. -/
def decodeEntry (text : Str) : Except Error EntrySnapshot :=
  run (do
    let version ← nat 4
    refuse (version ≠ 1) (diskError "index-record-version")
    let id ← getId
    let locator ← getLocator text.length
    let name ← bytes
    let directory ← flag
    let size ← nat 8
    let attributes ← nat 4
    let created ← nat 8
    let modified ← nat 8
    let hints ← getList text.length getHint
    let done ← done
    refuse (done = false) indexCorrupt
    pure
      { id := id, locator := locator, name := name, directory := directory
        size := UInt64.ofNat size
        attributes := UInt32.ofNat attributes
        created := (UInt64.ofNat created).toInt64
        modified := (UInt64.ofNat modified).toInt64
        hints := hints.foldl emplace .empty }) text

/-- The error in `EncodeOutcome`. -/
def encodeFailure (f : Failure) : Str :=
  putEnum categories f.category ++ (put f.code ++ (put f.provider ++ (putFlag f.retryable ++
    (put f.userAction ++ putOption (fun id => put (encodeEntry { id := id })) f.resource))))

/-- `EncodeOutcome`. -/
def encodeOutcome (item : ItemOutcome) : Str :=
  Bytes.be 4 1 ++ (put item.item ++ (putEnum statuses item.status ++
    (putFlag item.destinationCommitted ++ (putFlag item.sourceRemoved ++
    (putOption (fun e => put (encodeEntry e)) item.source ++
      putOption encodeFailure item.error)))))

/-- A snapshot in a record of its own. -/
def getEntry : Reader Error EntrySnapshot := do
  let text ← bytes
  match decodeEntry text with
  | .ok e => pure e
  | .error e => fail e

/-- The error in `DecodeOutcome`. -/
def getFailure : Reader Error Failure := do
  let category ← nat 1
  let code ← bytes
  let provider ← bytes
  let retryable ← flag
  let action ← bytes
  let hasResource ← flag
  match categories[category]? with
  | none => fail corrupt
  | some category =>
    let entry ← getPresent hasResource getEntry
    pure
      { category := category, code := code, provider := provider, retryable := retryable,
        userAction := action, resource := entry.map EntrySnapshot.id }

/-- `DecodeOutcome`. -/
def decodeOutcome (text : Str) : Except Error ItemOutcome :=
  run (do
    let version ← nat 4
    let name ← bytes
    let status ← nat 1
    let committed ← flag
    let removed ← flag
    let hasSource ← flag
    refuse (version ≠ 1) corrupt
    match statuses[status]? with
    | none => fail corrupt
    | some status =>
      let source ← getPresent hasSource getEntry
      let error ← getOption getFailure
      let done ← done
      refuse (done = false) corrupt
      pure
        { item := name, status := status, error := error, destinationCommitted := committed,
          sourceRemoved := removed, source := source }) text

/-! ### What is written is read back -/

variable {α : Type} {a : α} {get : Reader Error α}

theorem gets_getEnum [DecidableEq α] {values : List α} {e : Error}
    (h : a ∈ values) (hl : values.length < 256) :
    Gets (getEnum values e) (putEnum values a) a := by
  have hi : values.idxOf a < values.length := idxOf_lt_length_iff.2 h
  have hg : values[values.idxOf a]? = some a := by
    rw [getElem?_eq_getElem hi, getElem_idxOf]
  refine (gets_nat (by omega)).last ?_
  rw [hg]
  exact .pure a

theorem gets_getPresent {bs : Str} (h : Gets get bs a) :
    Gets (getPresent true get) bs (some a) := h.last (.pure (some a))

theorem gets_getOption {put : α → Str} {o : Option α}
    (h : ∀ a, o = some a → Gets get (put a) a) : Gets (getOption get) (putOption put o) o := by
  cases o with
  | none => exact (gets_flag false).last (.pure none)
  | some a => exact (gets_flag true).bind (gets_getPresent (h a rfl))

theorem length_le_flatMap {β : Type} {f : α → List β} {as : List α} (h : a ∈ as) :
    (f a).length ≤ (as.flatMap f).length :=
  (sublist_flatten_of_mem (mem_map_of_mem h)).length_le

/-- Filling a map in the order of its keys. -/
theorem foldl_emplace {es fs : List (Str × Str)} {m : OrdMap Str Str}
    (hs : (es ++ fs).Pairwise fun a b => a.1 < b.1) (hm : m.entries = es) :
    (fs.foldl emplace m).entries = es ++ fs := by
  induction fs generalizing es m with
  | nil => rw [foldl_nil, hm, append_nil]
  | cons f fs ih =>
    have hlt : ∀ e ∈ es, e.1 < f.1 := fun e he =>
      (pairwise_append.1 hs).2.2 e he f mem_cons_self
    have hfind : m.find f.1 = none := by
      cases hf : m.find f.1 with
      | none => rfl
      | some v =>
        have hmem := OrdMap.mem_entries.2 hf
        rw [hm] at hmem
        exact absurd (hlt _ hmem) (lt_irrefl _)
    have hset : (m.set f.1 f.2).entries = es ++ [f] := by
      rw [OrdMap.entries_set_of_forall_lt (by rw [hm]; exact hlt), hm]
    rw [foldl_cons, emplace, hfind]
    have hs' : ((es ++ [f]) ++ fs).Pairwise fun a b => a.1 < b.1 := by
      rwa [append_assoc, singleton_append]
    rw [ih hs' hset, append_assoc, singleton_append]

theorem foldl_emplace_entries (m : OrdMap Str Str) : m.entries.foldl emplace .empty = m := by
  have h := @foldl_emplace [] m.entries .empty m.sorted rfl
  obtain ⟨es, hs⟩ := m
  cases hm : es.foldl emplace .empty with
  | mk es' hs' =>
    simp only [hm, nil_append] at h
    subst h
    rfl

theorem uint64_be (n : UInt64) : n.toNat < 256 ^ 8 := n.toNat_lt

theorem uint32_be (n : UInt32) : n.toNat < 256 ^ 4 := n.toNat_lt

theorem length_putOption_put (o : Option Str) :
    ∀ a, o = some a → a.length ≤ (putOption put o).length := by
  rintro a rfl
  rw [putOption, length_append, length_put]
  omega

/-- Items that take eight bytes each. -/
theorem length_flatMap_ge {α : Type} {enc : α → Str} (as : List α)
    (h : ∀ a, 8 ≤ (enc a).length) : 8 * as.length ≤ (as.flatMap enc).length := by
  induction as with
  | nil => exact Nat.le_refl 0
  | cons a as ih =>
    have ha := h a
    rw [flatMap_cons, length_append, length_cons]
    omega

theorem gets_getId {id : ResourceId} (h : (encodeId id).length < nullLength) :
    Gets getId (encodeId id) id := by
  simp only [encodeId, length_append, length_put] at h
  refine (gets_bytes (by omega)).bind ((gets_bytes (by omega)).bind ?_)
  refine (gets_getEnum (by cases id.scope <;> decide) (by decide)).bind ?_
  refine (gets_getOption fun a ha => gets_bytes ?_).last (.pure id)
  have hle := length_putOption_put id.revision a ha
  omega

theorem gets_getList {size : Nat} {enc : α → Str} {as : List α}
    (hget : ∀ a ∈ as, Gets get (enc a) a) (h8 : ∀ a, 8 ≤ (enc a).length)
    (hs : (as.flatMap enc).length ≤ size) (hn : size < nullLength) :
    Gets (getList size get) (Bytes.be 8 as.length ++ as.flatMap enc) as := by
  have hge := length_flatMap_ge as h8
  have hnull : nullLength < 256 ^ 8 := by decide
  refine (gets_nat (by omega)).bind ?_
  refine (gets_refuse ?_).skip (gets_times hget)
  omega

theorem gets_getHop {hop : ContainerHop}
    (h : (put hop.provider ++ put hop.entry).length < nullLength) :
    Gets getHop (put hop.provider ++ put hop.entry) hop := by
  rw [length_append, length_put, length_put] at h
  exact (gets_bytes (by omega)).bind ((gets_bytes (by omega)).last (.pure hop))

theorem gets_getHint {x : Str × Str} (h : (put x.1 ++ put x.2).length < nullLength) :
    Gets getHint (put x.1 ++ put x.2) x := by
  rw [length_append, length_put, length_put] at h
  exact (gets_bytes (by omega)).bind ((gets_bytes (by omega)).last (.pure x))

theorem gets_getLocator {l : Locator} {size : Nat} (h : (encodeLocator l).length ≤ size)
    (hn : size < nullLength) : Gets (getLocator size) (encodeLocator l) l := by
  simp only [encodeLocator, length_append, length_put] at h
  refine (gets_getEnum (by cases l.kind <;> decide) (by decide)).bind ?_
  refine (gets_bytes (by omega)).bind ?_
  refine (gets_getList ?_ ?_ (by omega) hn).last (.pure l)
  · intro hop hm
    have hle := length_le_flatMap (f := fun hop => put hop.provider ++ put hop.entry) hm
    exact gets_getHop (by omega)
  · intro hop
    simp only [length_append, length_put]
    omega

/-- A snapshot is read back. -/
theorem decodeEntry_encodeEntry {e : EntrySnapshot} (h : (encodeEntry e).length < nullLength) :
    decodeEntry (encodeEntry e) = .ok e := by
  have hl := h
  simp only [encodeEntry, length_append, length_put] at hl
  have hh := hl
  rw [encodeHints, length_append] at hh
  refine run_of_ends ?_
  refine (gets_nat (by decide)).ends ?_
  refine (gets_refuse (by decide)).skip_ends ?_
  refine (gets_getId (by omega)).ends ?_
  refine (gets_getLocator ?_ h).ends ?_
  · simp only [encodeEntry, length_append]
    omega
  refine (gets_bytes (by omega)).ends ((gets_flag _).ends ?_)
  refine (gets_nat (uint64_be _)).ends ((gets_nat (uint32_be _)).ends ?_)
  refine (gets_nat (uint64_be _)).ends ((gets_nat (uint64_be _)).ends ?_)
  rw [← append_nil (encodeHints e.hints)]
  refine (gets_getList ?_ ?_ ?_ h).ends ?_
  · intro x hm
    have hle := length_le_flatMap (f := fun h : Str × Str => put h.1 ++ put h.2) hm
    exact gets_getHint (by omega)
  · intro x
    simp only [length_append, length_put]
    omega
  · simp only [encodeEntry, encodeHints, length_append]
    omega
  refine ends_done ?_
  refine (gets_refuse (by decide)).skip_ends ?_
  rw [foldl_emplace_entries]
  simp only [UInt64.ofNat_toNat, UInt32.ofNat_toNat, Int64.toInt64_toUInt64]
  exact ends_pure e

theorem gets_getEntry {e : EntrySnapshot} (h : (put (encodeEntry e)).length < nullLength) :
    Gets getEntry (put (encodeEntry e)) e := by
  rw [length_put] at h
  refine (gets_bytes (by omega)).last ?_
  rw [decodeEntry_encodeEntry (by omega)]
  exact .pure e

theorem gets_getFailure {f : Failure} (h : (encodeFailure f).length < nullLength) :
    Gets getFailure (encodeFailure f) f := by
  simp only [encodeFailure, length_append, length_put] at h
  have hcat : categories[categories.idxOf f.category]? = some f.category := by
    cases f.category <;> rfl
  refine (gets_nat (by cases f.category <;> decide)).bind ?_
  refine (gets_bytes (by omega)).bind ((gets_bytes (by omega)).bind ((gets_flag _).bind ?_))
  refine (gets_bytes (by omega)).bind ?_
  cases hr : f.resource with
  | none =>
    refine (gets_flag false).last ?_
    rw [hcat]
    refine (Gets.pure none).skip ?_
    rw [Option.map_none, ← hr]
    exact .pure f
  | some id =>
    rw [hr, putOption, length_append] at h
    refine (gets_flag true).bind ?_
    rw [hcat]
    refine (gets_getPresent (gets_getEntry (e := { id := id }) (by omega))).last ?_
    rw [Option.map_some, ← hr]
    exact .pure f

/-- An outcome is read back. -/
theorem decodeOutcome_encodeOutcome {item : ItemOutcome}
    (h : (encodeOutcome item).length < nullLength) :
    decodeOutcome (encodeOutcome item) = .ok item := by
  simp only [encodeOutcome, length_append, length_put] at h
  have hstatus : statuses[statuses.idxOf item.status]? = some item.status := by
    cases item.status <;> rfl
  have herror : Gets (getOption getFailure) (putOption encodeFailure item.error) item.error := by
    refine gets_getOption fun f hf => gets_getFailure ?_
    rw [hf, putOption, length_append] at h
    omega
  refine run_of_ends ?_
  refine (gets_nat (by decide)).ends ((gets_bytes (by omega)).ends ?_)
  refine (gets_nat (by cases item.status <;> decide)).ends ?_
  refine (gets_flag _).ends ((gets_flag _).ends ?_)
  -- the flag of the source, the check and the source itself
  have hend : Ends (do
      let error ← getOption getFailure
      let done ← done
      refuse (done = false) corrupt
      pure
        { item := item.item, status := item.status, error := error,
          destinationCommitted := item.destinationCommitted,
          sourceRemoved := item.sourceRemoved, source := item.source } : Reader Error ItemOutcome)
      (putOption encodeFailure item.error) item := by
    rw [← append_nil (putOption encodeFailure item.error)]
    refine herror.ends (ends_done ?_)
    exact (gets_refuse (by decide)).skip_ends (ends_pure item)
  cases hs : item.source with
  | none =>
    rw [hs] at hend
    refine (gets_flag false).ends ?_
    refine (gets_refuse (by decide)).skip_ends ?_
    rw [hstatus]
    exact (Gets.pure none).skip_ends hend
  | some e =>
    rw [hs] at hend
    rw [hs, putOption, length_append] at h
    rw [putOption, append_assoc]
    refine (gets_flag true).ends ?_
    refine (gets_refuse (by decide)).skip_ends ?_
    rw [hstatus]
    exact (gets_getPresent (gets_getEntry (by omega))).ends hend

end Hc.Operations.DurableLog
