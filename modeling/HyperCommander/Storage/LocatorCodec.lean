import HyperCommander.Lib.Decimal
import HyperCommander.Operations.OutcomeCodec
import Mathlib.Tactic.IntervalCases

/-!
# Locators and resource identities as strings (`commonLibs/storage/storage.hpp`)

A value is written as a magic word and a row of fields behind their lengths. The readers take the
fields off the front one by one.

* `parseLocatorFields_iff`, `parseResourceIdFields_iff`: what is accepted is a row of fields, the
  fields of a valid value. `Framed` holds the row, with the digits of each length as they stand in
  the string.
* `codecs_exact`: values come back, and strings are told apart. A string comes back unless zeros
  stand in front of one of its lengths.
-/

namespace Hc.Storage.LocatorCodec

open List Decimal Operations.DurableLog

def ascii (s : String) : Str := s.toList.map fun c => UInt8.ofNat c.toNat

/-- The longest string that is read. -/
def codecMaximum : Nat := 1024 * 1024

/-- `TakeField`: the field, and what follows it. -/
def takeField (input : Str) : Option (Str × Str) :=
  let at_ := input.idxOf colon
  if at_ = input.length ∨ at_ = 0 ∨ at_ > 7 then none
  else do
    let size ← ofDigits (input.take at_) 0
    let input := input.drop (at_ + 1)
    if size > input.length then none else some (input.take size, input.drop size)

/-- A field that may not be empty. -/
def takeNonempty (input : Str) : Option (Str × Str) := do
  let out ← takeField input
  if out.1 = [] then none else some out

/-- The fields of a container hop. -/
def hopFields (hop : ContainerHop) : List Str := [hop.provider, hop.entry]

/-- `static_cast<int>` of a kind. -/
def kindNumber (kind : LocatorKind) : Nat := locatorKinds.idxOf kind

/-- The fields of a locator. -/
def locatorFields (l : Locator) : List Str :=
  toString_ (kindNumber l.kind) :: l.root :: l.nesting.flatMap hopFields

/-- `Serialize` of a locator, with `AppendField` for each field. -/
def serializeLocator (l : Locator) : Str := ascii "hcl1" ++ (locatorFields l).flatMap field

/-- The checks on the kind. -/
def kindOf : Str → Option LocatorKind
  | [c] => if c < 48 ∨ 52 < c then none else locatorKinds[c.toNat - 48]?
  | _ => none

/-- The loop over the hops; `room` more of them are taken. -/
def parseHops : (room : Nat) → Str → Option (List ContainerHop)
  | _, [] => some []
  | 0, _ :: _ => none
  | room + 1, c :: cs => do
    let (provider, rest) ← takeNonempty (c :: cs)
    let (entry, rest) ← takeNonempty rest
    let hops ← parseHops room rest
    some (⟨provider, entry⟩ :: hops)

/-- `ParseLocator` behind the magic word. -/
def parseLocatorFields (input : Str) : Option Locator := do
  let (kind, rest) ← takeField input
  let kind ← kindOf kind
  let (root, rest) ← takeNonempty rest
  let hops ← parseHops 32 rest
  if kind = .archive ↔ hops = [] then none else some ⟨kind, root, hops⟩

/-- A reader of one of the two formats. -/
def parseWith {α : Type} (magic : Str) (invalid : Error) (fields : Str → Option α) (input : Str) :
    Except Error α :=
  if input.length > codecMaximum ∨ magic.isPrefixOf input = false then .error invalid
  else match fields (input.drop magic.length) with
    | some a => .ok a
    | none => .error invalid

/-- `ParseLocator`. -/
def parseLocator : Str → Except Error Locator :=
  parseWith (ascii "hcl1") ⟨.invalidRequest, "invalid-locator", false⟩ parseLocatorFields

/-- The field of a scope. -/
def scopeField : IdentityScope → Str
  | .persistent => ascii "p"
  | .navigationSession => ascii "s"

/-- The fields of a revision. -/
def revisionFields : Option Str → List Str
  | some token => [ascii "1", token]
  | none => [ascii "0"]

/-- The fields of an identity. -/
def idFields (id : ResourceId) : List Str :=
  id.provider :: id.key :: scopeField id.scope :: revisionFields id.revision

/-- `Serialize` of an identity. -/
def serializeResourceId (id : ResourceId) : Str := ascii "hci1" ++ (idFields id).flatMap field

/-- `ParseResourceId` behind the magic word. -/
def parseResourceIdFields (input : Str) : Option ResourceId := do
  let (provider, rest) ← takeNonempty input
  let (key, rest) ← takeNonempty rest
  let (scope, rest) ← takeField rest
  if scope ≠ ascii "p" ∧ scope ≠ ascii "s" then none else
  let (revision, rest) ← takeField rest
  if revision ≠ ascii "0" ∧ revision ≠ ascii "1" then none else
  let scope := if scope = ascii "p" then .persistent else .navigationSession
  if revision = ascii "1" then
    let (token, rest) ← takeField rest
    if rest ≠ [] then none else some ⟨provider, key, scope, some token⟩
  else if rest ≠ [] then none else some ⟨provider, key, scope, none⟩

/-- `ParseResourceId`. -/
def parseResourceId : Str → Except Error ResourceId :=
  parseWith (ascii "hci1") ⟨.invalidRequest, "invalid-resource-id", false⟩ parseResourceIdFields

/-- What `ParseLocator` asks of a locator. -/
structure ValidLocator (l : Locator) : Prop where
  root : l.root ≠ []
  depth : l.nesting.length ≤ 32
  hops : ∀ hop ∈ l.nesting, hop.provider ≠ [] ∧ hop.entry ≠ []
  archive : l.kind = .archive ↔ l.nesting ≠ []

/-- What `ParseResourceId` asks of an identity. -/
structure ValidId (id : ResourceId) : Prop where
  provider : id.provider ≠ []
  key : id.key ≠ []

/-- The lengths that stand before the fields of a string, digit by digit. -/
def lengths : (fuel : Nat) → Str → List Str
  | 0, _ => []
  | fuel + 1, input =>
    match takeField input with
    | some (_, rest) => input.take (input.idxOf colon) :: lengths fuel rest
    | none => []

/-- None of the lengths in a string behind a magic word has a zero in front of other digits. -/
def PlainLengths (s : Str) : Prop := ∀ ds ∈ lengths s.length (s.drop 4), Plain ds

/-! ## One field -/

variable {input rest f : Str} {ds : Str}

theorem idxOf_front (h : colon ∉ ds) (t : Str) : (ds ++ colon :: t).idxOf colon = ds.length := by
  rw [idxOf_append_of_notMem h, idxOf_cons_self, Nat.add_zero]

theorem take_front (h : colon ∉ ds) (t : Str) :
    (ds ++ colon :: t).take ((ds ++ colon :: t).idxOf colon) = ds := by
  rw [idxOf_front h, take_left]

theorem takeField_front (h : colon ∉ ds) (t : Str) :
    takeField (ds ++ colon :: t) = if ds.length = 0 ∨ ds.length > 7 then none
      else (ofDigits ds 0).bind fun size =>
        if size > t.length then none else some (t.take size, t.drop size) := by
  have hdrop : (ds ++ colon :: t).drop (ds.length + 1) = t := by
    rw [← drop_drop, drop_left]
    rfl
  have hlen : ds.length ≠ (ds ++ colon :: t).length := by
    rw [length_append, length_cons]
    omega
  unfold takeField
  dsimp only
  rw [idxOf_front h, take_left, hdrop]
  simp only [hlen, false_or]
  rfl

/-- A field that is taken stands behind its length and a colon. -/
theorem takeField_iff : takeField input = some (f, rest) ↔
    ∃ ds, input = ds ++ colon :: (f ++ rest) ∧ colon ∉ ds ∧ ds ≠ [] ∧ ds.length ≤ 7 ∧
      ofDigits ds 0 = some f.length := by
  constructor
  · intro h
    have hmem : colon ∈ input := by
      by_contra hn
      unfold takeField at h
      rw [if_pos (.inl (idxOf_eq_length_iff.mpr hn))] at h
      cases h
    obtain ⟨ds, t, rfl, hds⟩ := eq_append_cons_of_mem hmem
    rw [takeField_front hds] at h
    split at h
    · cases h
    rename_i hlen
    obtain ⟨size, hsize, h⟩ := Option.bind_eq_some_iff.mp h
    split at h
    · cases h
    rename_i hle
    cases h
    refine ⟨ds, by rw [take_append_drop], hds, fun h => hlen (.inl (by rw [h]; rfl)), by omega, ?_⟩
    rw [hsize, length_take, Nat.min_eq_left (by omega)]
  · rintro ⟨ds, rfl, hds, hne, hlen, hsize⟩
    have hpos := length_pos_iff.mpr hne
    rw [takeField_front hds, if_neg (by omega), hsize, Option.bind_some, if_neg (by simp),
      take_left, drop_left]

theorem takeField_field (h : f.length < 10 ^ 7) : takeField (field f ++ rest) = some (f, rest) := by
  refine takeField_iff.mpr ⟨decimal f.length, ?_, colon_not_mem_decimal _, decimal_ne_nil _, ?_,
    ofDigits_decimal _⟩
  · rw [field, append_assoc, cons_append]
  · rw [decimal, length_map]
    exact (Nat.length_toDigits_le_iff (by decide) (by decide)).mpr h

theorem takeNonempty_iff : takeNonempty input = some (f, rest) ↔
    takeField input = some (f, rest) ∧ f ≠ [] := by
  unfold takeNonempty
  constructor
  · intro h
    obtain ⟨out, ho, h⟩ := Option.bind_eq_some_iff.mp h
    split at h
    · cases h
    · cases h
      exact ⟨ho, ‹_›⟩
  · rintro ⟨h, hne⟩
    rw [h]
    exact if_neg hne

/-! ## A row of fields -/

/-- `input` is a row of fields; each comes with the digits of its length. -/
inductive Framed : Str → List (Str × Str) → Prop
  | nil : Framed [] []
  | cons {input f rest ps} (h : takeField input = some (f, rest)) (hrest : Framed rest ps) :
    Framed input ((input.take (input.idxOf colon), f) :: ps)

variable {ps : List (Str × Str)}

theorem framed_flatMap {fs : List Str} (h : ∀ f ∈ fs, f.length < 10 ^ 7) :
    ∃ ps, Framed (fs.flatMap field) ps ∧ ps.map Prod.snd = fs := by
  induction fs with
  | nil => exact ⟨[], .nil, rfl⟩
  | cons f fs ih =>
    obtain ⟨ps, hps, hsnd⟩ := ih fun g hg => h g (mem_cons_of_mem _ hg)
    refine ⟨_, .cons (takeField_field (h f mem_cons_self)) hps, ?_⟩
    rw [map_cons, hsnd]

/-- The row that is written for the same fields is no longer, and the same one if no length has a
zero in front. -/
theorem Framed.canonical (h : Framed input ps) :
    ((ps.map Prod.snd).flatMap field).length ≤ input.length ∧
      ((ps.map Prod.snd).flatMap field = input ↔ ∀ p ∈ ps, Plain p.1) := by
  induction h with
  | nil => exact ⟨Nat.le_refl _, by simp⟩
  | @cons input f rest ps h hrest ih =>
    obtain ⟨hle, hiff⟩ := ih
    obtain ⟨ds, rfl, hds, hne, -, hsize⟩ := takeField_iff.mp h
    have hdec := length_decimal_le hsize hne
    rw [take_front hds]
    simp only [map_cons, flatMap_cons, forall_mem_cons]
    refine ⟨?_, fun heq => ?_, fun ⟨hp, hall⟩ => ?_⟩
    · simp only [field, length_append, length_cons] at hle ⊢
      omega
    · rw [field, append_assoc, cons_append] at heq
      have hidx := congrArg (idxOf colon) heq
      rw [idxOf_front (colon_not_mem_decimal _), idxOf_front hds] at hidx
      obtain ⟨h1, h2⟩ := append_inj heq hidx
      exact ⟨(decimal_eq_iff hsize).mp h1, hiff.mp (append_cancel_left (cons.inj h2).2)⟩
    · rw [field, (decimal_eq_iff hsize).mpr hp, hiff.mpr hall, append_assoc, cons_append]

theorem Framed.length_le (h : Framed input ps) : ps.length ≤ input.length := by
  induction h with
  | nil => exact Nat.le_refl _
  | @cons input f rest ps h hrest ih =>
    obtain ⟨ds, rfl, -, hne, -, -⟩ := takeField_iff.mp h
    simp only [length_cons, length_append]
    omega

theorem Framed.lengths_eq (h : Framed input ps) {fuel : Nat} (hfuel : ps.length ≤ fuel) :
    lengths fuel input = ps.map Prod.fst := by
  induction h generalizing fuel with
  | nil => cases fuel <;> rfl
  | @cons input f rest ps h hrest ih =>
    obtain ⟨fuel, rfl⟩ : ∃ n, fuel = n + 1 := ⟨fuel - 1, by rw [length_cons] at hfuel; omega⟩
    rw [lengths, h]
    exact congrArg _ (ih (by rw [length_cons] at hfuel; omega))

theorem Framed.ne_nil (h : takeField input = some (f, rest)) : input ≠ [] := by
  obtain ⟨ds, rfl, -, -, -, -⟩ := takeField_iff.mp h
  simp

/-- A row with a first field. -/
theorem framed_cons {x : Str} {xs : List Str} :
    (∃ ps, Framed input ps ∧ ps.map Prod.snd = x :: xs) ↔
      ∃ rest, takeField input = some (x, rest) ∧ ∃ ps, Framed rest ps ∧ ps.map Prod.snd = xs := by
  constructor
  · rintro ⟨ps, h, hps⟩
    cases h with
    | nil => cases hps
    | cons h hrest =>
      obtain ⟨rfl, hxs⟩ := cons.inj hps
      exact ⟨_, h, _, hrest, hxs⟩
  · rintro ⟨rest, h, ps, hrest, rfl⟩
    exact ⟨_, .cons h hrest, rfl⟩

theorem framed_nil : (∃ ps, Framed input ps ∧ ps.map Prod.snd = []) ↔ input = [] := by
  constructor
  · rintro ⟨ps, h, hps⟩
    cases h with
    | nil => rfl
    | cons => cases hps
  · rintro rfl
    exact ⟨[], .nil, rfl⟩

/-! ## What is accepted -/

theorem parseHops_iff {room : Nat} {hops : List ContainerHop} :
    parseHops room input = some hops ↔
      (∃ ps, Framed input ps ∧ ps.map Prod.snd = hops.flatMap hopFields) ∧ hops.length ≤ room ∧
        ∀ hop ∈ hops, hop.provider ≠ [] ∧ hop.entry ≠ [] := by
  induction room generalizing input hops with
  | zero =>
    cases input with
    | nil =>
      constructor
      · intro h
        cases h
        exact ⟨framed_nil.mpr rfl, Nat.le_refl _, fun _ h => absurd h not_mem_nil⟩
      · rintro ⟨-, hlen, -⟩
        rw [length_eq_zero_iff.mp (Nat.le_zero.mp hlen)]
        rfl
    | cons c cs =>
      refine ⟨fun h => (by cases h), ?_⟩
      rintro ⟨hps, hlen, -⟩
      rw [length_eq_zero_iff.mp (Nat.le_zero.mp hlen)] at hps
      cases framed_nil.mp hps
  | succ room ih =>
    cases hops with
    | nil =>
      rw [flatMap_nil, framed_nil]
      constructor
      · intro h
        cases input with
        | nil => exact ⟨rfl, Nat.zero_le _, fun _ h => absurd h not_mem_nil⟩
        | cons c cs =>
          exfalso
          rw [parseHops] at h
          obtain ⟨⟨p, r1⟩, -, h⟩ := Option.bind_eq_some_iff.mp h
          obtain ⟨⟨e, r2⟩, -, h⟩ := Option.bind_eq_some_iff.mp h
          obtain ⟨hs, -, h⟩ := Option.bind_eq_some_iff.mp h
          cases h
      · rintro ⟨rfl, -⟩
        rfl
    | cons hop hops =>
      rw [flatMap_cons, hopFields, cons_append, cons_append, nil_append,
        framed_cons]
      constructor
      · intro h
        cases input with
        | nil => cases h
        | cons c cs =>
          rw [parseHops] at h
          obtain ⟨⟨p, r1⟩, h1, h⟩ := Option.bind_eq_some_iff.mp h
          obtain ⟨⟨e, r2⟩, h2, h⟩ := Option.bind_eq_some_iff.mp h
          obtain ⟨hs, h3, h⟩ := Option.bind_eq_some_iff.mp h
          cases h
          obtain ⟨h1, hp⟩ := takeNonempty_iff.mp h1
          obtain ⟨h2, he⟩ := takeNonempty_iff.mp h2
          obtain ⟨hps, hlen, hall⟩ := ih.mp h3
          refine ⟨⟨r1, h1, framed_cons.mpr ⟨r2, h2, hps⟩⟩, Nat.succ_le_succ hlen, ?_⟩
          exact forall_mem_cons.mpr ⟨⟨hp, he⟩, hall⟩
      · rintro ⟨⟨r1, h1, hps⟩, hlen, hall⟩
        obtain ⟨r2, h2, hps⟩ := framed_cons.mp hps
        obtain ⟨⟨hp, he⟩, hall⟩ := forall_mem_cons.mp hall
        cases input with
        | nil => exact absurd rfl (Framed.ne_nil h1)
        | cons c cs =>
          rw [parseHops, takeNonempty_iff.mpr ⟨h1, hp⟩]
          show (takeNonempty r1).bind _ = _
          rw [takeNonempty_iff.mpr ⟨h2, he⟩]
          show (parseHops room r2).bind _ = _
          rw [ih.mpr ⟨hps, Nat.le_of_succ_le_succ hlen, hall⟩]
          rfl

theorem kindOf_iff {s : Str} {kind : LocatorKind} :
    kindOf s = some kind ↔ s = toString_ (kindNumber kind) := by
  constructor
  · intro h
    unfold kindOf at h
    split at h
    · rename_i c
      split at h
      · cases h
      rename_i hc
      rw [UInt8.lt_iff_toNat_lt, UInt8.lt_iff_toNat_lt] at hc
      simp only [UInt8.reduceToNat] at hc
      obtain ⟨n, hn, hlt⟩ : ∃ n, c.toNat = 48 + n ∧ n < 5 := ⟨c.toNat - 48, by omega, by omega⟩
      have hall : ∀ n < 5, ∀ kind, locatorKinds[n]? = some kind →
          [UInt8.ofNat (48 + n)] = toString_ (kindNumber kind) := by
        intro n hn kind
        interval_cases n <;> cases kind <;> decide
      obtain rfl : c = UInt8.ofNat (48 + n) := by
        rw [← UInt8.toNat_inj, hn]
        exact (Nat.mod_eq_of_lt (by omega)).symm
      rw [hn, Nat.add_sub_cancel_left] at h
      exact hall n hlt kind h
    · cases h
  · rintro rfl
    cases kind <;> rfl

theorem parseLocatorFields_iff {l : Locator} : parseLocatorFields input = some l ↔
    (∃ ps, Framed input ps ∧ ps.map Prod.snd = locatorFields l) ∧ ValidLocator l := by
  rw [locatorFields, framed_cons]
  constructor
  · intro h
    obtain ⟨⟨kind, r1⟩, h1, h⟩ := Option.bind_eq_some_iff.mp h
    obtain ⟨k, hk, h⟩ := Option.bind_eq_some_iff.mp h
    obtain ⟨⟨root, r2⟩, h2, h⟩ := Option.bind_eq_some_iff.mp h
    obtain ⟨hops, h3, h⟩ := Option.bind_eq_some_iff.mp h
    split at h
    · cases h
    rename_i harchive
    cases h
    obtain ⟨h2, hroot⟩ := takeNonempty_iff.mp h2
    obtain ⟨hps, hlen, hall⟩ := parseHops_iff.mp h3
    obtain rfl := kindOf_iff.mp hk
    exact ⟨⟨r1, h1, framed_cons.mpr ⟨r2, h2, hps⟩⟩, hroot, hlen, hall, by tauto⟩
  · rintro ⟨⟨r1, h1, hps⟩, hroot, hlen, hall, harchive⟩
    obtain ⟨r2, h2, hps⟩ := framed_cons.mp hps
    unfold parseLocatorFields
    rw [h1]
    show (kindOf (toString_ (kindNumber l.kind))).bind _ = _
    rw [kindOf_iff.mpr rfl]
    rw [takeNonempty_iff.mpr ⟨h2, hroot⟩]
    show (parseHops 32 r2).bind _ = _
    rw [parseHops_iff.mpr ⟨hps, hlen, hall⟩]
    exact if_neg (by tauto)

theorem revision_ne : ascii "0" ≠ ascii "1" := by decide

theorem parseResourceIdFields_iff {id : ResourceId} : parseResourceIdFields input = some id ↔
    (∃ ps, Framed input ps ∧ ps.map Prod.snd = idFields id) ∧ ValidId id := by
  rw [idFields, framed_cons]
  constructor
  · intro h
    obtain ⟨⟨provider, r1⟩, h1, h⟩ := Option.bind_eq_some_iff.mp h
    obtain ⟨⟨key, r2⟩, h2, h⟩ := Option.bind_eq_some_iff.mp h
    obtain ⟨⟨scope, r3⟩, h3, h⟩ := Option.bind_eq_some_iff.mp h
    obtain ⟨h1, hprovider⟩ := takeNonempty_iff.mp h1
    obtain ⟨h2, hkey⟩ := takeNonempty_iff.mp h2
    dsimp only at h
    split at h
    · cases h
    rename_i hscope
    obtain ⟨⟨revision, r4⟩, h4, h⟩ := Option.bind_eq_some_iff.mp h
    dsimp only at h
    split at h
    · cases h
    rename_i hrevision
    have hs : scope =
        scopeField (if scope = ascii "p" then .persistent else .navigationSession) := by
      split
      · assumption
      · exact not_not.mp fun hne => hscope ⟨‹_›, hne⟩
    have hrow : ∀ token, (∃ ps, Framed r4 ps ∧ ps.map Prod.snd = token) →
        ∃ rest, takeField input = some (provider, rest) ∧ ∃ ps, Framed rest ps ∧
          ps.map Prod.snd = key :: scope :: revision :: token := fun token ht =>
      ⟨r1, h1, framed_cons.mpr ⟨r2, h2, framed_cons.mpr ⟨r3, h3, framed_cons.mpr ⟨r4, h4, ht⟩⟩⟩⟩
    split at h
    · rename_i hone
      obtain ⟨⟨token, r5⟩, h5, h⟩ := Option.bind_eq_some_iff.mp h
      split at h
      · cases h
      rename_i hend
      cases h
      have ht := hrow [token] (framed_cons.mpr ⟨r5, h5, framed_nil.mpr (not_not.mp hend)⟩)
      rw [hone] at ht
      exact ⟨by dsimp only; rw [← hs]; exact ht, hprovider, hkey⟩
    · rename_i hone
      split at h
      · cases h
      rename_i hend
      cases h
      have ht := hrow [] (framed_nil.mpr (not_not.mp hend))
      rw [show revision = ascii "0" from not_not.mp fun hne => hrevision ⟨hne, hone⟩] at ht
      exact ⟨by dsimp only; rw [← hs]; exact ht, hprovider, hkey⟩
  · obtain ⟨provider, key, scope, revision⟩ := id
    rintro ⟨⟨r1, h1, hps⟩, hprovider, hkey⟩
    obtain ⟨r2, h2, hps⟩ := framed_cons.mp hps
    obtain ⟨r3, h3, hps⟩ := framed_cons.mp hps
    have hscope : ¬ (scopeField scope ≠ ascii "p" ∧ scopeField scope ≠ ascii "s") := by
      cases scope <;> decide
    have hback : (if scopeField scope = ascii "p" then IdentityScope.persistent
        else .navigationSession) = scope := by
      cases scope <;> rfl
    have hend : ¬ (([] : Str) ≠ []) := fun h => h rfl
    have e1 := takeNonempty_iff.mpr ⟨h1, hprovider⟩
    have e2 := takeNonempty_iff.mpr ⟨h2, hkey⟩
    cases revision with
    | none =>
      obtain ⟨r4, h4, hps⟩ := framed_cons.mp hps
      obtain rfl := framed_nil.mp hps
      have hzero : ¬ (ascii "0" ≠ ascii "0" ∧ ascii "0" ≠ ascii "1") := by decide
      simp only [parseResourceIdFields, e1, e2, h3, h4, Option.bind_eq_bind, Option.bind_some,
        if_neg hscope, if_neg hzero, if_neg revision_ne, hback, if_neg hend]
    | some token =>
      obtain ⟨r4, h4, hps⟩ := framed_cons.mp hps
      obtain ⟨r5, h5, hps⟩ := framed_cons.mp hps
      obtain rfl := framed_nil.mp hps
      have hone : ¬ (ascii "1" ≠ ascii "0" ∧ ascii "1" ≠ ascii "1") := by decide
      simp only [parseResourceIdFields, e1, e2, h3, h4, h5, Option.bind_eq_bind, Option.bind_some,
        if_neg hscope, if_neg hone, if_true, hback, if_neg hend]

/-! ## Both formats -/

section Format

variable {α : Type} {magic : Str} {invalid : Error} {parse : Str → Option α} {fields : α → List Str}
  {Valid : α → Prop} (hparse : ∀ input a, parse input = some a ↔
    (∃ ps, Framed input ps ∧ ps.map Prod.snd = fields a) ∧ Valid a)

include hparse

theorem parseWith_serialize {a : α} (h : Valid a)
    (hlen : (magic ++ (fields a).flatMap field).length ≤ codecMaximum) :
    parseWith magic invalid parse (magic ++ (fields a).flatMap field) = .ok a := by
  have hsmall : ∀ f ∈ fields a, f.length < 10 ^ 7 := by
    intro f hf
    have h1 := length_le_flatMap (f := field) hf
    have h2 : f.length ≤ (field f).length := by
      simp only [field, length_append, length_cons]
      omega
    unfold codecMaximum at hlen
    rw [length_append] at hlen
    omega
  obtain ⟨ps, hps, hsnd⟩ := framed_flatMap hsmall
  unfold parseWith
  rw [if_neg, drop_left, (hparse _ a).mpr ⟨⟨ps, hps, hsnd⟩, h⟩]
  rintro (h | h)
  · omega
  · have hmagic : magic.isPrefixOf (magic ++ (fields a).flatMap field) = true :=
      isPrefixOf_iff_prefix.mpr (prefix_append _ _)
    rw [hmagic] at h
    cases h

/-- What is written for an accepted string: the same string, if its lengths have no zeros in
front. -/
theorem parseWith_canonical (hmagic : magic.length = 4) {a : α}
    (h : parseWith magic invalid parse input = .ok a) :
    parseWith magic invalid parse (magic ++ (fields a).flatMap field) = .ok a ∧
      (magic ++ (fields a).flatMap field = input ↔ PlainLengths input) := by
  unfold parseWith at h
  split at h
  · cases h
  rename_i hin
  split at h
  · rename_i b hb
    cases h
    obtain ⟨⟨ps, hps, hsnd⟩, hvalid⟩ := (hparse _ a).mp hb
    have hprefix : magic <+: input := isPrefixOf_iff_prefix.mp
      (Bool.of_not_eq_false fun hf => hin (.inr hf))
    obtain ⟨body, rfl⟩ := hprefix
    rw [drop_left] at hps
    obtain ⟨hle, hiff⟩ := hps.canonical
    rw [hsnd] at hle hiff
    have hlen : ¬ (magic ++ body).length > codecMaximum := fun hf => hin (.inl hf)
    rw [length_append] at hlen
    refine ⟨parseWith_serialize hparse hvalid (by rw [length_append]; omega), ?_⟩
    rw [PlainLengths, ← hmagic, drop_left, hps.lengths_eq, append_right_inj, hiff,
      forall_mem_map]
    have := hps.length_le
    rw [length_append]
    omega
  · cases h

end Format

theorem flatMap_field_injective : Function.Injective fun fs : List Str => fs.flatMap field := by
  intro fs gs h
  induction fs generalizing gs with
  | nil =>
    cases gs with
    | nil => rfl
    | cons g gs =>
      exact absurd (append_eq_nil_iff.mp h.symm).1 (field_ne_nil g)
  | cons f fs ih =>
    cases gs with
    | nil =>
      exact absurd (append_eq_nil_iff.mp h).1 (field_ne_nil f)
    | cons g gs =>
      obtain ⟨hfg, hrest⟩ := field_append_inj h
      rw [hfg, ih hrest]

theorem hopFields_injective :
    Function.Injective fun hops : List ContainerHop => hops.flatMap hopFields := by
  intro as bs h
  induction as generalizing bs with
  | nil => cases bs with
    | nil => rfl
    | cons b bs => cases h
  | cons a as ih => cases bs with
    | nil => cases h
    | cons b bs =>
      obtain ⟨ap, ae⟩ := a
      obtain ⟨bp, be⟩ := b
      obtain ⟨hp, he⟩ := cons.inj h
      obtain ⟨he, hrest⟩ := cons.inj he
      simp only at hp he
      rw [ih hrest, hp, he]

theorem locatorFields_injective : Function.Injective locatorFields := by
  intro l m h
  obtain ⟨k, root, hops⟩ := l
  obtain ⟨k', root', hops'⟩ := m
  obtain ⟨hkind, h⟩ := cons.inj h
  obtain ⟨hroot, hnesting⟩ := cons.inj h
  obtain rfl : k = k' := Option.some.inj ((kindOf_iff.mpr rfl).symm.trans (kindOf_iff.mpr hkind))
  obtain rfl : hops = hops' := hopFields_injective hnesting
  simp only at hroot
  rw [hroot]

theorem idFields_injective : Function.Injective idFields := by
  intro a b h
  obtain ⟨pa, ka, sa, ra⟩ := a
  obtain ⟨pb, kb, sb, rb⟩ := b
  obtain ⟨hprovider, h⟩ := cons.inj h
  obtain ⟨hkey, h⟩ := cons.inj h
  obtain ⟨hscope, h⟩ := cons.inj h
  simp only at hprovider hkey hscope h
  obtain rfl : sa = sb := by
    cases sa <;> cases sb <;> first | rfl | cases hscope
  obtain rfl : ra = rb := by
    cases ra with
    | none => cases rb with
      | none => rfl
      | some t => cases (cons.inj h).2
    | some t => cases rb with
      | none => cases (cons.inj h).2
      | some u => rw [(cons.inj (cons.inj (cons.inj h).2).2).1]
  rw [hprovider, hkey]

/-- Both codecs, within the size that is read. A value comes back from its string, and no two
values share one. An accepted string is written again in a form that is read as the same value; it
is the same string if and only if none of its lengths has a zero in front of other digits. -/
theorem codecs_exact :
    (∀ l, ValidLocator l → (serializeLocator l).length ≤ codecMaximum →
      parseLocator (serializeLocator l) = .ok l) ∧
    Function.Injective serializeLocator ∧
    (∀ s l, parseLocator s = .ok l → parseLocator (serializeLocator l) = .ok l ∧
      (serializeLocator l = s ↔ PlainLengths s)) ∧
    (∀ id, ValidId id → (serializeResourceId id).length ≤ codecMaximum →
      parseResourceId (serializeResourceId id) = .ok id) ∧
    Function.Injective serializeResourceId ∧
    ∀ s id, parseResourceId s = .ok id → parseResourceId (serializeResourceId id) = .ok id ∧
      (serializeResourceId id = s ↔ PlainLengths s) := by
  refine ⟨fun l => parseWith_serialize fun _ _ => parseLocatorFields_iff, fun l m h => ?_,
    fun s l => parseWith_canonical (fun _ _ => parseLocatorFields_iff) rfl,
    fun id => parseWith_serialize fun _ _ => parseResourceIdFields_iff, fun a b h => ?_,
    fun s id => parseWith_canonical (fun _ _ => parseResourceIdFields_iff) rfl⟩
  · exact locatorFields_injective (flatMap_field_injective (append_cancel_left h))
  · exact idFields_injective (flatMap_field_injective (append_cancel_left h))

/-- An entry of an archive whose root contains a colon. -/
theorem codecs_exact_archive :
    parseLocator (serializeLocator ⟨.archive, ascii "C:/a.zip", [⟨ascii "zip", ascii "1:x"⟩]⟩) =
      .ok ⟨.archive, ascii "C:/a.zip", [⟨ascii "zip", ascii "1:x"⟩]⟩ :=
  codecs_exact.1 _ ⟨by decide, by decide, by decide, by decide⟩ (by decide)

/-- The length of the root has a zero in front. -/
theorem zero_in_front : parseLocator (ascii "hcl11:001:C") = .ok ⟨.local_, ascii "C", []⟩ ∧
    serializeLocator ⟨.local_, ascii "C", []⟩ ≠ ascii "hcl11:001:C" := by
  refine ⟨by decide, by decide⟩

end Hc.Storage.LocatorCodec
