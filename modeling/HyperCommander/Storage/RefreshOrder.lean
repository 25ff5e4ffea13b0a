import HyperCommander.Lib.Decimal
import HyperCommander.Storage.Listing

/-!
# Refreshing keeps the order (`UniqueLibs/directoryRefreshOrder.hpp`)

The entries of the old listing are numbered in a hint. Both listings are sorted by the key of their
entries and joined: an entry whose key is in the old listing takes over the hint, the others are
numbered behind them. Then the hints give the order.

* `next_enumerates` of the two cursors: what they enumerate, as a list.
* `joined_tagged`: the hint that an entry gets.
* `appendNewEntries_keeps_order`: the known entries first, in the old order, and the new ones
  behind.
-/

namespace Hc.Storage.Refresh

open List Bytes Slice Selection Listing Operations.DurableLog DataStream

/-- `OrderHint`. -/
def orderHint : Str := "hc.refreshOrder".toList.map fun c => UInt8.ofNat c.toNat

/-- `QString::toULongLong` of what `to_string` writes; zero for any other text. -/
def toULongLong (text : Str) : Nat :=
  match Decimal.ofDigits text 0 with
  | some n => if n < 2 ^ 64 then n else 0
  | none => 0

/-- `hints_[OrderHint] = …`. -/
def hint (e : EntrySnapshot) (text : Str) : EntrySnapshot :=
  { e with hints := e.hints.set orderHint text }

/-- `Rank` of `ArrivalOrder`. -/
def rank (e : EntrySnapshot) : Nat :=
  match e.hints.find orderHint with
  | none => 0
  | some text => toULongLong text

/-- `ArrivalOrder`. -/
def arrivalOrder (a b : EntrySnapshot) : Bool := rank a < rank b

/-- Entries are numbered in their hints. -/
def numbered : Nat → List EntrySnapshot → List EntrySnapshot
  | _, [] => []
  | n, e :: rest => hint e (toString_ n) :: numbered (n + 1) rest

/-- `OrderCursor`, over an index or over rows in memory. -/
structure OrderCursor where
  index : Option Source
  rows : List EntrySnapshot
  offset : Nat := 0

/-- `JoinCursor`; `oldRest` is what is left of `oldPage_` from `oldPosition_` on. -/
structure JoinCursor where
  next : Source
  old : Source
  oldRest : List EntrySnapshot := []
  offset : Nat := 0
  oldOffset : Nat := 0
  arrival : Nat

section

variable {K : Type} [LinearOrder K]
/- `SelectionKey` reads the identity and the locator of an entry; keys are compared as strings. -/
variable (selectionKey : ResourceId → Locator → K)
variable (fault : Nat → Option Error) (limit rowSize maxPageItems maxItems : Nat)

/-- `OrderCursor::Next`. -/
def OrderCursor.read (c : OrderCursor) : Disk (EntryPage × OrderCursor) := do
  let page ← (match c.index with
    | some index => index.read fault c.offset maxItems
    | none =>
      let end_ := min c.rows.length (c.offset + maxItems)
      pure { entries := slice c.rows c.offset end_, end_ := end_ = c.rows.length })
  pure ({ page with entries := numbered c.offset page.entries },
    { c with offset := c.offset + page.entries.length })

/-- `SelectionKey`. -/
def key (e : EntrySnapshot) : K := selectionKey e.id e.locator

/-- The loop over the old entries up to a key; `fuel` bounds the number of its turns. -/
def JoinCursor.advance (k : K) : Nat → JoinCursor → Disk JoinCursor
  | 0, c => pure c
  | fuel + 1, c => do
    let c ← (if c.oldRest = [] ∧ c.oldOffset < c.old.records.count then do
      let page ← c.old.read fault c.oldOffset maxItems
      pure { c with oldRest := page.entries, oldOffset := c.oldOffset + page.entries.length }
    else pure c)
    match c.oldRest with
    | [] => pure c
    | e :: rest =>
      if key selectionKey e < k then JoinCursor.advance k fuel { c with oldRest := rest }
      else pure c

/-- The hint of an entry, from the old entry that the cursor stands before if it has the key. -/
def JoinCursor.tag (e : EntrySnapshot) (c : JoinCursor) : Disk (EntrySnapshot × JoinCursor) :=
  match c.oldRest with
  | o :: _ =>
    if key selectionKey o = key selectionKey e then
      match o.hints.find orderHint with
      | some text => pure (hint e text, c)
      -- `at` of the map throws.
      | none => throw ⟨.internal, "provider-exception", false⟩
    else pure (hint e (toString_ c.arrival), { c with arrival := c.arrival + 1 })
  | [] => pure (hint e (toString_ c.arrival), { c with arrival := c.arrival + 1 })

/-- The loop over the entries of a page. -/
def JoinCursor.join : List EntrySnapshot → JoinCursor → Disk (List EntrySnapshot × JoinCursor)
  | [], c => pure ([], c)
  | e :: rest, c => do
    let fuel := c.oldRest.length + (c.old.records.count - c.oldOffset) + 1
    let c ← c.advance selectionKey fault maxItems (key selectionKey e) fuel
    let tagged ← c.tag selectionKey e
    let joined ← JoinCursor.join rest tagged.2
    pure (tagged.1 :: joined.1, joined.2)

/-- `JoinCursor::Next`. -/
def JoinCursor.read (c : JoinCursor) : Disk (EntryPage × JoinCursor) := do
  let page ← c.next.read fault c.offset maxItems
  let joined ← JoinCursor.join selectionKey fault maxItems page.entries
    { c with offset := c.offset + page.entries.length }
  pure ({ page with entries := joined.1 }, joined.2)

/-- `ByKey`. -/
def byKey (a b : EntrySnapshot) : Bool := key selectionKey a < key selectionKey b

/-- The number of the old entries. -/
def oldCount : Option Source → List EntrySnapshot → Nat
  | some index, _ => index.records.count
  | none, rows => rows.length

/-- `AppendNewEntries`; `Build` asks for `max 1 maxPageItems` entries at a time. A page has one
entry at least, so the numbers of entries bound the pages. -/
def appendNewEntries (current : Source) (previous : Option Source)
    (previousRows : List EntrySnapshot) : Disk Source := do
  let maxItems := max 1 maxPageItems
  let old ← build fault limit (OrderCursor.read fault maxItems)
    (oldCount previous previousRows + 1) { index := previous, rows := previousRows }
  let oldKeys ← project fault rowSize (byKey selectionKey) old
  let newKeys ← project fault rowSize (byKey selectionKey) current
  let tagged ← build fault limit (JoinCursor.read selectionKey fault maxItems)
    (newKeys.records.count + 1) { next := newKeys, old := oldKeys, arrival := old.records.count }
  project fault rowSize arrivalOrder tagged

end

/-! ## Hints -/

/-- An entry without its order hint. -/
def clear (e : EntrySnapshot) : EntrySnapshot := { e with hints := e.hints.erase orderHint }

theorem clear_hint (e : EntrySnapshot) (text : Str) : clear (hint e text) = clear e := by
  simp only [clear, hint, OrdMap.erase_set]

theorem find_hint (e : EntrySnapshot) (text : Str) :
    (hint e text).hints.find orderHint = some text := OrdMap.find_set_self

theorem ofDigits_toString (n : Nat) : Decimal.ofDigits (toString_ n) 0 = some n :=
  Decimal.ofDigits_decimal n

theorem rank_hint (e : EntrySnapshot) {n : Nat} (h : n < 2 ^ 64) :
    rank (hint e (toString_ n)) = n := by
  simp only [rank, find_hint, toULongLong, ofDigits_toString, if_pos h]

theorem length_toString {n : Nat} (h : n < 2 ^ 64) : (toString_ n).length ≤ 20 := by
  rw [toString_, length_map, Nat.length_toDigits_le_iff (by decide) (by decide)]
  exact Nat.lt_trans h (by decide)

/-- A record in which a stream can hold the entry with any order hint. -/
def Roomy (e : EntrySnapshot) : Prop := (encodeEntry (clear e)).length + 64 ≤ nullLength

theorem length_encodeEntry_hint (e : EntrySnapshot) (text : Str) :
    (encodeEntry (hint e text)).length = (encodeEntry (clear e)).length + 23 + text.length := by
  have hset : (e.hints.set orderHint text).find orderHint = some text := OrdMap.find_set_self
  have hperm := OrdMap.entries_perm hset
  rw [OrdMap.erase_set] at hperm
  have hlen := (List.Perm.flatMap_right (fun h : Str × Str => put h.1 ++ put h.2) hperm).length_eq
  have hhint : orderHint.length = 15 := by decide
  rw [flatMap_cons, length_append, length_append, length_put, length_put, hhint] at hlen
  simp only [encodeEntry, encodeHints, hint, clear, length_append, length_be] at hlen ⊢
  omega

theorem fits_hint {e : EntrySnapshot} (h : Roomy e) {n : Nat} (hn : n < 2 ^ 64) :
    (encodeEntry (hint e (toString_ n))).length < nullLength := by
  have hlen := length_encodeEntry_hint e (toString_ n)
  have htext := length_toString hn
  unfold Roomy at h
  omega

theorem length_numbered (n : Nat) (entries : List EntrySnapshot) :
    (numbered n entries).length = entries.length := by
  induction entries generalizing n with
  | nil => rfl
  | cons e rest ih => rw [numbered, length_cons, ih, length_cons]

theorem numbered_append (n : Nat) (as bs : List EntrySnapshot) :
    numbered n (as ++ bs) = numbered n as ++ numbered (n + as.length) bs := by
  induction as generalizing n with
  | nil => rfl
  | cons e rest ih =>
    rw [cons_append, numbered, ih, numbered, cons_append, length_cons,
      show n + 1 + rest.length = n + (rest.length + 1) by omega]

theorem mem_numbered {n : Nat} {entries : List EntrySnapshot} {t : EntrySnapshot}
    (h : t ∈ numbered n entries) :
    ∃ e ∈ entries, ∃ m, m < n + entries.length ∧ t = hint e (toString_ m) := by
  induction entries generalizing n with
  | nil => cases h
  | cons e rest ih =>
    rw [numbered, mem_cons] at h
    rw [length_cons]
    rcases h with rfl | h
    · exact ⟨e, mem_cons_self, n, by omega, rfl⟩
    · obtain ⟨e', he', m, hm, rfl⟩ := ih h
      exact ⟨e', mem_cons_of_mem _ he', m, by omega, rfl⟩

/-! ## The cursor over the old listing -/

variable {fault : Nat → Option Error} {limit rowSize maxItems : Nat}

/-- The old listing, in an index or in memory. -/
def Previous : Option Source → List EntrySnapshot → List EntrySnapshot → Prop
  | some index, _, old => Lists index old
  | none, rows, old => rows = old

/-- What the cursor has still to give of the old listing. -/
def OrderCursor.Gives (old : List EntrySnapshot) (c : OrderCursor) (rest : List EntrySnapshot) :
    Prop :=
  Previous c.index c.rows old ∧ c.offset ≤ old.length ∧ rest = numbered c.offset (old.drop c.offset)

theorem OrderCursor.next_enumerates (old : List EntrySnapshot) (hmax : 0 < maxItems) :
    Enumerates (OrderCursor.read fault maxItems) (OrderCursor.Gives old) := by
  rintro c rest ⟨hprev, hoff, rfl⟩
  have hpage : Yields (fun _ => True) (match c.index with
      | some index => index.read fault c.offset maxItems
      | none =>
        let end_ := min c.rows.length (c.offset + maxItems)
        pure { entries := slice c.rows c.offset end_, end_ := end_ = c.rows.length })
      fun page => page.entries = slice old c.offset (c.offset + maxItems) ∧
        (page.end_ = true ↔ old.length ≤ c.offset + maxItems) := by
    cases hindex : c.index with
    | some index =>
      rw [hindex] at hprev
      exact (read_lists hprev hmax).weaken fun page h => ⟨h.1, h.2.1⟩
    | none =>
      rw [hindex] at hprev
      have hrows : c.rows = old := hprev
      rw [hrows]
      refine .pure ⟨?_, ?_⟩
      · rcases Nat.le_total old.length (c.offset + maxItems) with hle | hle
        · rw [Nat.min_eq_left hle, slice_to_length, slice,
            take_of_length_le (by rw [length_drop]; omega)]
        · rw [Nat.min_eq_right hle]
      · rw [decide_eq_true_eq]
        omega
  refine hpage.bind fun page hp => .pure ?_
  obtain ⟨hentries, hend⟩ := hp
  have hlen : page.entries.length = min (old.length - c.offset) maxItems := by
    rw [hentries, slice, length_take, length_drop]
    omega
  refine ⟨numbered (c.offset + page.entries.length) (old.drop (c.offset + page.entries.length)), ?_,
    ⟨hprev, by dsimp only; omega, rfl⟩, ?_⟩
  · dsimp only
    rw [← numbered_append]
    congr 1
    rw [hentries, ← drop_drop, slice, Nat.add_sub_cancel_left]
    have htake : (old.drop c.offset).take maxItems =
        (old.drop c.offset).take (min (old.length - c.offset) maxItems) := by
      rw [take_eq_take_iff, length_drop]
      omega
    rw [htake, length_take, length_drop, Nat.min_assoc, Nat.min_comm maxItems,
      ← Nat.min_assoc, Nat.min_self, take_append_drop]
  · dsimp only
    rw [hend, ← length_eq_zero_iff, length_numbered, length_drop]
    omega

/-! ## The join -/

section

variable {K : Type} [LinearOrder K] {selectionKey : ResourceId → Locator → K}

variable (selectionKey) in
/-- What is left of the old entries at a key. -/
def behind (old : List EntrySnapshot) (k : K) : List EntrySnapshot :=
  old.dropWhile fun o => key selectionKey o < k

variable (selectionKey) in
/-- The first of the old entries that are left, if it has the key. -/
def partner (old : List EntrySnapshot) (k : K) : Option EntrySnapshot :=
  (behind selectionKey old k).head?.filter fun o => key selectionKey o = k

variable (selectionKey) in
/-- The new entries with their hints, for the old entries that are left and the next number. -/
def joined : (old : List EntrySnapshot) → (arrival : Nat) → List EntrySnapshot → List EntrySnapshot
  | _, _, [] => []
  | old, arrival, e :: rest =>
    match partner selectionKey old (key selectionKey e) with
    | some o => hint e ((o.hints.find orderHint).getD []) ::
        joined (behind selectionKey old (key selectionKey e)) arrival rest
    | none => hint e (toString_ arrival) ::
        joined (behind selectionKey old (key selectionKey e)) (arrival + 1) rest

theorem length_joined (old : List EntrySnapshot) (arrival : Nat) (entries : List EntrySnapshot) :
    (joined selectionKey old arrival entries).length = entries.length := by
  induction entries generalizing old arrival with
  | nil => rfl
  | cons e rest ih =>
    rw [joined]
    split <;> rw [length_cons, ih, length_cons]

/-- The cursor stands before these old entries. -/
structure JoinCursor.Before (olds : List EntrySnapshot) (c : JoinCursor)
    (left : List EntrySnapshot) : Prop where
  lists : Lists c.old olds
  hinted : ∀ o ∈ olds, o.hints.find orderHint ≠ none
  offset : c.oldOffset ≤ olds.length
  left : left = c.oldRest ++ olds.drop c.oldOffset
  sub : ∀ o ∈ c.oldRest, o ∈ olds

/-- What the loop over the old entries leaves alone. -/
def JoinCursor.Same (c c' : JoinCursor) : Prop :=
  c'.next = c.next ∧ c'.offset = c.offset ∧ c'.arrival = c.arrival

theorem slice_append_drop {α : Type} (l : List α) (a n : Nat) :
    slice l a (a + n) ++ l.drop (a + (slice l a (a + n)).length) = l.drop a := by
  rw [← drop_drop, slice, Nat.add_sub_cancel_left, length_take, length_drop]
  rcases Nat.le_total n (l.length - a) with hle | hle
  · rw [Nat.min_eq_left hle, take_append_drop]
  · have hnil : (l.drop a).drop (l.length - a) = [] :=
      drop_of_length_le (by rw [length_drop])
    rw [Nat.min_eq_right hle, take_of_length_le (by rw [length_drop]; exact hle), hnil,
      append_nil]

variable {olds left entries old tagged : List EntrySnapshot} {c : JoinCursor}
  {e t : EntrySnapshot}

/-- The next old page is read when the last one is used up. -/
theorem load_yields (hmax : 0 < maxItems) (h : c.Before olds left) :
    Yields (fun _ => True) (if c.oldRest = [] ∧ c.oldOffset < c.old.records.count then do
        let page ← c.old.read fault c.oldOffset maxItems
        pure { c with oldRest := page.entries, oldOffset := c.oldOffset + page.entries.length }
      else pure c) fun c' =>
        c'.Before olds left ∧ c.Same c' ∧ (c'.oldRest = [] → left = []) := by
  have hcount := h.lists.count
  refine .ite (fun hload => ?_) fun hkeep => ?_
  · refine (read_lists h.lists hmax).bind fun page ⟨hpage, _, _⟩ => .pure ?_
    have hlen : page.entries.length = min (olds.length - c.oldOffset) maxItems := by
      rw [hpage, slice, length_take, length_drop]
      omega
    have hleft : left = page.entries ++ olds.drop (c.oldOffset + page.entries.length) := by
      rw [h.left, hload.1, nil_append, hpage, slice_append_drop]
    refine ⟨⟨h.lists, h.hinted, by dsimp only; omega, hleft, fun o ho => ?_⟩, ⟨rfl, rfl, rfl⟩,
      fun hnil => ?_⟩
    · dsimp only at ho
      rw [hpage] at ho
      exact mem_of_mem_drop (mem_of_mem_take ho)
    · have hzero : page.entries.length = 0 := by
        dsimp only at hnil
        rw [hnil]
        rfl
      omega
  · refine .pure ⟨h, ⟨rfl, rfl, rfl⟩, fun hnil => ?_⟩
    have hdone : ¬ c.oldOffset < c.old.records.count := fun hlt => hkeep ⟨hnil, hlt⟩
    rw [h.left, hnil, nil_append, drop_of_length_le (by omega)]

theorem advance_yields (hmax : 0 < maxItems) {k : K} {fuel : Nat} (h : c.Before olds left)
    (hfuel : left.length < fuel) :
    Yields (fun _ => True) (c.advance selectionKey fault maxItems k fuel) fun c' =>
      c'.Before olds (behind selectionKey left k) ∧ c.Same c' ∧
        (c'.oldRest = [] → behind selectionKey left k = []) := by
  induction fuel generalizing c left with
  | zero => omega
  | succ fuel ih =>
    refine (load_yields hmax h).bind fun c' ⟨h', hsame, hnil⟩ => ?_
    cases hrest : c'.oldRest with
    | nil =>
      have hleft := hnil hrest
      subst hleft
      exact .pure ⟨h', hsame, fun _ => rfl⟩
    | cons o rest =>
      have hleft : left = o :: (rest ++ olds.drop c'.oldOffset) := by
        rw [h'.left, hrest, cons_append]
      refine .ite (fun hlt => ?_) fun hge => .pure ?_
      · have hdrop : behind selectionKey left k =
            behind selectionKey (rest ++ olds.drop c'.oldOffset) k := by
          rw [hleft, behind, dropWhile_cons_of_pos (by simpa using hlt)]
          rfl
        have hnext : JoinCursor.Before olds { c' with oldRest := rest }
            (rest ++ olds.drop c'.oldOffset) :=
          ⟨h'.lists, h'.hinted, h'.offset, rfl, fun p hp => h'.sub p (by
            rw [hrest]
            exact mem_cons_of_mem _ hp)⟩
        rw [hleft, length_cons] at hfuel
        rw [hdrop]
        refine (ih hnext (by omega)).weaken fun c'' ⟨h'', hs, hn⟩ => ⟨h'', ?_, hn⟩
        obtain ⟨a1, a2, a3⟩ := hsame
        obtain ⟨b1, b2, b3⟩ := hs
        exact ⟨b1.trans a1, b2.trans a2, b3.trans a3⟩
      · have hstay : behind selectionKey left k = left := by
          rw [hleft, behind, dropWhile_cons_of_neg (by simpa using hge)]
        rw [hstay]
        exact ⟨h', hsame, fun hnil' => by rw [hrest] at hnil'; cases hnil'⟩

theorem head_behind (h : c.Before olds left)
    (hnil : c.oldRest = [] → left = []) : left.head? = c.oldRest.head? := by
  cases hrest : c.oldRest with
  | nil => rw [hnil hrest]
  | cons o rest => rw [h.left, hrest, cons_append, head?_cons, head?_cons]

/-- The entry that is tagged, and the number behind it, are those of the join. -/
theorem tag_yields (h : c.Before olds (behind selectionKey left (key selectionKey e)))
    (hnil : c.oldRest = [] → behind selectionKey left (key selectionKey e) = []) :
    Yields (fun _ => True) (c.tag selectionKey e) fun tagged =>
      tagged.2.Before olds (behind selectionKey left (key selectionKey e)) ∧
        tagged.2.next = c.next ∧ tagged.2.offset = c.offset ∧
        ∀ more, joined selectionKey left c.arrival (e :: more) = tagged.1 ::
          joined selectionKey (behind selectionKey left (key selectionKey e))
            tagged.2.arrival more := by
  have hhead := head_behind h hnil
  have hfresh : partner selectionKey left (key selectionKey e) = none →
      JoinCursor.Before olds { c with arrival := c.arrival + 1 }
          (behind selectionKey left (key selectionKey e)) ∧ c.next = c.next ∧ c.offset = c.offset ∧
        ∀ more, joined selectionKey left c.arrival (e :: more) = hint e (toString_ c.arrival) ::
          joined selectionKey (behind selectionKey left (key selectionKey e))
            (c.arrival + 1) more :=
    fun hnone => ⟨⟨h.lists, h.hinted, h.offset, h.left, h.sub⟩, rfl, rfl, fun more => by
      rw [joined, hnone]⟩
  obtain ⟨next, old, oldRest, offset, oldOffset, arrival⟩ := c
  cases oldRest with
  | nil => exact .pure (hfresh (by rw [partner, hhead]; rfl))
  | cons o _ =>
    rw [head?_cons] at hhead
    refine .ite (fun hkey => ?_) fun hkey => ?_
    · cases hfind : o.hints.find orderHint with
      | none => exact .fail trivial
      | some text =>
        have hpartner : partner selectionKey left (key selectionKey e) = some o := by
          rw [partner, hhead, Option.filter_some, if_pos (by simpa using hkey)]
        exact .pure ⟨h, rfl, rfl, fun more => by
          rw [joined, hpartner]
          simp only [hfind, Option.getD_some]⟩
    · exact .pure (hfresh (by
        rw [partner, hhead, Option.filter_some, if_neg (by simpa using hkey)]))

/-- The entries of a page are joined, and those behind it will be with what is left. -/
theorem join_yields (hmax : 0 < maxItems) (h : c.Before olds left) :
    Yields (fun _ => True) (JoinCursor.join selectionKey fault maxItems entries c) fun out =>
      ∃ left', out.2.Before olds left' ∧ out.2.next = c.next ∧ out.2.offset = c.offset ∧
        out.1.length = entries.length ∧
        ∀ more, joined selectionKey left c.arrival (entries ++ more) =
          out.1 ++ joined selectionKey left' out.2.arrival more := by
  induction entries generalizing c left with
  | nil => exact .pure ⟨left, h, rfl, rfl, rfl, fun _ => rfl⟩
  | cons e rest ih =>
    have hcount := h.lists.count
    have hleft := congrArg length h.left
    rw [length_append, length_drop] at hleft
    refine (advance_yields hmax h (by omega)).bind fun c₁ ⟨h₁, ⟨hnext, hoffset, harr⟩, hnil⟩ => ?_
    refine (tag_yields h₁ hnil).bind fun tagged ⟨h₂, hn, ho, hjoin⟩ => ?_
    rw [hnext] at hn
    rw [hoffset] at ho
    rw [harr] at hjoin
    refine (ih h₂).bind fun out ⟨left', h₃, hn', ho', hlen, hall⟩ => .pure ?_
    refine ⟨left', h₃, hn'.trans hn, ho'.trans ho, ?_, fun more => ?_⟩
    · rw [length_cons, hlen, length_cons]
    · rw [cons_append, hjoin, hall, cons_append]

variable (selectionKey) in
/-- What the join has still to give, for sorted new and old entries. -/
def JoinCursor.Gives (news olds : List EntrySnapshot) (c : JoinCursor) (rest : List EntrySnapshot) :
    Prop :=
  Lists c.next news ∧ c.offset ≤ news.length ∧ ∃ left, c.Before olds left ∧
    rest = joined selectionKey left c.arrival (news.drop c.offset)

theorem JoinCursor.next_enumerates (news olds : List EntrySnapshot) (hmax : 0 < maxItems) :
    Enumerates (JoinCursor.read selectionKey fault maxItems)
      (JoinCursor.Gives selectionKey news olds) := by
  rintro c rest ⟨hnews, hoff, left, hbefore, rfl⟩
  refine (read_lists hnews hmax).bind fun page hp => ?_
  obtain ⟨hentries, hend, -⟩ := hp
  have hlen : page.entries.length = min (news.length - c.offset) maxItems := by
    rw [hentries, slice, length_take, length_drop]
    omega
  have hpage : JoinCursor.Before olds { c with offset := c.offset + page.entries.length } left :=
    ⟨hbefore.lists, hbefore.hinted, hbefore.offset, hbefore.left, hbefore.sub⟩
  refine (join_yields hmax hpage).bind fun out ho => .pure ?_
  obtain ⟨left', h', hnext, hoffset, hout, hall⟩ := ho
  refine ⟨joined selectionKey left' out.2.arrival (news.drop (c.offset + page.entries.length)), ?_,
    ⟨?_, ?_, left', h', ?_⟩, ?_⟩
  · dsimp only
    rw [← hall, hentries, slice_append_drop]
  · rw [hnext]
    exact hnews
  · rw [hoffset]
    dsimp only
    omega
  · rw [hoffset]
  · dsimp only
    rw [hend, ← length_eq_zero_iff, length_joined, length_drop]
    omega

/-! ## The ranks -/

variable (selectionKey) in
/-- Entries in the order of their keys. -/
def Sorted (entries : List EntrySnapshot) : Prop :=
  entries.Pairwise fun a b => key selectionKey a ≤ key selectionKey b

theorem Sorted.behind (h : Sorted selectionKey old) (k : K) :
    Sorted selectionKey (behind selectionKey old k) :=
  List.Pairwise.sublist (dropWhile_sublist _) h

theorem partner_eq_find (h : Sorted selectionKey old) (k : K) :
    partner selectionKey old k = old.find? fun o => key selectionKey o = k := by
  induction old with
  | nil => rfl
  | cons o rest ih =>
    obtain ⟨ho, hrest⟩ := pairwise_cons.mp h
    rcases lt_trichotomy (key selectionKey o) k with hlt | heq | hgt
    · rw [find?_cons_of_neg (by simpa using hlt.ne), ← ih hrest, partner, partner, Refresh.behind,
        dropWhile_cons_of_pos (by simpa using hlt)]
      rfl
    · rw [find?_cons_of_pos (by simpa using heq), partner, Refresh.behind,
        dropWhile_cons_of_neg (by simp [heq]), head?_cons, Option.filter_some,
        if_pos (by simpa using heq)]
    · have hnone : (o :: rest).find? (fun o => key selectionKey o = k) = none := by
        rw [find?_eq_none]
        intro p hp
        have hle : key selectionKey o ≤ key selectionKey p := by
          rcases mem_cons.mp hp with rfl | hp
          · exact le_refl _
          · exact ho p hp
        simpa using (hgt.trans_le hle).ne'
      rw [hnone, partner, Refresh.behind, dropWhile_cons_of_neg (by simpa using hgt.le),
        head?_cons, Option.filter_some, if_neg (by simpa using hgt.ne')]

theorem find_behind (old : List EntrySnapshot) {k k' : K} (h : k ≤ k') :
    (behind selectionKey old k).find? (fun o => key selectionKey o = k') =
      old.find? fun o => key selectionKey o = k' := by
  induction old with
  | nil => rfl
  | cons o rest ih =>
    rcases lt_or_ge (key selectionKey o) k with hlt | hge
    · rw [find?_cons_of_neg (by simpa using (hlt.trans_le h).ne), ← ih, behind,
        dropWhile_cons_of_pos (by simpa using hlt)]
      rfl
    · rw [behind, dropWhile_cons_of_neg (by simpa using hge)]

variable (selectionKey) in
/-- The hint of an entry: that of the first of `old` with its key, or a number of the range. -/
def Tagged (old : List EntrySnapshot) (low high : Nat) (e t : EntrySnapshot) : Prop :=
  match old.find? fun o => key selectionKey o = key selectionKey e with
  | some o => t = hint e ((o.hints.find orderHint).getD [])
  | none => ∃ n, low ≤ n ∧ n < high ∧ t = hint e (toString_ n)

/-- The join of sorted entries gives each of them the hint of its partner or a number of its own. -/
theorem joined_tagged {full old entries : List EntrySnapshot} {low arrival high : Nat}
    (hold : Sorted selectionKey old) (hentries : Sorted selectionKey entries)
    (hfind : ∀ e ∈ entries, old.find? (fun o => key selectionKey o = key selectionKey e) =
      full.find? fun o => key selectionKey o = key selectionKey e)
    (hlow : low ≤ arrival) (hhigh : arrival + entries.length ≤ high) :
    List.Forall₂ (Tagged selectionKey full low high) entries
      (joined selectionKey old arrival entries) := by
  induction entries generalizing old arrival with
  | nil => exact .nil
  | cons e rest ih =>
    obtain ⟨he, hrest⟩ := pairwise_cons.mp hentries
    obtain ⟨hfe, hfrest⟩ := forall_mem_cons.mp hfind
    rw [length_cons] at hhigh
    have hnext : ∀ e' ∈ rest, (behind selectionKey old (key selectionKey e)).find?
        (fun o => key selectionKey o = key selectionKey e') =
          full.find? fun o => key selectionKey o = key selectionKey e' := fun e' he' => by
      rw [find_behind old (he e' he'), hfrest e' he']
    rw [joined, partner_eq_find hold, hfe]
    cases hf : full.find? fun o => key selectionKey o = key selectionKey e with
    | some o =>
      refine .cons ?_ (ih (hold.behind _) hrest hnext hlow (by omega))
      rw [Tagged, hf]
    | none =>
      refine .cons ?_ (ih (hold.behind _) hrest hnext (by omega) (by omega))
      rw [Tagged, hf]
      exact ⟨arrival, hlow, by omega, rfl⟩

variable (selectionKey) in
theorem find_numbered (n : Nat) (old : List EntrySnapshot) (k : K) :
    (k ∉ old.map (key selectionKey) →
      (numbered n old).find? (fun o => key selectionKey o = k) = none) ∧
    (k ∈ old.map (key selectionKey) →
      ∃ e ∈ old, (numbered n old).find? (fun o => key selectionKey o = k) =
        some (hint e (toString_ (n + (old.map (key selectionKey)).idxOf k)))) := by
  induction old generalizing n with
  | nil => exact ⟨fun _ => rfl, nofun⟩
  | cons e rest ih =>
    have hkey : key selectionKey (hint e (toString_ n)) = key selectionKey e := rfl
    rw [map_cons, numbered]
    by_cases he : key selectionKey e = k
    · refine ⟨fun h => absurd (by rw [he]; exact mem_cons_self) h, fun _ => ⟨e, mem_cons_self, ?_⟩⟩
      rw [find?_cons_of_pos (by simpa [hkey] using he), he, idxOf_cons_self, Nat.add_zero]
    · obtain ⟨hnone, hsome⟩ := ih (n + 1)
      rw [find?_cons_of_neg (by simpa [hkey] using he), idxOf_cons_ne _ he, mem_cons,
        or_iff_right (Ne.symm he)]
      refine ⟨hnone, fun h => ?_⟩
      obtain ⟨e', he', hf⟩ := hsome h
      refine ⟨e', mem_cons_of_mem _ he', ?_⟩
      rw [hf]
      congr 3
      omega

/-! ## The whole refresh -/

theorem strictWeak_of {f : EntrySnapshot → K} : StrictWeak fun a b => decide (f a < f b) where
  irrefl a := by simp
  trans a b c := by
    simp only [decide_eq_true_eq]
    exact lt_trans
  incomparable a b c := by
    simp only [decide_eq_false_iff_not, not_lt]
    exact fun h1 h2 h3 h4 => ⟨h3.trans h1, h2.trans h4⟩

theorem pairwise_sorted {K : Type} [LinearOrder K] {f : EntrySnapshot → K}
    (entries : List EntrySnapshot) :
    (entries.insertionSort fun a b => decide (f b < f a) = false).Pairwise fun a b =>
      f a ≤ f b := by
  have htotal : Std.Total fun a b => decide (f b < f a) = false := ⟨fun a b => by
    simp only [decide_eq_false_iff_not, not_lt]
    exact le_total _ _⟩
  have htrans : IsTrans EntrySnapshot fun a b => decide (f b < f a) = false := ⟨fun a b c => by
    simp only [decide_eq_false_iff_not, not_lt]
    exact le_trans⟩
  exact (pairwise_insertionSort _ entries).imp fun {a b} h => by simpa using h

variable (selectionKey) in
/-- An entry of the joined listing: the number of its key among the old ones, or one behind them. -/
structure Ranked (old : List EntrySnapshot) (t : EntrySnapshot) : Prop where
  known : key selectionKey t ∈ old.map (key selectionKey) →
    rank t = (old.map (key selectionKey)).idxOf (key selectionKey t)
  fresh : key selectionKey t ∉ old.map (key selectionKey) → old.length ≤ rank t

/-- The tags of the join are ranks, when the old entries were numbered and sorted. -/
theorem ranked_of_tagged {high : Nat}
    (hhigh : high < 2 ^ 64) (hlen : old.length ≤ high) (hroomy : Roomy e)
    (h : Tagged selectionKey ((numbered 0 old).insertionSort fun a b =>
      byKey selectionKey b a = false) old.length high e t) :
    Ranked selectionKey old t ∧ clear t = clear e ∧ (encodeEntry t).length < nullLength := by
  have hsort : ((numbered 0 old).insertionSort fun a b => byKey selectionKey b a = false).find?
      (fun o => key selectionKey o = key selectionKey e) =
      (numbered 0 old).find? fun o => key selectionKey o = key selectionKey e := by
    rw [← head?_filter, ← head?_filter, StableSort.filter_insertionSort]
    intro a b ha hb
    have ha : key selectionKey a = key selectionKey e := by simpa using ha
    have hb : key selectionKey b = key selectionKey e := by simpa using hb
    simp [byKey, ha, hb]
  obtain ⟨hnone, hsome⟩ := find_numbered selectionKey 0 old (key selectionKey e)
  rw [Tagged, hsort] at h
  by_cases hk : key selectionKey e ∈ old.map (key selectionKey)
  · obtain ⟨o, -, hf⟩ := hsome hk
    have hlt := idxOf_lt_length_iff.mpr hk
    rw [length_map] at hlt
    rw [hf] at h
    dsimp only at h
    rw [find_hint, Option.getD_some, Nat.zero_add] at h
    subst h
    refine ⟨⟨fun _ => rank_hint e (by omega), fun hfresh => absurd hk hfresh⟩, clear_hint _ _,
      fits_hint hroomy (by omega)⟩
  · rw [hnone hk] at h
    obtain ⟨n, hlow, hn, rfl⟩ := h
    refine ⟨⟨fun hknown => absurd hknown hk, fun _ => ?_⟩, clear_hint _ _,
      fits_hint hroomy (by omega)⟩
    rw [rank_hint e (by omega)]
    exact hlow

theorem map_clear_of_forall₂ {R : EntrySnapshot → EntrySnapshot → Prop}
    (h : List.Forall₂ R entries tagged) (hR : ∀ e t, e ∈ entries → R e t → clear t = clear e) :
    tagged.map clear = entries.map clear := by
  induction h with
  | nil => rfl
  | cons hab _ ih =>
    rw [map_cons, map_cons, hR _ _ mem_cons_self hab,
      ih fun e t he => hR e t (mem_cons_of_mem _ he)]

theorem exists_of_forall₂ {R : EntrySnapshot → EntrySnapshot → Prop}
    (h : List.Forall₂ R entries tagged) (ht : t ∈ tagged) : ∃ e ∈ entries, R e t := by
  induction h with
  | nil => cases ht
  | cons hab _ ih =>
    rcases mem_cons.mp ht with rfl | ht
    · exact ⟨_, mem_cons_self, hab⟩
    · obtain ⟨e, he, hR⟩ := ih ht
      exact ⟨e, mem_cons_of_mem _ he, hR⟩

theorem length_lt {records : DiskRecords}
    (h : records.Holds (entries.map encodeEntry)) : entries.length < 2 ^ 62 := by
  have hfew := h.few
  have hcount := h.count
  rw [length_map] at hcount
  have hmax : maxOffset / 16 + 1 < 2 ^ 62 := by decide
  omega

/-- The known entries in the old order, and the others behind them. -/
structure KeepsOrder (selectionKey : ResourceId → Locator → K)
    (old known fresh : List EntrySnapshot) :
    Prop where
  mem : ∀ e ∈ known, key selectionKey e ∈ old.map (key selectionKey)
  notMem : ∀ e ∈ fresh, key selectionKey e ∉ old.map (key selectionKey)
  order : known.Pairwise fun a b =>
    (old.map (key selectionKey)).idxOf (key selectionKey a) ≤
      (old.map (key selectionKey)).idxOf (key selectionKey b)

/-- Ranked entries in the order of their ranks. -/
theorem keepsOrder_of_ranked (hr : ∀ t ∈ entries, Ranked selectionKey old t)
    (hs : entries.Pairwise fun a b => rank a ≤ rank b) :
    KeepsOrder selectionKey old (entries.filter fun t => rank t < old.length)
      (entries.filter fun t => old.length ≤ rank t) := by
  have hknown : ∀ t ∈ entries, rank t < old.length →
      key selectionKey t ∈ old.map (key selectionKey) := fun t ht hlt => by
    by_contra hk
    have := (hr t ht).fresh hk
    omega
  refine ⟨fun t ht => ?_, fun t ht hk => ?_, ?_⟩
  · obtain ⟨hmem, hlt⟩ := mem_filter.mp ht
    exact hknown t hmem (by simpa using hlt)
  · obtain ⟨hmem, hle⟩ := mem_filter.mp ht
    have hrank := (hr t hmem).known hk
    have hlt := idxOf_lt_length_iff.mpr hk
    rw [length_map, ← hrank] at hlt
    exact absurd hlt (by simpa using hle)
  · refine pairwise_filter.mpr (hs.imp_of_mem fun {a b} ha hb hab h1 h2 => ?_)
    rw [← (hr a ha).known (hknown a ha (by simpa using h1)),
      ← (hr b hb).known (hknown b hb (by simpa using h2))]
    exact hab

/-- The old entries, numbered and sorted, and the new ones, sorted, are joined and sorted by
rank. -/
theorem appendNewEntries_yields {maxPageItems : Nat} {current : Source} {previous : Option Source}
    {rows : List EntrySnapshot} (hc : Lists current entries)
    (hce : ∀ e ∈ entries, Roomy e) (hp : Previous previous rows old) (hpe : ∀ e ∈ old, Roomy e) :
    Yields (fun _ => True) (appendNewEntries selectionKey fault limit rowSize maxPageItems current
      previous rows) fun out => ∃ known fresh, Lists out (known ++ fresh) ∧
        ((known ++ fresh).map clear).Perm (entries.map clear) ∧
        KeepsOrder selectionKey old known fresh := by
  have hmax : 0 < max 1 maxPageItems := by omega
  have hcount : oldCount previous rows = old.length := by
    cases previous with
    | none => exact congrArg length hp
    | some index => exact Lists.count hp
  unfold appendNewEntries
  rw [hcount]
  have hstart : OrderCursor.Gives old { index := previous, rows := rows } (numbered 0 old) :=
    ⟨hp, Nat.zero_le _, rfl⟩
  refine (build_yields (OrderCursor.next_enumerates old hmax) hstart
    (by rw [length_numbered]; omega)).bind fun oldIndex hold => ?_
  have hlen := length_lt hold
  have holdCount : oldIndex.records.count = old.length := by
    rw [hold.count, length_map, length_numbered]
  rw [length_numbered] at hlen
  have hnumbered : Lists oldIndex (numbered 0 old) := ⟨hold, fun t ht => by
    obtain ⟨e, he, m, hm, rfl⟩ := mem_numbered ht
    exact fits_hint (hpe e he) (by omega)⟩
  refine (project_lists strictWeak_of hnumbered).bind fun oldKeys hOld => ?_
  refine (project_lists strictWeak_of hc).bind fun newKeys hNew => ?_
  generalize hS : ((numbered 0 old).insertionSort fun a b =>
    decide (key selectionKey b < key selectionKey a) = false) = olds at hOld
  generalize hN : (entries.insertionSort fun a b =>
    decide (key selectionKey b < key selectionKey a) = false) = news at hNew
  have hnewsPerm : news.Perm entries := hN ▸ perm_insertionSort _ entries
  have hcentries := length_lt hc.holds
  have hjoin : JoinCursor.Gives selectionKey news olds
      { next := newKeys, old := oldKeys, arrival := oldIndex.records.count }
      (joined selectionKey olds oldIndex.records.count news) := by
    refine ⟨hNew, Nat.zero_le _, olds, ⟨hOld, fun o ho => ?_, Nat.zero_le _, rfl,
      fun o ho => (by cases ho)⟩, rfl⟩
    rw [← hS, mem_insertionSort] at ho
    obtain ⟨e, -, m, -, rfl⟩ := mem_numbered ho
    rw [find_hint]
    exact Option.some_ne_none _
  refine (build_yields (JoinCursor.next_enumerates news olds hmax) hjoin
    (by rw [length_joined, hNew.count]; omega)).bind fun taggedIndex htagged => ?_
  have hforall : List.Forall₂
      (Tagged selectionKey olds oldIndex.records.count (oldIndex.records.count + news.length)) news
      (joined selectionKey olds oldIndex.records.count news) :=
    joined_tagged (hS ▸ pairwise_sorted (numbered 0 old)) (hN ▸ pairwise_sorted entries)
      (fun _ _ => rfl) (Nat.le_refl _) (Nat.le_refl _)
  generalize joined selectionKey olds oldIndex.records.count news = tagged at htagged hforall
  rw [holdCount] at hforall
  have hlow : old.length + news.length < 2 ^ 64 := by
    rw [hnewsPerm.length_eq]
    omega
  have hranked : ∀ e t, e ∈ news →
    Tagged selectionKey olds old.length (old.length + news.length) e t →
      Ranked selectionKey old t ∧ clear t = clear e ∧ (encodeEntry t).length < nullLength :=
    fun e t he h => ranked_of_tagged hlow (Nat.le_add_right _ _)
      (hce e (hnewsPerm.mem_iff.mp he)) (hS ▸ h)
  have hall : ∀ t ∈ tagged, Ranked selectionKey old t ∧ (encodeEntry t).length < nullLength :=
    fun t ht => by
      obtain ⟨e, he, h⟩ := exists_of_forall₂ hforall ht
      exact ⟨(hranked e t he h).1, (hranked e t he h).2.2⟩
  have hlists : Lists taggedIndex tagged := ⟨htagged, fun t ht => (hall t ht).2⟩
  refine (project_lists strictWeak_of hlists).weaken fun out hout => ?_
  have hperm := perm_insertionSort (fun a b => decide (rank b < rank a) = false) tagged
  have hsorted := pairwise_sorted (f := rank) tagged
  generalize (tagged.insertionSort fun a b => decide (rank b < rank a) = false) = result
    at hout hperm hsorted
  refine ⟨_, _, (StableSort.filter_append_filter (k := old.length) hsorted).symm ▸ hout, ?_,
    keepsOrder_of_ranked (fun t ht => (hall t (hperm.mem_iff.mp ht)).1) hsorted⟩
  rw [StableSort.filter_append_filter hsorted]
  have hclear := map_clear_of_forall₂ hforall fun e t he h => (hranked e t he h).2.1
  have hnews : (tagged.map clear).Perm (entries.map clear) := by
    rw [hclear]
    exact hnewsPerm.map clear
  exact (hperm.map clear).trans hnews

/-- Whenever `AppendNewEntries` returns, with whatever page size, the new listing is a permutation
of the current one up to the order hints: the entries whose key was in the old listing come first,
in its order, and all others follow. Every record can be refreshed again. -/
theorem appendNewEntries_keeps_order {maxPageItems clock clock' : Nat} {current out : Source}
    {previous : Option Source} {rows old entries : List EntrySnapshot} (hc : Lists current entries)
    (hce : ∀ e ∈ entries, Roomy e) (hp : Previous previous rows old) (hpe : ∀ e ∈ old, Roomy e)
    (h : (appendNewEntries selectionKey fault limit rowSize maxPageItems current previous rows).run
      clock = .ok (out, clock')) :
    ∃ known fresh, Lists out (known ++ fresh) ∧ (∀ e ∈ known ++ fresh, Roomy e) ∧
      ((known ++ fresh).map clear).Perm (entries.map clear) ∧
      (∀ e ∈ known, key selectionKey e ∈ old.map (key selectionKey)) ∧
      (∀ e ∈ fresh, key selectionKey e ∉ old.map (key selectionKey)) ∧
      known.Pairwise fun a b => (old.map (key selectionKey)).idxOf (key selectionKey a) ≤
        (old.map (key selectionKey)).idxOf (key selectionKey b) := by
  obtain ⟨known, fresh, hlists, hperm, hmem, hnotMem, horder⟩ :=
    (appendNewEntries_yields hc hce hp hpe).of_ok h
  refine ⟨known, fresh, hlists, fun e he => ?_, hperm, hmem, hnotMem, horder⟩
  obtain ⟨e', he', hclear⟩ := mem_map.mp (hperm.mem_iff.mp (mem_map_of_mem he))
  have := hce e' he'
  rwa [Roomy, hclear] at this

end

/-- Two entries that differ in their keys. -/
def entryNamed (name : UInt8) : EntrySnapshot :=
  { id := { key := [name], scope := .persistent }, name := [name] }

/-- The records of an index of two entries, as `Build` writes them. -/
def twoEntries : Source :=
  match (do
    let r ← DiskRecords.append (fun _ => none) {} (encodeEntry (entryNamed 98))
    r.append (fun _ => none) (encodeEntry (entryNamed 97)) : Disk DiskRecords).run 0 with
  | .ok (r, _) => ⟨r, none⟩
  | .error _ => ⟨{}, none⟩

theorem twoEntries_lists : Lists twoEntries [entryNamed 98, entryNamed 97] where
  holds := by
    have hrun : (do
        let r ← DiskRecords.append (fun _ => none) {} (encodeEntry (entryNamed 98))
        r.append (fun _ => none) (encodeEntry (entryNamed 97)) : Disk DiskRecords).run 0 =
        .ok (twoEntries.records, 4) := by decide +kernel
    have hyields : Yields (fun _ => True) (do
        let r ← DiskRecords.append (fun _ => none) {} (encodeEntry (entryNamed 98))
        r.append (fun _ => none) (encodeEntry (entryNamed 97)) : Disk DiskRecords) fun r =>
          r.Holds ([entryNamed 98, entryNamed 97].map encodeEntry) :=
      (DiskRecords.append_yields .empty _).bind fun r hr => DiskRecords.append_yields hr _
    exact hyields.of_ok hrun
  fits e he := by
    have hall : ∀ e ∈ [entryNamed 98, entryNamed 97], (encodeEntry e).length < nullLength := by
      decide +kernel
    exact hall e he

theorem appendNewEntries_keeps_order_two : ∃ out clock' known fresh,
    (appendNewEntries (fun id _ => id.key) (fun _ => none) 10 100 1 twoEntries none
      [entryNamed 97]).run 0 = .ok (out, clock') ∧
    Lists out (known ++ fresh) ∧
    ((known ++ fresh).map clear).Perm ([entryNamed 98, entryNamed 97].map clear) := by
  have hok : ((appendNewEntries (fun id _ => id.key) (fun _ => none) 10 100 1 twoEntries none
      [entryNamed 97]).run 0).isOk = true := by decide +kernel
  have hroomy : ∀ e ∈ [entryNamed 98, entryNamed 97], (encodeEntry (clear e)).length + 64 ≤
      nullLength := by decide +kernel
  cases h : (appendNewEntries (fun id _ => id.key) (fun _ => none) 10 100 1 twoEntries none
      [entryNamed 97]).run 0 with
  | error e =>
    rw [h] at hok
    cases hok
  | ok out =>
    obtain ⟨known, fresh, hlists, -, hperm, -⟩ := appendNewEntries_keeps_order twoEntries_lists
      hroomy (show Previous none [entryNamed 97] [entryNamed 97] from rfl)
      (fun e he => hroomy e (mem_cons_of_mem _ he)) h
    exact ⟨out.1, out.2, known, fresh, rfl, hlists, hperm⟩

end Hc.Storage.Refresh
