import HyperCommander.Storage.LocatorCodec

/-!
# The search cursor (`commonLibs/storage/search.cpp`, `SearchCursor`)

A call of `Next` walks over the directories until its page is full. What the provider and the
context answer during the call is an input of the call (`Answer`), one answer after the other;
the call uses them up.

* `next_spec`: a page holds the matches among the entries that its call visited. A call that fails
  drops them.
* `search_pages_iff`: in every run the pages together are the visited entries that match, if and
  only if no answer that breaks a call comes after a match of the same call.
-/

namespace Hc.Storage.Search

open List LocatorCodec Operations.DurableLog

/-- `SearchScope`, without the root, which the cursor starts with. -/
structure SearchScope where
  recursive : Bool := true
  maxDepth : Nat := 32
  maxVisited : Nat := 100000

/-- `EntryPage`. -/
structure EntryPage where
  entries : List EntrySnapshot
  end_ : Bool

/-- What the outside answers: a look at the context, an enumeration, a page of a directory. -/
inductive Answer
  | check (failure : Option Error)
  | opened (failure : Option Error)
  | read (page : Except Error EntryPage)

/-- The fields of `SearchCursor`. The source keeps the number of the visited entries. -/
structure Cursor where
  pending : List (Locator × Nat)
  seen : List Str
  /-- `cursor_` is set. -/
  open_ : Bool := false
  depth : Nat := 0
  visited : List EntrySnapshot := []
  ended : Bool := false
  partial_ : Bool := false

/-- `SearchPage`. -/
structure SearchPage where
  found : List EntrySnapshot
  warnings : List Error
  visited : Nat
  end_ : Bool
  partial_ : Bool

/-- A call under way: the cursor, and what its page has so far. -/
structure Scan where
  cursor : Cursor
  found : List EntrySnapshot := []
  warnings : List Error := []
  scanned : Nat := 0

/-- The constructor. -/
def Cursor.new (root : Locator) : Cursor :=
  { pending := [(root, 0)], seen := [serializeLocator root] }

def budgetExceeded (code : String) : Error := ⟨.budgetExceeded, code, false⟩

/-- The reparse attribute. -/
def isReparse (e : EntrySnapshot) : Bool := e.attributes &&& 0x400 != 0

/-- A call of `Next`; `busy` if another one is under way. -/
structure Call where
  busy : Bool := false
  maxItems : Nat
  maxPageItems : Nat := 256
  answers : List Answer

/-- `Limit`. -/
def Call.limit (c : Call) : Nat := min (min c.maxItems c.maxPageItems) 256

section Call

variable (scope : SearchScope) (matcher : EntrySnapshot → Bool) (limit : Nat)

/-- The visit limit is reached. -/
def Scan.full (k : Scan) : Scan :=
  { k with
    cursor := { k.cursor with partial_ := true, ended := true }
    warnings := k.warnings ++ [budgetExceeded "search-visit-limit"] }

/-- A directory that can be walked into: it waits its turn, once. -/
def Scan.descend (k : Scan) (e : EntrySnapshot) : Scan :=
  if k.cursor.depth < scope.maxDepth then
    let key := serializeLocator e.locator
    if key ∈ k.cursor.seen then k
    else { k with cursor := { k.cursor with
      seen := k.cursor.seen ++ [key]
      pending := k.cursor.pending ++ [(e.locator, k.cursor.depth + 1)] } }
  else
    { k with
      cursor := { k.cursor with partial_ := true }
      warnings := k.warnings ++ [budgetExceeded "search-depth-limit"] }

/-- The body of the loop over the entries of a page. -/
def Scan.visit (k : Scan) (e : EntrySnapshot) : Scan :=
  let k := { k with
    cursor := { k.cursor with visited := k.cursor.visited ++ [e] }
    scanned := k.scanned + 1 }
  let k := if e.directory && scope.recursive && isReparse e then
    { k with cursor := { k.cursor with partial_ := true } } else k
  let k := if e.directory && scope.recursive && !isReparse e then k.descend scope e else k
  if matcher e then { k with found := k.found ++ [e] } else k

/-- The loop over the entries of a page. -/
def Scan.visitAll : List EntrySnapshot → Scan → Scan
  | [], k => k
  | e :: entries, k =>
    if k.cursor.visited.length ≥ scope.maxVisited then k.full
    else visitAll entries (k.visit scope matcher e)

/-- How a turn of the `while` loop ends. -/
inductive Turn
  | more (k : Scan) (rest : List Answer)
  | stop (k : Scan) (rest : List Answer)
  | fail (e : Error) (k : Scan) (rest : List Answer)

/-- A page of the directory at hand. -/
def readPage (k : Scan) : List Answer → Option Turn
  | .read (.error e) :: rest => some (.fail e k rest)
  | .read (.ok page) :: rest =>
    if page.entries.length > min (limit - k.found.length) (256 - k.scanned) then
      some (.fail ⟨.internal, "search-provider-page-size", false⟩ k rest)
    else if page.entries = [] ∧ page.end_ = false then some (.stop k rest)
    else
      let k := k.visitAll scope matcher page.entries
      some (.more (if page.end_ then { k with cursor := { k.cursor with open_ := false } } else k)
        rest)
  | _ => none

/-- A turn of the `while` loop. -/
def turn (k : Scan) : List Answer → Option Turn
  | .check (some e) :: rest => some (.fail e k rest)
  | .check none :: rest =>
    if k.cursor.open_ = false ∧ k.cursor.pending = [] then
      some (.stop { k with cursor := { k.cursor with ended := true } } rest)
    else if k.cursor.visited.length ≥ scope.maxVisited then some (.stop k.full rest)
    else if k.cursor.open_ then readPage scope matcher limit k rest
    else match k.cursor.pending, rest with
      | (_, depth) :: pending, .opened none :: rest =>
        readPage scope matcher limit
          { k with
            cursor := { k.cursor with pending := pending, depth := depth, open_ := true } } rest
      | (_, depth) :: pending, .opened (some e) :: rest =>
        let k := { k with cursor := { k.cursor with pending := pending, depth := depth } }
        if depth = 0 ∨ e.category = .cancelled then some (.fail e k rest)
        else some (.more
          { k with
            cursor := { k.cursor with partial_ := true }
            warnings := k.warnings ++ [e]
            scanned := k.scanned + 1 } rest)
      | _, _ => none
  | _ => none

/-- The `while` loop. Each turn takes an answer, so their number suffices as `fuel`. -/
def scanLoop : (fuel : Nat) → Scan → List Answer →
    Option (Except Error Unit × Scan × List Answer)
  | 0, _, _ => none
  | fuel + 1, k, answers =>
    if k.found.length < limit ∧ k.scanned < 256 ∧ k.cursor.ended = false then
      match turn scope matcher limit k answers with
      | some (.more k rest) => scanLoop fuel k rest
      | some (.stop k rest) => some (.ok (), k, rest)
      | some (.fail e k rest) => some (.error e, k, rest)
      | none => none
    else some (.ok (), k, answers)

/-- The page of a finished loop. -/
def Scan.page (k : Scan) : SearchPage :=
  ⟨k.found, k.warnings, k.cursor.visited.length,
    k.cursor.ended || (!k.cursor.open_ && k.cursor.pending.isEmpty), k.cursor.partial_⟩

/-- `Next`: what it returns and the cursor after it, if the answers are those of such a call. -/
def next (s : Cursor) (c : Call) : Option (Except Error SearchPage × Cursor) :=
  if c.busy then
    if c.answers.isEmpty then some (.error ⟨.invalidRequest, "search-next-pending", false⟩, s)
    else none
  else if c.maxItems = 0 ∨ c.maxPageItems = 0 then
    if c.answers.isEmpty then some (.error ⟨.invalidRequest, "search-page-size", false⟩, s)
    else none
  else match c.answers with
    | [.check (some e)] => some (.error e, s)
    | .check none :: answers =>
      match scanLoop scope matcher c.limit (answers.length + 1) { cursor := s } answers with
      | some (.error e, k, []) => some (.error e, k.cursor)
      | some (.ok _, k, [.check (some e)]) => some (.error e, k.cursor)
      | some (.ok _, k, [.check none]) => some (.ok k.page, k.cursor)
      | _ => none
    | _ => none

/-- The matches that a call returns. -/
def returned : Except Error SearchPage → List EntrySnapshot
  | .ok page => page.found
  | .error _ => []

/-- A row of calls: the cursor after them, and all matches that they returned. -/
def runCalls (s : Cursor) : List Call → Option (Cursor × List EntrySnapshot)
  | [] => some (s, [])
  | c :: cs => do
    let (r, s) ← next scope matcher s c
    let (s, more) ← runCalls s cs
    some (s, returned r ++ more)

/-! ## The inputs that lose matches -/

/-- The entries of an answer. -/
def Answer.entries : Answer → List EntrySnapshot
  | .read (.ok page) => page.entries
  | _ => []

/-- The entries that answers hand over, as far as there is room for visits. -/
def handed (room : Nat) (answers : List Answer) : List EntrySnapshot :=
  (answers.flatMap Answer.entries).take room

/-- A directory that could not be opened. -/
def Answer.isRefusal : Answer → Bool
  | .opened (some _) => true
  | _ => false

/-- The most entries that a page may have after these answers. -/
def askedAfter (room : Nat) (answers : List Answer) : Nat :=
  min (limit - ((handed room answers).filter matcher).length)
    (256 - ((handed room answers).length + answers.countP Answer.isRefusal))

/-- An answer that breaks the call off: the context has been cancelled or is past its deadline, an
enumeration was cancelled, or a page failed or is larger than asked for. -/
def Breaks (room : Nat) (answers : List Answer) : Answer → Prop
  | .check stopped => stopped.isSome
  | .opened stopped => ∃ e ∈ stopped, e.category = .cancelled
  | .read (.error _) => True
  | .read (.ok page) => askedAfter matcher limit room answers < page.entries.length

/-- No answer that breaks the call off comes after a match. -/
def Spares (s : Cursor) (c : Call) : Prop :=
  ∀ before a after, c.answers = before ++ a :: after →
    Breaks matcher c.limit (scope.maxVisited - s.visited.length) before a →
      (handed (scope.maxVisited - s.visited.length) before).filter matcher = []

/-- `Spares` for each of the calls. -/
def SparesAll (s : Cursor) : List Call → Prop
  | [] => True
  | c :: cs => Spares scope matcher s c ∧
    ∀ r s', next scope matcher s c = some (r, s') → SparesAll s' cs

end Call

/-! ## A page -/

variable {scope : SearchScope} {matcher : EntrySnapshot → Bool} {limit room : Nat}
  {k k' : Scan} {answers rest pre : List Answer}

/-- What walking over the entries of a page does: the entries up to the visit limit are visited, and
new directories wait below the one at hand. -/
structure Walks (matcher : EntrySnapshot → Bool) (k : Scan) (entries : List EntrySnapshot)
    (k' : Scan) : Prop where
  visited : k'.cursor.visited = k.cursor.visited ++ entries
  found : k'.found = k.found ++ entries.filter matcher
  scanned : k'.scanned = k.scanned + entries.length
  pending : ∃ new, k'.cursor.pending = k.cursor.pending ++ new ∧ ∀ x ∈ new, 0 < x.2

theorem Walks.trans {k₁ k₂ k₃ : Scan} {es fs : List EntrySnapshot} (h : Walks matcher k₁ es k₂)
    (h' : Walks matcher k₂ fs k₃) : Walks matcher k₁ (es ++ fs) k₃ where
  visited := by rw [h'.visited, h.visited, append_assoc]
  found := by rw [h'.found, h.found, filter_append, append_assoc]
  scanned := by rw [h'.scanned, h.scanned, length_append, Nat.add_assoc]
  pending := by
    obtain ⟨new, hp, hpos⟩ := h.pending
    obtain ⟨new', hp', hpos'⟩ := h'.pending
    refine ⟨new ++ new', by rw [hp', hp, append_assoc], fun x hx => ?_⟩
    exact (mem_append.mp hx).elim (hpos x) (hpos' x)

/-- A step that leaves the entries alone. -/
theorem Walks.same (hv : k'.cursor.visited = k.cursor.visited) (hf : k'.found = k.found)
    (hs : k'.scanned = k.scanned)
    (hp : ∃ new, k'.cursor.pending = k.cursor.pending ++ new ∧ ∀ x ∈ new, 0 < x.2) :
    Walks matcher k [] k' where
  visited := by rw [hv, append_nil]
  found := by rw [hf, filter_nil, append_nil]
  scanned := hs
  pending := hp

theorem Walks.refl (k : Scan) : Walks matcher k [] k :=
  .same rfl rfl rfl ⟨[], (append_nil _).symm, fun _ h => absurd h not_mem_nil⟩

theorem descend_walks (k : Scan) (e : EntrySnapshot) :
    Walks matcher k [] (k.descend scope e) := by
  unfold Scan.descend
  split
  · dsimp only
    split
    · exact .refl k
    · exact .same rfl rfl rfl ⟨_, rfl, fun x hx => by
        rw [mem_singleton.mp hx]
        exact Nat.succ_pos _⟩
  · exact .same rfl rfl rfl ⟨[], (append_nil _).symm, fun _ h => absurd h not_mem_nil⟩

theorem visit_walks (k : Scan) (e : EntrySnapshot) :
    Walks matcher k [e] (k.visit scope matcher e) := by
  have hnone : ∀ k : Scan, ∃ new, k.cursor.pending = k.cursor.pending ++ new ∧
      ∀ x ∈ new, 0 < x.2 :=
    fun k => ⟨[], (append_nil _).symm, fun _ h => absurd h not_mem_nil⟩
  -- Everything before the match is looked at.
  have hcount : ∀ k' : Scan,
      Walks matcher { k with
        cursor := { k.cursor with visited := k.cursor.visited ++ [e] }
        scanned := k.scanned + 1 } [] k' →
      Walks matcher k [e] (if matcher e then { k' with found := k'.found ++ [e] } else k') := by
    intro k' h
    have hv := h.visited
    have hf := h.found
    have hs := h.scanned
    have hp := h.pending
    simp only [append_nil, filter_nil, length_nil, Nat.add_zero] at hv hf hs hp
    split
    · rename_i hm
      exact ⟨hv, by rw [hf, filter_singleton, hm]; rfl, hs, hp⟩
    · rename_i hm
      refine ⟨hv, ?_, hs, hp⟩
      rw [hf, filter_singleton, Bool.eq_false_iff.mpr hm]
      exact (append_nil _).symm
  refine hcount _ ?_
  split
  · rw [← append_nil []]
    refine Walks.trans ?_ (descend_walks _ e)
    split
    · exact .same rfl rfl rfl (hnone _)
    · exact .refl _
  · split
    · exact .same rfl rfl rfl (hnone _)
    · exact .refl _

theorem visitAll_walks (entries : List EntrySnapshot) (k : Scan) :
    Walks matcher k (entries.take (scope.maxVisited - k.cursor.visited.length))
      (k.visitAll scope matcher entries) := by
  induction entries generalizing k with
  | nil =>
    rw [take_nil]
    exact .refl k
  | cons e entries ih =>
    rw [Scan.visitAll]
    split
    · rename_i hfull
      rw [Nat.sub_eq_zero_of_le hfull, take_zero]
      exact .same rfl rfl rfl
        ⟨[], (append_nil _).symm, fun _ h => absurd h not_mem_nil⟩
    · rename_i hroom
      have hw := @visit_walks scope matcher k e
      have hlen : (k.visit scope matcher e).cursor.visited.length =
          k.cursor.visited.length + 1 := by
        rw [hw.visited, length_append, length_singleton]
      have h := hw.trans (ih (k.visit scope matcher e))
      rw [hlen] at h
      rwa [show scope.maxVisited - k.cursor.visited.length =
        scope.maxVisited - (k.cursor.visited.length + 1) + 1 by omega, take_succ_cons]

/-! ## A call -/

/-- The root is opened first: nothing was visited before, and what waits later lies below it. -/
structure Rooted (s : Cursor) : Prop where
  tail : ∀ x ∈ s.pending.tail, 0 < x.2
  root : s.visited = [] ∧ s.open_ = false ∨ ∀ x ∈ s.pending, 0 < x.2

theorem rooted_new (root : Locator) : Rooted (Cursor.new root) :=
  ⟨fun _ h => absurd h not_mem_nil, .inl ⟨rfl, rfl⟩⟩

/-- A cursor in a directory. -/
theorem Rooted.of_pos {s : Cursor} (h : ∀ x ∈ s.pending, 0 < x.2) : Rooted s :=
  ⟨fun x hx => h x (mem_of_mem_tail hx), .inr h⟩

/-- What a call has done with the answers `pre`. -/
structure At (matcher : EntrySnapshot → Bool) (limit room : Nat) (start : List EntrySnapshot)
    (pre : List Answer) (k : Scan) : Prop where
  visited : k.cursor.visited = start ++ handed room pre
  found : k.found = (handed room pre).filter matcher
  scanned : k.scanned = (handed room pre).length + pre.countP Answer.isRefusal
  whole : ∀ before a after, pre = before ++ a :: after → ¬ Breaks matcher limit room before a
  rooted : Rooted k.cursor

/-- How a call that took `pre` can break off at `a`. -/
structure BreaksOff (matcher : EntrySnapshot → Bool) (limit room : Nat) (start : List EntrySnapshot)
    (pre : List Answer) (a : Answer) (k : Scan) : Prop where
  visited : k.cursor.visited = start ++ handed room pre
  whole : ∀ before a after, pre = before ++ a :: after → ¬ Breaks matcher limit room before a
  breaks : Breaks matcher limit room pre a ∨ handed room pre = []
  rooted : Rooted k.cursor

variable {start : List EntrySnapshot}

theorem handed_append (room : Nat) (pre : List Answer) (a : Answer) :
    handed room (pre ++ [a]) =
      handed room pre ++ a.entries.take (room - (handed room pre).length) := by
  unfold handed
  rw [flatMap_append, flatMap_singleton, take_append, length_take]
  congr 2
  omega

theorem handed_append_nil {a : Answer} (h : a.entries = []) :
    handed room (pre ++ [a]) = handed room pre := by
  rw [handed_append, h, take_nil, append_nil]

/-- One more answer that does not break the call off. -/
theorem whole_append {a : Answer}
    (h : ∀ before b after, pre = before ++ b :: after → ¬ Breaks matcher limit room before b)
    (ha : ¬ Breaks matcher limit room pre a) :
    ∀ before b after, pre ++ [a] = before ++ b :: after → ¬ Breaks matcher limit room before b := by
  intro before b after heq
  rcases eq_nil_or_concat after with rfl | ⟨after, c, rfl⟩
  · obtain ⟨rfl, hb⟩ := append_inj' heq rfl
    cases hb
    exact ha
  · rw [concat_eq_append, ← cons_append, ← append_assoc] at heq
    obtain ⟨hpre, -⟩ := append_inj' heq rfl
    exact h before b after hpre

/-- An answer that leaves the entries alone. -/
theorem At.step {a : Answer} (h : At matcher limit room start pre k) (ha : a.entries = [])
    (hb : ¬ Breaks matcher limit room pre a) (hv : k'.cursor.visited = k.cursor.visited)
    (hf : k'.found = k.found) (hs : k'.scanned = k.scanned + if a.isRefusal then 1 else 0)
    (hr : Rooted k'.cursor) : At matcher limit room start (pre ++ [a]) k' where
  visited := by rw [hv, h.visited, handed_append_nil ha]
  found := by rw [hf, h.found, handed_append_nil ha]
  scanned := by
    rw [hs, h.scanned, handed_append_nil ha, countP_append, countP_singleton, Nat.add_assoc]
  whole := whole_append h.whole hb
  rooted := hr

/-- How a turn goes on. -/
def TurnSpec (matcher : EntrySnapshot → Bool) (limit room : Nat) (start : List EntrySnapshot)
    (pre answers : List Answer) : Turn → Prop
  | .more k rest => ∃ used, answers = used ++ rest ∧ At matcher limit room start (pre ++ used) k
  | .stop k rest => ∃ used, answers = used ++ rest ∧ At matcher limit room start (pre ++ used) k
  | .fail _ k rest => ∃ used a, answers = used ++ a :: rest ∧
      BreaksOff matcher limit room start (pre ++ used) a k

/-- An answer before the others of a turn. -/
theorem TurnSpec.cons {a : Answer} {t : Turn}
    (h : TurnSpec matcher limit room start (pre ++ [a]) answers t) :
    TurnSpec matcher limit room start pre (a :: answers) t := by
  cases t with
  | more k rest =>
    obtain ⟨used, rfl, hk⟩ := h
    exact ⟨a :: used, rfl, by rwa [append_cons]⟩
  | stop k rest =>
    obtain ⟨used, rfl, hk⟩ := h
    exact ⟨a :: used, rfl, by rwa [append_cons]⟩
  | fail e k rest =>
    obtain ⟨used, b, rfl, hk⟩ := h
    exact ⟨a :: used, b, rfl, by rwa [append_cons]⟩

theorem readPage_spec (h : At matcher limit room start pre k)
    (hroom : room = scope.maxVisited - start.length) (hpos : ∀ x ∈ k.cursor.pending, 0 < x.2)
    {t : Turn} (ht : readPage scope matcher limit k answers = some t) :
    TurnSpec matcher limit room start pre answers t := by
  unfold readPage at ht
  split at ht
  · cases ht
    exact ⟨[], _, rfl, by rw [append_nil]; exact ⟨h.visited, h.whole, .inl trivial, h.rooted⟩⟩
  · rename_i page rest
    have hasked : askedAfter matcher limit room pre =
        min (limit - k.found.length) (256 - k.scanned) := by
      rw [askedAfter, h.found, h.scanned]
    split at ht
    · rename_i hmany
      cases ht
      refine ⟨[], _, rfl, ?_⟩
      rw [append_nil]
      exact ⟨h.visited, h.whole, .inl (show askedAfter _ _ _ _ < _ by rw [hasked]; exact hmany),
        h.rooted⟩
    rename_i hmany
    have hb : ¬ Breaks matcher limit room pre (.read (.ok page)) := by
      show ¬ askedAfter _ _ _ _ < _
      rw [hasked]
      exact hmany
    split at ht
    · rename_i hempty
      cases ht
      exact ⟨[.read (.ok page)], rfl, h.step hempty.1 hb rfl rfl rfl h.rooted⟩
    · cases ht
      have hw := @visitAll_walks scope matcher page.entries k
      have hlen : scope.maxVisited - k.cursor.visited.length =
          room - (handed room pre).length := by
        rw [h.visited, length_append, hroom]
        omega
      rw [hlen] at hw
      obtain ⟨new, hpend, hnew⟩ := hw.pending
      have hpos' : ∀ x ∈ (k.visitAll scope matcher page.entries).cursor.pending, 0 < x.2 := by
        rw [hpend]
        exact fun x hx => (mem_append.mp hx).elim (hpos x) (hnew x)
      have hat : At matcher limit room start (pre ++ [.read (.ok page)])
          (k.visitAll scope matcher page.entries) := by
        refine ⟨?_, ?_, ?_, whole_append h.whole hb, .of_pos hpos'⟩
        · rw [hw.visited, h.visited, handed_append, append_assoc]
          rfl
        · rw [hw.found, h.found, handed_append, filter_append]
          rfl
        · rw [hw.scanned, h.scanned, handed_append, length_append, countP_append]
          show _ = _ + _ + (_ + 0)
          simp only [Answer.entries]
          omega
      refine ⟨[.read (.ok page)], rfl, ?_⟩
      split
      · exact ⟨hat.visited, hat.found, hat.scanned, hat.whole, .of_pos hpos'⟩
      · exact hat
  · cases ht

theorem turn_spec (h : At matcher limit room start pre k)
    (hroom : room = scope.maxVisited - start.length) {t : Turn}
    (ht : turn scope matcher limit k answers = some t) :
    TurnSpec matcher limit room start pre answers t := by
  unfold turn at ht
  split at ht
  · cases ht
    exact ⟨[], _, rfl, by rw [append_nil]; exact ⟨h.visited, h.whole, .inl rfl, h.rooted⟩⟩
  · rename_i rest
    have hcheck : ¬ Breaks matcher limit room pre (.check none) := Bool.false_ne_true
    have hstep : At matcher limit room start (pre ++ [.check none]) k :=
      h.step rfl hcheck rfl rfl rfl h.rooted
    refine TurnSpec.cons ?_
    split at ht
    · cases ht
      refine ⟨[], rfl, ?_⟩
      rw [append_nil]
      exact ⟨hstep.visited, hstep.found, hstep.scanned, hstep.whole, ⟨h.rooted.tail, h.rooted.root⟩⟩
    split at ht
    · cases ht
      refine ⟨[], rfl, ?_⟩
      rw [append_nil]
      exact ⟨hstep.visited, hstep.found, hstep.scanned, hstep.whole, ⟨h.rooted.tail, h.rooted.root⟩⟩
    split at ht
    · rename_i hopen
      refine readPage_spec hstep hroom ?_ ht
      exact h.rooted.root.resolve_left fun hs => by rw [hopen] at hs; exact absurd hs.2 (by decide)
    split at ht
    · -- The next directory is opened.
      rename_i x depth pending rest hpend
      have htail : ∀ x ∈ pending, 0 < x.2 := by
        have := h.rooted.tail
        rwa [hpend] at this
      have hopened : ¬ Breaks matcher limit room (pre ++ [.check none]) (.opened none) := by
        rintro ⟨e, he, -⟩
        cases he
      have hat : At matcher limit room start (pre ++ [.check none] ++ [.opened none]) { k with
          cursor := { k.cursor with pending := pending, depth := depth, open_ := true } } :=
        hstep.step rfl hopened rfl rfl rfl (.of_pos htail)
      exact TurnSpec.cons (readPage_spec hat hroom htail ht)
    · rename_i x depth pending e rest hpend
      have htail : ∀ x ∈ pending, 0 < x.2 := by
        have := h.rooted.tail
        rwa [hpend] at this
      split at ht
      · rename_i hfatal
        cases ht
        refine ⟨[], _, rfl, ?_⟩
        rw [append_nil]
        refine ⟨hstep.visited, hstep.whole, ?_, .of_pos htail⟩
        rcases hfatal with rfl | hc
        · right
          have hroot := h.rooted.root.resolve_right fun hp => by
            have := hp (x, 0) (by rw [hpend]; exact mem_cons_self)
            exact Nat.lt_irrefl 0 this
          have := hstep.visited
          rw [hroot.1] at this
          exact (append_eq_nil_iff.mp this.symm).2
        · exact .inl ⟨e, rfl, hc⟩
      · rename_i hfatal
        cases ht
        refine ⟨[_], rfl, hstep.step rfl ?_ rfl rfl rfl (.of_pos htail)⟩
        rintro ⟨e', he, hc⟩
        cases he
        exact hfatal (.inr hc)
    · cases ht
  · cases ht

/-- How the loop ends. -/
def LoopSpec (matcher : EntrySnapshot → Bool) (limit room : Nat) (start : List EntrySnapshot)
    (pre answers : List Answer) : Except Error Unit → Scan → List Answer → Prop
  | .ok _, k, rest => ∃ used, answers = used ++ rest ∧ At matcher limit room start (pre ++ used) k
  | .error _, k, rest => ∃ used a, answers = used ++ a :: rest ∧
      BreaksOff matcher limit room start (pre ++ used) a k

/-- The answers of the turns before. -/
theorem LoopSpec.append {used : List Answer} {r : Except Error Unit}
    (h : LoopSpec matcher limit room start (pre ++ used) answers r k rest) :
    LoopSpec matcher limit room start pre (used ++ answers) r k rest := by
  cases r with
  | ok _ =>
    obtain ⟨more, rfl, hk⟩ := h
    exact ⟨used ++ more, (append_assoc _ _ _).symm, by rwa [← append_assoc]⟩
  | error _ =>
    obtain ⟨more, a, rfl, hk⟩ := h
    exact ⟨used ++ more, a, (append_assoc _ _ _).symm, by rwa [← append_assoc]⟩

theorem scanLoop_spec (hroom : room = scope.maxVisited - start.length) {r : Except Error Unit}
    (fuel : Nat) (h : At matcher limit room start pre k)
    (hl : scanLoop scope matcher limit fuel k answers = some (r, k', rest)) :
    LoopSpec matcher limit room start pre answers r k' rest := by
  induction fuel generalizing k pre answers with
  | zero => cases hl
  | succ fuel ih =>
    rw [scanLoop] at hl
    split at hl
    · split at hl
      · rename_i k₁ rest₁ ht
        obtain ⟨used, rfl, hk⟩ := turn_spec h hroom ht
        exact (ih hk hl).append
      · rename_i k₁ rest₁ ht
        cases hl
        exact turn_spec h hroom ht
      · rename_i e k₁ rest₁ ht
        cases hl
        exact turn_spec h hroom ht
      · cases hl
    · cases hl
      exact ⟨[], rfl, by rwa [append_nil]⟩

section Next

variable {s s' : Cursor} {c : Call} {r : Except Error SearchPage}

theorem at_start (h : Rooted s) : At matcher limit room s.visited [] { cursor := s } where
  visited := by rw [handed, flatMap_nil, take_nil, append_nil]
  found := by rw [handed, flatMap_nil, take_nil, filter_nil]
  scanned := by rw [handed, flatMap_nil, take_nil]; rfl
  whole := fun before a after heq => by
    have := congrArg length heq
    rw [length_append, length_cons, length_nil] at this
    omega
  rooted := h

/-- A call that was broken off at its last answer. -/
theorem spares_iff {a : Answer} (hc : c.answers = pre ++ [a])
    (h : BreaksOff matcher c.limit (scope.maxVisited - s.visited.length) start pre a k) :
    Spares scope matcher s c ↔
      (handed (scope.maxVisited - s.visited.length) pre).filter matcher = [] := by
  refine ⟨fun hsp => ?_, fun hnone before b after heq hb => ?_⟩
  · rcases h.breaks with hb | hnil
    · exact hsp pre a [] hc hb
    · rw [hnil, filter_nil]
  · rw [hc] at heq
    rcases eq_nil_or_concat after with rfl | ⟨after, d, rfl⟩
    · obtain ⟨rfl, -⟩ := append_inj' heq rfl
      exact hnone
    · rw [concat_eq_append, ← cons_append, ← append_assoc] at heq
      obtain ⟨hpre, -⟩ := append_inj' heq rfl
      exact absurd hb (h.whole before b after hpre)

/-- What a call does: it visits `vs`, and returns the matches among them or nothing. -/
structure NextSpec (scope : SearchScope) (matcher : EntrySnapshot → Bool) (s : Cursor) (c : Call)
    (r : Except Error SearchPage) (s' : Cursor) (vs : List EntrySnapshot) : Prop where
  rooted : Rooted s'
  visited : s'.visited = s.visited ++ vs
  page : ∀ page, r = .ok page → page.found = vs.filter matcher ∧ Spares scope matcher s c
  failure : ∀ e, r = .error e → (Spares scope matcher s c ↔ vs.filter matcher = [])

/-- A call that does nothing. -/
theorem NextSpec.idle {e : Error} (h : Rooted s)
    (hsp : ∀ before a after, c.answers = before ++ a :: after → before = []) :
    NextSpec scope matcher s c (.error e) s [] where
  rooted := h
  visited := (append_nil _).symm
  page := fun _ hp => by cases hp
  failure := fun _ _ => by
    refine iff_of_true (fun before a after heq _ => ?_) rfl
    rw [hsp before a after heq, handed, flatMap_nil, take_nil, filter_nil]

theorem NextSpec.refused {e : Error} (h : Rooted s) (hc : c.answers.isEmpty = true) :
    NextSpec scope matcher s c (.error e) s [] := by
  refine .idle h fun before a after heq => ?_
  rw [isEmpty_iff.mp hc] at heq
  exact (append_eq_nil_iff.mp heq.symm).1

/-- A call that fails at its last answer. -/
theorem NextSpec.brokenOff {e : Error} {a : Answer} (hc : c.answers = pre ++ [a])
    (h : BreaksOff matcher c.limit (scope.maxVisited - s.visited.length) s.visited pre a k) :
    NextSpec scope matcher s c (.error e) k.cursor
      (handed (scope.maxVisited - s.visited.length) pre) where
  rooted := h.rooted
  visited := h.visited
  page := fun _ hp => by cases hp
  failure := fun _ _ => spares_iff hc h

/-- A call that returns its page. -/
theorem NextSpec.whole (hc : c.answers = pre ++ [.check none])
    (h : At matcher c.limit (scope.maxVisited - s.visited.length) s.visited pre k) :
    NextSpec scope matcher s c (.ok k.page) k.cursor
      (handed (scope.maxVisited - s.visited.length) pre) where
  rooted := h.rooted
  visited := h.visited
  page := fun _ hp => by
    cases hp
    refine ⟨h.found, fun before a after heq hb => ?_⟩
    rw [hc] at heq
    have hcheck : ¬ Breaks matcher c.limit (scope.maxVisited - s.visited.length) pre
      (.check none) := Bool.false_ne_true
    exact absurd hb (whole_append h.whole hcheck before a after heq)
  failure := fun _ he => by cases he

theorem next_spec (h : Rooted s) (hn : next scope matcher s c = some (r, s')) :
    ∃ vs, NextSpec scope matcher s c r s' vs := by
  unfold next at hn
  split at hn
  · split at hn
    · rename_i hempty
      cases hn
      exact ⟨[], .refused h hempty⟩
    · cases hn
  split at hn
  · split at hn
    · rename_i hempty
      cases hn
      exact ⟨[], .refused h hempty⟩
    · cases hn
  split at hn
  · rename_i e hc
    cases hn
    refine ⟨[], .idle h fun before a after heq => ?_⟩
    rw [hc] at heq
    have := congrArg length heq
    simp only [length_append, length_cons, length_nil] at this
    exact length_eq_zero_iff.mp (by omega)
  · rename_i answers hc
    have hat : At matcher c.limit (scope.maxVisited - s.visited.length) s.visited
        ([] ++ [.check none]) { cursor := s } :=
      (at_start h).step rfl Bool.false_ne_true rfl rfl rfl h
    split at hn
    · rename_i e k hl
      cases hn
      obtain ⟨used, a, rfl, hb⟩ := scanLoop_spec rfl _ hat hl
      exact ⟨_, .brokenOff (hc.trans (append_assoc [_] used [a]).symm) hb⟩
    · rename_i k e hl
      cases hn
      obtain ⟨used, rfl, hk⟩ := scanLoop_spec rfl _ hat hl
      exact ⟨_, .brokenOff (hc.trans (append_assoc [_] used [_]).symm)
        ⟨hk.visited, hk.whole, .inl rfl, hk.rooted⟩⟩
    · rename_i k hl
      cases hn
      obtain ⟨used, rfl, hk⟩ := scanLoop_spec rfl _ hat hl
      exact ⟨_, .whole (hc.trans (append_assoc [_] used [_]).symm) hk⟩
    · cases hn
  · cases hn

end Next

/-! ## A run -/

/-- What a row of calls returns is a part of the matches among the entries that it visits, and all
of them if and only if `SparesAll`. -/
theorem runCalls_spec (calls : List Call) {s s' : Cursor} {out : List EntrySnapshot} (h : Rooted s)
    (hrun : runCalls scope matcher s calls = some (s', out)) :
    ∃ vs, s'.visited = s.visited ++ vs ∧ out.Sublist (vs.filter matcher) ∧
      (out = vs.filter matcher ↔ SparesAll scope matcher s calls) := by
  induction calls generalizing s out with
  | nil =>
    cases hrun
    exact ⟨[], (append_nil _).symm, List.Sublist.refl _, iff_of_true rfl trivial⟩
  | cons c cs ih =>
    obtain ⟨⟨r, s₁⟩, hn, hrun⟩ := Option.bind_eq_some_iff.mp hrun
    obtain ⟨⟨s₂, more⟩, hcs, hrun⟩ := Option.bind_eq_some_iff.mp hrun
    cases hrun
    obtain ⟨vs, hspec⟩ := next_spec h hn
    obtain ⟨ws, hws, hsub, hiff⟩ := ih hspec.rooted hcs
    have htail : (∀ r' s', next scope matcher s c = some (r', s') → SparesAll scope matcher s' cs) ↔
        SparesAll scope matcher s₁ cs := by
      refine ⟨fun hall => hall r s₁ hn, fun hs r' s' hn' => ?_⟩
      cases hn.symm.trans hn'
      exact hs
    refine ⟨vs ++ ws, by rw [hws, hspec.visited, append_assoc], ?_, ?_⟩
    · rw [filter_append]
      refine List.Sublist.append ?_ hsub
      cases r with
      | ok page => exact (hspec.page page rfl).1 ▸ List.Sublist.refl _
      | error e => exact nil_sublist _
    rw [SparesAll, htail, ← hiff, filter_append]
    cases r with
    | ok page =>
      obtain ⟨hfound, hsp⟩ := hspec.page page rfl
      show page.found ++ more = _ ↔ _
      rw [hfound, append_cancel_left_eq]
      exact ⟨fun heq => ⟨hsp, heq⟩, fun heq => heq.2⟩
    | error e =>
      show [] ++ more = _ ↔ _
      rw [hspec.failure e rfl, nil_append]
      refine ⟨fun heq => ?_, fun ⟨hnone, heq⟩ => by rw [hnone, heq, nil_append]⟩
      -- Too little is left for the matches of the failed call.
      have hlen := hsub.length_le
      rw [heq, length_append] at hlen
      have hnone : vs.filter matcher = [] := length_eq_zero_iff.mp (by omega)
      exact ⟨hnone, by rw [heq, hnone, nil_append]⟩

/-- In every run the pages are the matches among the visited entries, each once and in the order of
the visits, if and only if no answer that breaks a call off comes after a match of that call. -/
theorem search_pages_iff (scope : SearchScope) (matcher : EntrySnapshot → Bool) (root : Locator)
    (calls : List Call) (s : Cursor) (out : List EntrySnapshot)
    (hrun : runCalls scope matcher (Cursor.new root) calls = some (s, out)) :
    out = s.visited.filter matcher ↔ SparesAll scope matcher (Cursor.new root) calls := by
  obtain ⟨vs, hvs, -, hiff⟩ := runCalls_spec calls (rooted_new root) hrun
  rw [hvs]
  exact hiff

/-- A directory with one entry, which the matcher takes. -/
def exampleEntry : EntrySnapshot :=
  { locator := ⟨.local_, ascii "C:/a", []⟩, name := ascii "a" }

/-- The first page of `exampleEntry`'s directory, and the next one. -/
theorem search_pages_iff_paged :
    ∃ s, runCalls {} (fun _ => true) (Cursor.new ⟨.local_, ascii "C:", []⟩)
        [⟨false, 1, 256, [.check none, .check none, .opened none,
          .read (.ok ⟨[exampleEntry], true⟩),
          .check none]⟩, ⟨false, 1, 256, [.check none, .check none, .check none]⟩] =
        some (s, [exampleEntry]) ∧
      ([exampleEntry] = s.visited.filter (fun _ => true) ↔
        SparesAll {} (fun _ => true) (Cursor.new ⟨.local_, ascii "C:", []⟩)
          [⟨false, 1, 256, [.check none, .check none, .opened none,
            .read (.ok ⟨[exampleEntry], true⟩), .check none]⟩,
            ⟨false, 1, 256, [.check none, .check none, .check none]⟩]) :=
  ⟨_, rfl, search_pages_iff _ _ _ _ _ _ rfl⟩

/-- The deadline passes when the page is complete. The entry was visited, and no later call returns
it. -/
theorem deadline_loses_page : ¬ ∀ scope matcher root calls s out,
    runCalls scope matcher (Cursor.new root) calls = some (s, out) →
      out = s.visited.filter matcher := by
  intro h
  have hrun := h {} (fun _ => true) ⟨.local_, ascii "C:", []⟩
    [⟨false, 256, 256, [.check none, .check none, .opened none, .read (.ok ⟨[exampleEntry], true⟩),
      .check none, .check (some ⟨.unavailable, "deadline-exceeded", true⟩)]⟩,
      ⟨false, 256, 256, [.check none, .check none]⟩] _ _ rfl
  exact absurd hrun (by decide)

end Hc.Storage.Search
