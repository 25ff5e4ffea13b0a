import HyperCommander.Lib.StableSort
import HyperCommander.Storage.PagedIndex

/-!
# A projection is the stable sort of what it accepts

* `before_total`: with their ordinals, the rows of an index are in a total order.
* `decode_encodeRow`: a row is read from a run as it was written.
* `merge_yields`, `addRun_yields`, `split_yields`, `combine_yields`: every pass keeps the rows, and
  its runs are in order.
* `project_sorts`: the new index is the stable sort of the accepted entries.
-/

namespace Hc.Storage

open List Bytes Slice StableSort

variable {E : Type}

/-- A strict weak order, as comparators have to be. -/
structure StrictWeak (less : E → E → Bool) : Prop where
  irrefl : ∀ a, less a a = false
  trans : ∀ a b c, less a b = true → less b c = true → less a c = true
  incomparable : ∀ a b c, less a b = false → less b a = false → less b c = false →
    less c b = false → less a c = false ∧ less c a = false

namespace StrictWeak

variable {less : E → E → Bool} {a b c : E}

theorem asymm (h : StrictWeak less) (hab : less a b = true) : less b a = false := by
  by_contra hba
  have := h.trans a b a hab (by simpa using hba)
  rw [h.irrefl] at this
  cases this

/-- What is not before `b` is not before anything that is not behind `b`. -/
theorem not_less_trans (h : StrictWeak less) (hab : less b a = false) (hbc : less c b = false) :
    less c a = false := by
  by_contra hca
  have hca : less c a = true := by simpa using hca
  have hba : less a b = false := by
    by_contra hne
    have := h.trans c a b hca (by simpa using hne)
    rw [hbc] at this
    cases this
  have hcb : less b c = false := by
    by_contra hne
    have := h.trans b c a (by simpa using hne) hca
    rw [hab] at this
    cases this
  rw [(h.incomparable a b c hba hab hcb hbc).2] at hca
  cases hca

end StrictWeak

namespace Projection

variable (p : Projection E)

/-- Not behind, in the order of a run. -/
def le (a b : Row E) : Prop := p.before b a = false

instance : DecidableRel p.le := fun a b => inferInstanceAs (Decidable (p.before b a = false))

/-- The comparator of a projection is a strict weak order, if there is one. -/
def Ordered : Prop := ∀ less, p.less = some less → StrictWeak less

variable {p}

theorem le_none (h : p.less = none) {a b : Row E} : p.le a b ↔ a.ordinal ≤ b.ordinal := by
  simp [le, before, h]

theorem le_some {less : E → E → Bool} (h : p.less = some less) (hw : StrictWeak less)
    {a b : Row E} :
    p.le a b ↔ less b.entry a.entry = false ∧
      (less a.entry b.entry = false → a.ordinal ≤ b.ordinal) := by
  simp only [le, before, h]
  split
  · simp only [Bool.not_eq_eq_eq_not, Bool.not_false]
    constructor
    · intro hab
      exact ⟨hw.asymm hab, fun hn => by rw [hab] at hn; cases hn⟩
    · rintro ⟨-, hn⟩
      by_contra hab
      have := hn (by simpa using hab)
      omega
  · exact ⟨fun hn => ⟨hn, fun _ => by omega⟩, fun hn => hn.1⟩

/-- Rows that are told apart by their ordinals are in a total order. -/
theorem before_total (hw : p.Ordered) {D : List (Row E)}
    (hD : D.Pairwise fun a b => a.ordinal < b.ordinal) : TotalOn p.le (· ∈ D) := by
  have hinj : ∀ a b, a ∈ D → b ∈ D → a.ordinal = b.ordinal → a = b := by
    intro a b ha hb heq
    by_contra hne
    rcases mem_iff_getElem.mp ha with ⟨i, hi, rfl⟩
    rcases mem_iff_getElem.mp hb with ⟨j, hj, rfl⟩
    rcases Nat.lt_trichotomy i j with h | h | h
    · have := pairwise_iff_getElem.mp hD i j hi hj h
      omega
    · subst h; exact hne rfl
    · have := pairwise_iff_getElem.mp hD j i hj hi h
      omega
  cases hl : p.less with
  | none =>
    refine ⟨fun a b _ _ => ?_, fun a b c _ _ _ => ?_, fun a b ha hb => ?_⟩
    · simp only [le_none hl]; omega
    · simp only [le_none hl]; omega
    · simp only [le_none hl]
      exact fun h1 h2 => hinj a b ha hb (by omega)
  | some less =>
    have hs := hw less hl
    refine ⟨fun a b _ _ => ?_, fun a b c _ _ _ => ?_, fun a b ha hb => ?_⟩
    · simp only [le_some hl hs]
      by_cases hab : less a.entry b.entry = true
      · exact .inl ⟨hs.asymm hab, fun h => by rw [hab] at h; cases h⟩
      by_cases hba : less b.entry a.entry = true
      · exact .inr ⟨hs.asymm hba, fun h => by rw [hba] at h; cases h⟩
      · simp only [Bool.not_eq_true] at hab hba
        rcases Nat.le_total a.ordinal b.ordinal with h | h
        · exact .inl ⟨hba, fun _ => h⟩
        · exact .inr ⟨hab, fun _ => h⟩
    · simp only [le_some hl hs]
      rintro ⟨h1, h2⟩ ⟨h3, h4⟩
      refine ⟨hs.not_less_trans h1 h3, fun hac => ?_⟩
      -- No key is strictly before the next, so the ordinals decide both times.
      have hab : less a.entry b.entry = false := hs.not_less_trans h3 hac
      have hbc : less b.entry c.entry = false := hs.not_less_trans hac h1
      exact (h2 hab).trans (h4 hbc)
    · simp only [le_some hl hs]
      exact fun ⟨h1, h2⟩ ⟨h3, h4⟩ => hinj a b ha hb (by have := h2 h3; have := h4 h1; omega)

/-! ## Rows in runs -/

theorem decodePayload_encode {bytes : Str} (h : bytes.length ≤ maxOffset) :
    decodePayload ((if bytes.length < 0xfffffffe then be 4 bytes.length
      else be 4 0xfffffffe ++ be 8 bytes.length) ++ bytes) = some bytes := by
  have hlarge : maxOffset < 256 ^ 8 := by decide
  split
  · rename_i hlt
    have hread : ofBE (be 4 bytes.length) = bytes.length := ofBE_be_of_lt (by omega)
    rw [decodePayload, if_neg (by simp), take_left' (length_be 4 _),
      drop_left' (length_be 4 _), hread]
    simp only
    rw [if_neg (by omega), if_neg (by omega), if_pos trivial]
  · have hread : ofBE (be 4 0xfffffffe) = 0xfffffffe := ofBE_be_of_lt (by omega)
    have hread' : ofBE (be 8 bytes.length) = bytes.length := ofBE_be_of_lt (by omega)
    rw [append_assoc, decodePayload, if_neg (by simp), take_left' (length_be 4 _),
      drop_left' (length_be 4 _), hread]
    simp only
    rw [if_neg (by omega), if_pos trivial, if_neg (by simp), take_left' (length_be 8 _),
      drop_left' (length_be 8 _), hread', if_pos rfl]

/-- What `Project` made of a row of the index. -/
structure Decoded (p : Projection E) (row : Row E) : Prop where
  entry : p.decodeEntry row.bytes = .ok row.entry
  bytes : row.bytes.length ≤ maxOffset
  ordinal : row.ordinal < 256 ^ 8

/-- A row is read from a run as it was written. -/
theorem decode_encodeRow {row : Row E} (h : Decoded p row) :
    p.decode (encodeRow row) = .ok row := by
  rw [decode, encodeRow, append_assoc, if_neg (by simp), drop_left' (length_be 8 _),
    decodePayload_encode h.bytes]
  simp only [h.entry, take_left' (length_be 8 _), ofBE_be_of_lt h.ordinal]

theorem lift_yields {α : Type} {x : Except Error α} :
    Yields (fun _ => True) (lift x) fun a => x = .ok a := by
  cases x with
  | error e => exact .fail trivial
  | ok a => exact .pure rfl

/-- The files of a run hold these rows, in order. -/
structure IsRun (p : Projection E) (D : List (Row E)) (run : DiskRecords) (rows : List (Row E)) :
    Prop where
  holds : run.Holds (rows.map encodeRow)
  sorted : rows.Pairwise p.le
  mem : ∀ row ∈ rows, row ∈ D

section

variable {fault : Nat → Option Error} {D : List (Row E)} (hdec : ∀ row ∈ D, Decoded p row)
  (ht : TotalOn p.le (· ∈ D))

include hdec

variable {run out : DiskRecords} {h : Head E}

/-- Reading a row of a run. -/
theorem read_run {α : Type} {rows : List (Row E)} {i : Nat} (h : run.Holds (rows.map encodeRow))
    (hmem : ∀ row ∈ rows, row ∈ D) {f : Row E → Disk α} {Q : α → Prop}
    (hf : ∀ row, rows[i]? = some row → Yields (fun _ => True) (f row) Q) :
    Yields (fun _ => True) (do
      let bytes ← run.read fault i
      let value ← lift (p.decode bytes)
      f value) Q := by
  refine (DiskRecords.read_yields h i).bind fun bytes hb => lift_yields.bind fun value hv => ?_
  rw [getElem?_map, Option.map_eq_some_iff] at hb
  obtain ⟨row, hrow, rfl⟩ := hb
  rw [decode_encodeRow (hdec row (hmem row (mem_of_getElem? hrow)))] at hv
  cases hv
  exact hf _ hrow

/-! ## Merging -/

/-- A head and the rows from it on. -/
def HeadOk (p : Projection E) (D : List (Row E)) (h : Head E) (source : List (Row E)) : Prop :=
  ∃ rows, IsRun p D h.run rows ∧ source = h.value :: rows.drop h.next ∧
    rows[h.next - 1]? = some h.value ∧ 0 < h.next

omit hdec in
include ht in
/-- `pop` finds a head that is not behind any other. -/
theorem pop_spec {rest : List (Head E)} (hD : ∀ g ∈ h :: rest, g.value ∈ D) :
    ((p.pop h rest).1 :: (p.pop h rest).2).Perm (h :: rest) ∧
      ∀ g ∈ (p.pop h rest).2, p.le (p.pop h rest).1.value g.value := by
  have hrefl : ∀ row ∈ D, p.le row row := fun row hm => (ht.total row row hm hm).elim id id
  induction rest generalizing h with
  | nil => exact ⟨.refl _, fun g hg => by cases hg⟩
  | cons g rest ih =>
    obtain ⟨hh, hg, hrest⟩ : h.value ∈ D ∧ g.value ∈ D ∧ ∀ x ∈ rest, x.value ∈ D := by
      simpa using hD
    -- What is popped from one head and the rest is not behind that head.
    have hfirst : ∀ x : Head E, x.value ∈ D → (∀ y ∈ rest, y.value ∈ D) →
        (p.pop x rest).1.value ∈ D ∧ p.le (p.pop x rest).1.value x.value := by
      intro x hx hrest
      have hDx : ∀ y ∈ x :: rest, y.value ∈ D := forall_mem_cons.mpr ⟨hx, hrest⟩
      obtain ⟨hperm, hle⟩ := ih (h := x) hDx
      have hm := hDx _ (hperm.mem_iff.mp mem_cons_self)
      rcases mem_cons.mp (hperm.mem_iff.mpr mem_cons_self) with heq | hmem
      · exact ⟨hm, heq ▸ hrefl _ hx⟩
      · exact ⟨hm, hle _ hmem⟩
    rw [pop]
    split
    · rename_i hbefore
      have hgh : p.le g.value h.value := by
        refine (ht.total _ _ hg hh).resolve_right fun hle => ?_
        rw [le, hbefore] at hle
        cases hle
      obtain ⟨hperm, hle⟩ := ih (h := g) (forall_mem_cons.mpr ⟨hg, hrest⟩)
      obtain ⟨hm, hxg⟩ := hfirst g hg hrest
      refine ⟨(List.Perm.swap _ _ _).trans (hperm.cons h), forall_mem_cons.mpr ⟨?_, hle⟩⟩
      exact ht.trans _ _ _ hm hg hh hxg hgh
    · rename_i hbefore
      have hhg : p.le h.value g.value := by simpa [le] using hbefore
      obtain ⟨hperm, hle⟩ := ih (h := h) (forall_mem_cons.mpr ⟨hh, hrest⟩)
      obtain ⟨hm, hxh⟩ := hfirst h hh hrest
      refine ⟨((List.Perm.swap _ _ _).trans (hperm.cons g)).trans (.swap _ _ _),
        forall_mem_cons.mpr ⟨?_, hle⟩⟩
      exact ht.trans _ _ _ hm hh hg hxh hhg

omit hdec in
theorem HeadOk.mem {source : List (Row E)} (hok : HeadOk p D h source) :
    ∀ row ∈ source, row ∈ D := by
  obtain ⟨rows, hrun, rfl, hv, hpos⟩ := hok
  refine forall_mem_cons.mpr ⟨hrun.mem _ (mem_of_getElem? hv), fun row hm => ?_⟩
  exact hrun.mem row (mem_of_mem_drop hm)

omit hdec in
theorem HeadOk.pairwise {source : List (Row E)} (hok : HeadOk p D h source) :
    source.Pairwise p.le := by
  obtain ⟨rows, hrun, rfl, hv, hpos⟩ := hok
  have hdrop : rows.drop (h.next - 1) = h.value :: rows.drop h.next := by
    obtain ⟨hlt, hval⟩ := List.getElem?_eq_some_iff.mp hv
    rw [drop_eq_getElem_cons hlt, hval, Nat.sub_add_cancel hpos]
  rw [← hdrop]
  exact hrun.sorted.sublist (drop_sublist _ _)

include ht in
/-- The heap empties in order. -/
theorem drain_yields {fuel : Nat} {heap : List (Head E)} {sources : List (List (Row E))}
    (hheap : List.Forall₂ (HeadOk p D) heap sources) (hfuel : (sources.map List.length).sum ≤ fuel)
    {os : List (Row E)} (hout : out.Holds (os.map encodeRow)) :
    Yields (fun _ => True) (p.drain fault fuel heap out) fun out' =>
      ∃ ms, Merges (fun a b => p.before a b = true) sources ms ∧
        out'.Holds ((os ++ ms).map encodeRow) := by
  induction fuel generalizing heap sources out os with
  | zero =>
    cases hheap with
    | nil => exact .pure ⟨[], .done (by simp), by simpa using hout⟩
    | cons hok hrest =>
      obtain ⟨rows, hrun, rfl, hv, hpos⟩ := hok
      simp at hfuel
  | succ fuel ih =>
    cases hheap with
    | nil => exact .pure ⟨[], .done (by simp), by simpa using hout⟩
    | @cons h source rest sources hok hrest =>
      have hmem : ∀ g ∈ h :: rest, g.value ∈ D := by
        intro g hg
        obtain ⟨s, hs, hgs⟩ : ∃ s, s ∈ source :: sources ∧ HeadOk p D g s := by
          obtain ⟨i, hi, rfl⟩ := mem_iff_getElem.mp hg
          have := (List.Forall₂.cons hok hrest)
          exact ⟨_, getElem_mem (by rw [← this.length_eq]; exact hi), this.get hi _⟩
        obtain ⟨rows, hrun, rfl, hv, hpos⟩ := hgs
        exact hrun.mem _ (mem_of_getElem? hv)
      obtain ⟨hperm, hleast⟩ := pop_spec ht hmem
      rw [drain]
      generalize hpop : p.pop h rest = popped at hperm hleast
      obtain ⟨x, xs⟩ := popped
      obtain ⟨w, hw, hwp⟩ := perm_comp_forall₂ hperm (List.Forall₂.cons hok hrest)
      cases hw with
      | @cons _ s _ ss hxs hxss =>
        obtain ⟨rows, hrun, rfl, hv, hpos⟩ := hxs
        simp only
        have hval : x.value ∈ D := hrun.mem _ (mem_of_getElem? hv)
        have hheads : ∀ t ∈ ss, ∀ b ∈ t.head?, ¬ p.before b x.value = true := by
          intro t ht' b hb
          obtain ⟨g, hg, hgt⟩ : ∃ g ∈ xs, HeadOk p D g t := by
            obtain ⟨i, hi, rfl⟩ := mem_iff_getElem.mp ht'
            exact ⟨_, getElem_mem (by rw [hxss.length_eq]; exact hi),
              hxss.get (by rw [hxss.length_eq]; exact hi) hi⟩
          obtain ⟨rows', hrun', rfl, hv', hpos'⟩ := hgt
          cases hb
          have := hleast g hg
          rw [le] at this
          simp [this]
        have hsum : (rows.drop x.next).length + (ss.map length).sum ≤ fuel := by
          have := (hwp.map length).sum_nat
          simp only [map_cons, sum_cons, length_cons] at this hfuel ⊢
          omega
        have hstep : ∀ {ms : List (Row E)}, Merges (fun a b => p.before a b = true)
            (rows.drop x.next :: ss) ms →
            Merges (fun a b => p.before a b = true) (source :: sources) (x.value :: ms) :=
          fun hm => .take hwp.symm hheads hm
        refine .skip (access_yields fault) fun _ => ?_
        refine (DiskRecords.append_yields hout (encodeRow x.value)).bind fun out' hout' => ?_
        have hout' : out'.Holds ((os ++ [x.value]).map encodeRow) := by simpa using hout'
        have hcount : x.run.count = rows.length := by rw [hrun.holds.count, length_map]
        split
        · rename_i hnext
          refine read_run hdec hrun.holds hrun.mem fun row hrow => ?_
          have hdrop : rows.drop x.next = row :: rows.drop (x.next + 1) := by
            obtain ⟨hlt, hval⟩ := List.getElem?_eq_some_iff.mp hrow
            rw [drop_eq_getElem_cons hlt, hval]
          have hheap' : List.Forall₂ (HeadOk p D)
              ({ x with value := row, next := x.next + 1 } :: xs) (rows.drop x.next :: ss) :=
            .cons ⟨rows, hrun, hdrop, by simpa using hrow, Nat.succ_pos _⟩ hxss
          refine (ih hheap' (by simpa using hsum) hout').weaken ?_
          rintro out'' ⟨ms, hm, hh⟩
          exact ⟨x.value :: ms, hstep hm, by simpa using hh⟩
        · rename_i hnext
          have hdrop : rows.drop x.next = [] := drop_of_length_le (by omega)
          refine (ih hxss (by rw [hdrop] at hsum; simpa using hsum) hout').weaken ?_
          rintro out'' ⟨ms, hm, hh⟩
          refine ⟨x.value :: ms, hstep ?_, by simpa using hh⟩
          rw [hdrop]
          exact hm.cons_nil

theorem heads_yields {runs : List DiskRecords} {rss : List (List (Row E))}
    (hruns : List.Forall₂ (IsRun p D) runs rss) :
    Yields (fun _ => True) (p.heads fault runs) fun heap =>
      List.Forall₂ (HeadOk p D) heap (rss.filter (· ≠ [])) := by
  induction hruns with
  | nil => exact .pure .nil
  | @cons run rows runs rss hrun hrest ih =>
    have hcount : run.count = rows.length := by rw [hrun.holds.count, length_map]
    rw [heads]
    split
    · rename_i hzero
      have hnil : rows = [] := eq_nil_of_length_eq_zero (by omega)
      rw [hnil, filter_cons_of_neg (by simp)]
      exact ih
    · refine read_run hdec hrun.holds hrun.mem fun row hrow => ih.bind fun heap hheap => .pure ?_
      obtain ⟨rest, rfl⟩ : ∃ rest, rows = row :: rest := by
        cases rows with
        | nil => cases hrow
        | cons a rest => cases hrow; exact ⟨rest, rfl⟩
      rw [filter_cons_of_pos (by simp)]
      exact .cons ⟨row :: rest, hrun, rfl, rfl, Nat.one_pos⟩ hheap

include ht in
/-- A merge of runs is a run of their rows. -/
theorem merge_yields {runs : List DiskRecords} {rss : List (List (Row E))}
    (hruns : List.Forall₂ (IsRun p D) runs rss) :
    Yields (fun _ => True) (p.merge fault runs) fun out =>
      ∃ ms, IsRun p D out ms ∧ ms.Perm rss.flatten := by
  refine DiskRecords.create_yields.bind fun out hout => ?_
  refine (heads_yields hdec hruns).bind fun heap hheap => ?_
  have hcounts : (runs.map (·.count)).sum = (rss.map length).sum := by
    clear hheap
    induction hruns with
    | nil => rfl
    | cons hrun hrest ih =>
      have := hrun.holds.count
      simp only [map_cons, sum_cons, ih, this, length_map]
  have hfuel : ((rss.filter (· ≠ [])).map length).sum ≤ (runs.map (·.count)).sum := by
    rw [hcounts, ← length_flatten, ← length_flatten, flatten_filter_ne_nil]
  have hnone : DiskRecords.Holds out (([] : List (Row E)).map encodeRow) := by simpa using hout
  refine (drain_yields hdec ht hheap hfuel hnone).bind
    fun out' ⟨ms, hm, hholds⟩ => .skip (access_yields fault) fun _ => .pure ⟨ms, ?_, ?_⟩
  · have hsource : ∀ s ∈ rss.filter (· ≠ []), (∀ row ∈ s, row ∈ D) ∧ s.Pairwise p.le := by
      intro s hs
      obtain ⟨i, hi, rfl⟩ := mem_iff_getElem.mp hs
      have hok := hheap.get (by rw [hheap.length_eq]; exact hi) hi
      exact ⟨hok.mem, hok.pairwise⟩
    have hperm := hm.perm
    rw [flatten_filter_ne_nil] at hperm
    refine ⟨by simpa using hholds, ?_, fun row hrow => ?_⟩
    · refine hm.pairwise ht (fun a b _ _ hn => ?_) (fun s hs => (hsource s hs).1)
        fun s hs => (hsource s hs).2
      simpa [le] using hn
    · obtain ⟨s, hs, hrs⟩ := mem_flatten.mp (hm.perm.mem_iff.mp hrow)
      exact (hsource s hs).1 row hrs
  · have hperm := hm.perm
    rwa [flatten_filter_ne_nil] at hperm

/-! ## Levels -/

/-- The runs of the levels, and their rows. -/
abbrev LevelsOk (p : Projection E) (D : List (Row E)) (levels : List (List DiskRecords))
    (rss : List (List (List (Row E)))) : Prop :=
  List.Forall₂ (List.Forall₂ (IsRun p D)) levels rss

omit hdec in
theorem flatten_flatten_cons (rs : List (List (Row E))) (rss : List (List (List (Row E)))) :
    (rs :: rss).flatten.flatten = rs.flatten ++ rss.flatten.flatten := by
  rw [flatten_cons, flatten_append]

include ht in
theorem addRun_yields {rows : List (Row E)} (hrun : IsRun p D run rows)
    {levels : List (List DiskRecords)} {rss : List (List (List (Row E)))}
    (hlevels : LevelsOk p D levels rss) :
    Yields (fun _ => True) (p.addRun fault run levels) fun levels' =>
      ∃ rss', LevelsOk p D levels' rss' ∧
        rss'.flatten.flatten.Perm (rows ++ rss.flatten.flatten) := by
  induction hlevels generalizing run rows with
  | nil => exact .pure ⟨[[rows]], .cons (.cons hrun .nil) .nil, by simp⟩
  | @cons level rs levels rss hlevel hrest ih =>
    have hall : List.Forall₂ (IsRun p D) (level ++ [run]) (rs ++ [rows]) :=
      rel_append hlevel (.cons hrun .nil)
    have hflat : (rs ++ [rows]).flatten.Perm (rows ++ rs.flatten) := by
      simpa using perm_append_comm
    rw [addRun]
    split
    · refine .pure ⟨(rs ++ [rows]) :: rss, .cons hall hrest, ?_⟩
      rw [flatten_flatten_cons, flatten_flatten_cons, ← append_assoc]
      exact hflat.append_right _
    · refine (merge_yields hdec ht hall).bind fun run' ⟨ms, hrun', hperm⟩ => ?_
      refine (ih hrun').bind fun levels' ⟨rss', hlevels', hperm'⟩ => .pure ?_
      refine ⟨[] :: rss', .cons .nil hlevels', ?_⟩
      rw [flatten_flatten_cons, flatten_flatten_cons, ← append_assoc]
      exact hperm'.trans ((hperm.trans hflat).append_right _)

include ht in
theorem combine_yields {levels : List (List DiskRecords)} {rss : List (List (List (Row E)))}
    (hlevels : LevelsOk p D levels rss) {combined : Option DiskRecords} {rows : List (Row E)}
    (hcombined : (combined = none ∧ rows = []) ∨ ∃ run, combined = some run ∧ IsRun p D run rows) :
    Yields (fun _ => True) (p.combine fault levels combined) fun combined' =>
      ∃ rows', rows'.Perm (rows ++ rss.flatten.flatten) ∧
        ((combined' = none ∧ rows' = []) ∨ ∃ run, combined' = some run ∧ IsRun p D run rows') := by
  induction hlevels generalizing combined rows with
  | nil => exact .pure ⟨rows, by simp, hcombined⟩
  | @cons level rs levels rss hlevel hrest ih =>
    have hall : ∃ rs', List.Forall₂ (IsRun p D) (level ++ combined.toList) rs' ∧
        rs'.flatten.Perm (rows ++ rs.flatten) := by
      rcases hcombined with ⟨rfl, rfl⟩ | ⟨run, rfl, hrun⟩
      · exact ⟨rs, by simpa using hlevel, by simp⟩
      · exact ⟨rs ++ [rows], rel_append hlevel (.cons hrun .nil), by
          simpa using perm_append_comm⟩
    obtain ⟨rs', hall, hperm⟩ := hall
    rw [combine]
    split
    · rename_i hnil
      rw [hnil] at hall
      cases hall
      refine (ih (.inl ⟨rfl, rfl⟩)).weaken fun combined' ⟨rows', hp, hc⟩ => ⟨rows', ?_, hc⟩
      have hnil := nil_perm.mp hperm
      rw [flatten_flatten_cons, ← append_assoc, hnil]
      exact hp
    · refine (merge_yields hdec ht hall).bind fun run' ⟨ms, hrun', hp'⟩ => ?_
      refine (ih (.inr ⟨run', rfl, hrun'⟩)).weaken fun combined' ⟨rows', hp, hc⟩ => ⟨rows', ?_, hc⟩
      rw [flatten_flatten_cons, ← append_assoc]
      exact hp.trans ((hp'.trans hperm).append_right _)

omit hdec in
theorem writeRows_yields (encode : Row E → Str) (rows : List (Row E))
    {texts : List Str} (hout : out.Holds texts) :
    Yields (fun _ => True) (writeRows fault encode rows out) fun out' =>
      out'.Holds (texts ++ rows.map encode) := by
  induction rows generalizing out texts with
  | nil => exact .pure (by simpa using hout)
  | cons row rows ih =>
    refine .skip (access_yields fault) fun _ => ?_
    refine (DiskRecords.append_yields hout _).bind fun out' hout' => ?_
    exact (ih hout').weaken fun out'' h => by simpa using h

/-- The ordinals go, the rows stay. -/
theorem strip_yields {combined : DiskRecords} {rows : List (Row E)}
    (hrun : IsRun p D combined rows) {left : Nat} (hleft : left ≤ rows.length)
    (hout : out.Holds ((rows.take (rows.length - left)).map Row.bytes)) :
    Yields (fun _ => True) (p.strip fault combined left out) fun out' =>
      out'.Holds (rows.map Row.bytes) := by
  have hcount : combined.count = rows.length := by rw [hrun.holds.count, length_map]
  induction left generalizing out with
  | zero => exact .pure (by simpa using hout)
  | succ left ih =>
    refine .skip (access_yields fault) fun _ => ?_
    refine read_run hdec hrun.holds hrun.mem fun row hrow => ?_
    refine (DiskRecords.append_yields hout _).bind fun out' hout' => ?_
    refine ih (by omega) ?_
    rw [hcount] at hrow
    rw [show rows.length - left = rows.length - (left + 1) + 1 by omega, take_add_one, hrow]
    simpa using hout'

end

/-! ## The rows of an index -/

variable (p) in
/-- The row of an index at a position, if it can be decoded. -/
def rowAt (rows : List Str) (i : Nat) : Option (Row E) :=
  rows[i]?.bind fun bytes => (p.decodeEntry bytes).toOption.map fun entry =>
    { entry, bytes, ordinal := i }

variable (p) in
/-- The rows before a position. -/
def upTo (rows : List Str) (k : Nat) : List (Row E) := (List.range k).filterMap (p.rowAt rows)

variable (p) in
/-- The accepted ones of them. -/
def accepted (rows : List Str) (k : Nat) : List (Row E) :=
  (p.upTo rows k).filter fun row => p.accepts row.entry

theorem rowAt_eq_some {rows : List Str} {i : Nat} {row : Row E} :
    p.rowAt rows i = some row ↔
      rows[i]? = some row.bytes ∧ p.decodeEntry row.bytes = .ok row.entry ∧ row.ordinal = i := by
  rw [rowAt, Option.bind_eq_some_iff]
  constructor
  · rintro ⟨bytes, hb, h⟩
    rw [Option.map_eq_some_iff] at h
    obtain ⟨entry, he, rfl⟩ := h
    refine ⟨hb, ?_, rfl⟩
    cases hd : p.decodeEntry bytes with
    | error e => rw [hd] at he; cases he
    | ok a => rw [hd] at he; cases he; rfl
  · rintro ⟨hb, hd, rfl⟩
    exact ⟨row.bytes, hb, by rw [hd]; rfl⟩

theorem upTo_succ {rows : List Str} {k : Nat} {row : Row E} (h : p.rowAt rows k = some row) :
    p.upTo rows (k + 1) = p.upTo rows k ++ [row] := by
  rw [upTo, range_succ, filterMap_append]
  simp [upTo, h]

theorem ordinal_upTo (rows : List Str) (k : Nat) :
    (p.upTo rows k).Pairwise fun a b => a.ordinal < b.ordinal := by
  refine pairwise_filterMap.mpr ((pairwise_lt_range (n := k)).imp ?_)
  intro i j hij a ha b hb
  rw [(rowAt_eq_some.mp ha).2.2, (rowAt_eq_some.mp hb).2.2]
  exact hij

theorem decoded_upTo {records : DiskRecords} {rows : List Str} (h : records.Holds rows) (k : Nat) :
    ∀ row ∈ p.upTo rows k, Decoded p row := by
  intro row hrow
  obtain ⟨i, -, hi⟩ := mem_filterMap.mp hrow
  obtain ⟨hb, hd, rfl⟩ := rowAt_eq_some.mp hi
  obtain ⟨offset, -, hlen, -⟩ := h.row _ _ hb
  have hsmall := h.small
  have hlt := (List.getElem?_eq_some_iff.mp hb).1
  have hcount := h.count
  have hfew := h.few
  have hmax : maxOffset / 16 + 1 < 256 ^ 8 := by decide
  exact ⟨hd, by omega, by omega⟩

/-- Every row before a position can be decoded. -/
def Readable (p : Projection E) (rows : List Str) (k : Nat) : Prop :=
  ∀ i < k, ∃ row, p.rowAt rows i = some row

section

variable {fault : Nat → Option Error} {records : DiskRecords} {rows : List Str}
  (hholds : records.Holds rows)

include hholds

theorem fill_yields {left : Nat} (hleft : left ≤ rows.length) {base acc : List (Row E)} {used : Nat}
    (hacc : base ++ acc = p.accepted rows (rows.length - left))
    (hread : Readable p rows (rows.length - left)) :
    Yields (fun _ => True) (p.fill fault records left acc used) fun out =>
      out.1 ≤ left ∧ base ++ out.2 = p.accepted rows (rows.length - out.1) ∧
      Readable p rows (rows.length - out.1) ∧
      (0 < left → acc.length < p.buffer.entries → used < p.buffer.bytes → out.1 < left) := by
  induction left generalizing acc used with
  | zero => exact .pure ⟨Nat.le_refl _, hacc, hread, fun h => absurd h (Nat.lt_irrefl _)⟩
  | succ left ih =>
    rw [fill]
    split
    swap
    · rename_i hfull
      exact .pure ⟨Nat.le_refl _, hacc, hread, fun _ h1 h2 => absurd ⟨h1, h2⟩ hfull⟩
    refine .skip (access_yields fault) fun _ => ?_
    refine (DiskRecords.read_yields hholds _).bind fun bytes hb => ?_
    refine lift_yields.bind fun entry he => ?_
    have hpos : records.count - (left + 1) = rows.length - (left + 1) := by rw [hholds.count]
    have hnext : rows.length - left = rows.length - (left + 1) + 1 := by omega
    have hrow : p.rowAt rows (rows.length - (left + 1)) =
        some { entry, bytes, ordinal := rows.length - (left + 1) } :=
      rowAt_eq_some.mpr ⟨hpos ▸ hb, he, rfl⟩
    have hread' : Readable p rows (rows.length - left) := by
      intro i hi
      rcases Nat.lt_or_ge i (rows.length - (left + 1)) with h | h
      · exact hread i h
      · have : i = rows.length - (left + 1) := by omega
        exact this ▸ ⟨_, hrow⟩
    simp only
    split
    · rename_i haccept
      refine (ih (by omega) ?_ hread').weaken fun out ⟨h1, h2, h3, _⟩ =>
        ⟨by omega, h2, h3, fun _ _ _ => by omega⟩
      rw [hpos, hnext, accepted, upTo_succ hrow, filter_append,
        filter_cons_of_pos (by simpa using haccept), ← append_assoc, hacc]
      rfl
    · rename_i haccept
      refine (ih (by omega) ?_ hread').weaken fun out ⟨h1, h2, h3, _⟩ =>
        ⟨by omega, h2, h3, fun _ _ _ => by omega⟩
      rw [hnext, accepted, upTo_succ hrow, filter_append,
        filter_cons_of_neg (by simpa using haccept), hacc]
      simp [accepted]

theorem split_yields (hw : p.Ordered) (hbuffer : 0 < p.buffer.entries ∧ 0 < p.buffer.bytes)
    {fuel left : Nat} (hfuel : left ≤ fuel) (hleft : left ≤ rows.length)
    {levels : List (List DiskRecords)} {rss : List (List (List (Row E)))}
    (hlevels : LevelsOk p (p.upTo rows rows.length) levels rss)
    (hperm : rss.flatten.flatten.Perm (p.accepted rows (rows.length - left)))
    (hread : Readable p rows (rows.length - left)) :
    Yields (fun _ => True) (p.split fault records fuel left levels) fun levels' =>
      ∃ rss', LevelsOk p (p.upTo rows rows.length) levels' rss' ∧
        rss'.flatten.flatten.Perm (p.accepted rows rows.length) ∧
        Readable p rows rows.length := by
  have ht := before_total hw (p.ordinal_upTo rows rows.length)
  have hdec := p.decoded_upTo hholds rows.length
  induction fuel generalizing left levels rss with
  | zero =>
    obtain rfl : left = 0 := by omega
    exact .pure ⟨rss, hlevels, hperm, hread⟩
  | succ fuel ih =>
    cases left with
    | zero => exact .pure ⟨rss, hlevels, hperm, hread⟩
    | succ left =>
      rw [split]
      refine (fill_yields hholds hleft (append_nil _) hread).bind
        fun filled ⟨hle, hrows, hread', hless⟩ => ?_
      have hlt : filled.1 < left + 1 := hless (Nat.succ_pos _) hbuffer.1 hbuffer.2
      have hmem : ∀ row ∈ filled.2, row ∈ p.upTo rows rows.length := by
        intro row hrow
        have : row ∈ p.accepted rows (rows.length - filled.1) := by
          rw [← hrows]; exact mem_append_right _ hrow
        obtain ⟨i, hi, hir⟩ := mem_filterMap.mp (mem_of_mem_filter this)
        refine mem_filterMap.mpr ⟨i, ?_, hir⟩
        rw [mem_range] at hi ⊢
        omega
      simp only
      refine DiskRecords.create_yields.bind fun run hrun => ?_
      refine (writeRows_yields encodeRow _ hrun).bind fun run hrun => ?_
      refine .skip (access_yields fault) fun _ => ?_
      have hperm' := perm_insertionSort (fun a b => p.before b a = false) filled.2
      have hisRun : IsRun p (p.upTo rows rows.length) run
          (filled.2.insertionSort fun a b => p.before b a = false) :=
        ⟨by simpa using hrun, pairwise_insertionSort ht hmem,
          fun row h => hmem row ((mem_insertionSort _).mp h)⟩
      refine (addRun_yields hdec ht hisRun hlevels).bind fun levels' ⟨rss', hlevels', hp⟩ => ?_
      refine ih (by omega) (by omega) hlevels' ?_ hread'
      rw [← hrows]
      exact hp.trans ((hperm'.append hperm).trans perm_append_comm)

end

end Projection

/-! ## Projections -/

namespace Projection

variable {p : Projection E}

variable (p) in
/-- The accepted entries, stably sorted, with the bytes of their rows. -/
def sorted (decoded : List (Str × E)) : List (Str × E) :=
  let accepted := decoded.filter fun e => p.accepts e.2
  match p.less with
  | none => accepted
  | some less => accepted.insertionSort fun a b => less b.2 a.2 = false

/-- The bytes and the entry of a row. -/
def pair (row : Row E) : Str × E := (row.bytes, row.entry)

theorem sorted_rows (hw : p.Ordered) {rows : List (Row E)}
    (h : rows.Pairwise fun a b => a.ordinal < b.ordinal) :
    p.sorted (rows.map pair) =
      ((rows.filter fun row => p.accepts row.entry).insertionSort p.le).map pair := by
  have hf : (rows.map pair).filter (fun e => p.accepts e.2) =
      (rows.filter fun row => p.accepts row.entry).map pair := by
    rw [filter_map]; rfl
  have hord := h.filter fun row => p.accepts row.entry
  unfold sorted
  simp only [hf]
  split
  · rename_i hless
    rw [List.Pairwise.insertionSort_eq]
    exact hord.imp fun h => (le_none hless).mpr (Nat.le_of_lt h)
  · rename_i less hless
    have hs := hw less hless
    rw [← map_insertionSort (fun a b : Row E => less b.entry a.entry = false)
      (fun a b : Str × E => less b.2 a.2 = false) pair _ (fun _ _ _ _ => Iff.rfl)]
    congr 1
    refine insertionSort_congr (hord.imp fun {a b} hab => ?_)
    rw [le_some hless hs]
    exact ⟨fun h => ⟨h, fun _ => Nat.le_of_lt hab⟩, fun h => h.1⟩

theorem map_bytes_upTo {rows : List Str} {k : Nat} (h : Readable p rows k) (hk : k ≤ rows.length) :
    (p.upTo rows k).map Row.bytes = rows.take k := by
  induction k with
  | zero => rfl
  | succ k ih =>
    obtain ⟨row, hrow⟩ := h k (Nat.lt_succ_self k)
    rw [upTo_succ hrow, map_append, ih (fun i hi => h i (by omega)) (by omega),
      take_add_one, (rowAt_eq_some.mp hrow).1]
    rfl

theorem project_yields (hw : p.Ordered) {records : DiskRecords} {rows : List Str}
    (hholds : records.Holds rows) {fault : Nat → Option Error} :
    Yields (fun _ => True) (p.project fault records) fun out =>
      Readable p rows rows.length ∧
        out.Holds (((p.accepted rows rows.length).insertionSort p.le).map Row.bytes) := by
  have hord := p.ordinal_upTo rows rows.length
  have ht := before_total hw hord
  have hdec := p.decoded_upTo hholds rows.length
  have hcount := hholds.count
  refine refuse_yields.bind fun _ hbuffer => .skip (access_yields fault) fun _ => ?_
  have hstart : p.accepted rows (rows.length - records.count) = [] := by
    rw [hcount, Nat.sub_self]; rfl
  refine (split_yields hholds hw (by omega) (Nat.le_refl _) hcount.le .nil (by rw [hstart]; rfl)
    (fun i hi => by omega)).bind fun levels ⟨rss, hlevels, hperm, hread⟩ => ?_
  refine (combine_yields hdec ht hlevels (.inl ⟨rfl, rfl⟩)).bind
    fun combined ⟨rows', hperm', hcombined⟩ => ?_
  have hall : rows'.Perm (p.accepted rows rows.length) := hperm'.trans hperm
  have hmem : ∀ row ∈ p.accepted rows rows.length, row ∈ p.upTo rows rows.length :=
    fun row h => mem_of_mem_filter h
  refine DiskRecords.create_yields.bind fun out hout => ?_
  refine .bind (Q := fun out' : DiskRecords => out'.Holds (rows'.map Row.bytes)) ?_
    fun out' hout' => ?_
  · rcases hcombined with ⟨rfl, rfl⟩ | ⟨run, rfl, hrun⟩
    · exact .pure hout
    · have hlen : run.count = rows'.length := by rw [hrun.holds.count, length_map]
      exact strip_yields hdec hrun hlen.le (by rw [hlen, Nat.sub_self]; exact hout)
  · refine .skip (access_yields fault) fun _ => .pure ⟨hread, ?_⟩
    have hsorted : rows'.Pairwise p.le := by
      rcases hcombined with ⟨rfl, rfl⟩ | ⟨run, rfl, hrun⟩
      · exact .nil
      · exact hrun.sorted
    rw [← eq_insertionSort ht hmem hall hsorted]
    exact hout'

/-- Rows that are projected can be decoded, and are sorted with what they are decoded to. -/
theorem project_decoded (hw : p.Ordered) {records : DiskRecords} {rows : List Str}
    (hholds : records.Holds rows) {fault : Nat → Option Error} :
    Yields (fun _ => True) (p.project fault records) fun out =>
      ∃ decoded : List (Str × E), decoded.map Prod.fst = rows ∧
        (∀ e ∈ decoded, p.decodeEntry e.1 = .ok e.2) ∧
        out.Holds ((p.sorted decoded).map Prod.fst) := by
  refine (project_yields hw hholds).weaken fun out ⟨hread, hout⟩ => ?_
  refine ⟨(p.upTo rows rows.length).map pair, ?_, fun e he => ?_, ?_⟩
  · rw [map_map, show Prod.fst ∘ pair = Row.bytes (E := E) from rfl,
      map_bytes_upTo hread (Nat.le_refl _), take_length]
  · obtain ⟨row, hrow, rfl⟩ := mem_map.mp he
    exact (decoded_upTo hholds _ row hrow).entry
  · rw [sorted_rows hw (ordinal_upTo rows _), map_map]
    exact hout

end Projection

/-- Whenever `Project` returns, with whatever buffer, every row of the index could be decoded, and
the rows of the new index are the stable sort of the accepted ones. -/
theorem project_sorts (p : Projection E) (hw : p.Ordered) (index : PagedEntryIndex)
    (fault : Nat → Option Error) {clock clock' : Nat} {out : DiskRecords}
    (h : (p.project fault index.records).run clock = .ok (out, clock')) :
    ∃ decoded : List (Str × E), index.records.Holds (decoded.map Prod.fst) ∧
      (∀ e ∈ decoded, p.decodeEntry e.1 = .ok e.2) ∧
      out.Holds ((p.sorted decoded).map Prod.fst) := by
  obtain ⟨rows, hholds⟩ := index.wf
  obtain ⟨decoded, rfl, hdecoded, hout⟩ := (Projection.project_decoded hw hholds).of_ok h
  exact ⟨decoded, hholds, hdecoded, hout⟩

/-- Three rows of one byte, as `Build` writes them. -/
def threeRows : DiskRecords :=
  match (do
    let r ← DiskRecords.append (fun _ => none) {} [2]
    let r ← r.append (fun _ => none) [1]
    r.append (fun _ => none) [3] : Disk DiskRecords).run 0 with
  | .ok (r, _) => r
  | .error _ => {}

theorem threeRows_holds : threeRows.Holds [[2], [1], [3]] where
  count := by decide +kernel
  end_ := by decide +kernel
  offsets := by decide +kernel
  small := by decide +kernel
  few := by decide +kernel
  row i bytes h := by
    match i, h with
    | 0, h => cases h; exact ⟨0, by decide +kernel⟩
    | 1, h => cases h; exact ⟨1, by decide +kernel⟩
    | 2, h => cases h; exact ⟨2, by decide +kernel⟩

/-- Entries are single bytes; only those below three are wanted. -/
def byteProjection : Projection UInt8 where
  less := some fun a b => a < b
  accept := some fun a => a < 3
  buffer := ⟨1, 1, 2⟩
  decodeEntry
    | [b] => .ok b
    | _ => .error (diskError "index-corrupt")
  overhead _ := 0

theorem byteProjection_ordered : byteProjection.Ordered := by
  rintro less hless
  cases hless
  refine ⟨fun a => by simp, fun a b c => ?_, fun a b c => ?_⟩
  · simp only [decide_eq_true_eq]
    exact fun h1 h2 => UInt8.lt_trans h1 h2
  · simp only [decide_eq_false_iff_not, UInt8.not_lt]
    exact fun h1 h2 h3 h4 => ⟨UInt8.le_trans h3 h1, UInt8.le_trans h2 h4⟩

theorem project_sorts_three : ∃ out decoded, threeRows.Holds (decoded.map Prod.fst) ∧
    (∀ e ∈ decoded, byteProjection.decodeEntry e.1 = .ok e.2) ∧
    DiskRecords.Holds out ((byteProjection.sorted decoded).map Prod.fst) := by
  cases h : (byteProjection.project (fun _ => none) threeRows).run 0 with
  | error e =>
    have : ((byteProjection.project (fun _ => none) threeRows).run 0).isOk = true := by
      decide +kernel
    rw [h] at this
    cases this
  | ok out =>
    exact ⟨out.1, project_sorts byteProjection byteProjection_ordered
      ⟨threeRows, _, threeRows_holds⟩ (fun _ => none) h⟩

end Hc.Storage
