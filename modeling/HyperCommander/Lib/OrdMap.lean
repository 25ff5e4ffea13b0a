import Mathlib.Algebra.Order.Ring.Int
import Mathlib.Data.List.Perm.Basic
import Mathlib.Data.List.Lex
import Mathlib.Data.List.Pairwise

/-!
# Ordered maps

A map as the list of its entries in key order, with the search for the first key that is not
below a bound.

* `find_set`, `find_erase`: what updates do to searches.
* `lowerBound_eq_some`: the first entry from a bound on.
* `countP_set`, `countP_of_find`: what updates do to the number of entries with a property.
* `lowerBound_prefix`: with words as keys, the first entry from a word on decides whether the word
  begins any key.
-/

/-- Entries with distinct keys, in key order. -/
structure OrdMap (κ ν : Type*) [LT κ] where
  entries : List (κ × ν)
  sorted : entries.Pairwise fun a b => a.1 < b.1
deriving DecidableEq

namespace OrdMap

open Option List

variable {κ ν : Type*} [LinearOrder κ]

def empty : OrdMap κ ν := ⟨[], .nil⟩

def find (m : OrdMap κ ν) (k : κ) : Option ν := (m.entries.find? fun e => e.1 = k).map Prod.snd

def set (m : OrdMap κ ν) (k : κ) (v : ν) : OrdMap κ ν where
  entries := m.entries.filter (fun e => e.1 < k) ++ (k, v) :: m.entries.filter fun e => k < e.1
  sorted := by
    refine List.pairwise_append.mpr ⟨m.sorted.filter _, ?_, ?_⟩
    · refine List.pairwise_cons.mpr ⟨fun e he => ?_, m.sorted.filter _⟩
      simpa using (List.mem_filter.mp he).2
    · intro a ha b hb
      have hak : a.1 < k := by simpa using (List.mem_filter.mp ha).2
      rcases List.mem_cons.mp hb with rfl | hb
      · exact hak
      · exact hak.trans (by simpa using (List.mem_filter.mp hb).2)

def erase (m : OrdMap κ ν) (k : κ) : OrdMap κ ν where
  entries := m.entries.filter fun e => e.1 ≠ k
  sorted := m.sorted.filter _

/-- The first entry whose key is not below `k`. -/
def lowerBound (m : OrdMap κ ν) (k : κ) : Option (κ × ν) := m.entries.find? fun e => k ≤ e.1

variable {m : OrdMap κ ν} {k l : κ} {v w : ν}

theorem mem_entries : (k, v) ∈ m.entries ↔ m.find k = some v := by
  rcases m with ⟨es, hs⟩
  simp only [find]
  induction es with
  | nil => simp
  | cons e es ih =>
    obtain ⟨hlt, hs⟩ := pairwise_cons.mp hs
    rw [mem_cons, find?_cons]
    by_cases he : e.1 = k
    · have hnot : (k, v) ∉ es := fun hm => absurd (hlt _ hm) (by simp [he])
      simp only [he, decide_true, map_some, some.injEq, hnot, or_false]
      rw [← he]
      exact ⟨fun h => h ▸ rfl, fun h => h ▸ rfl⟩
    · rw [ih hs]
      have hne : (k, v) ≠ e := fun h => he (h ▸ rfl)
      simp [he, hne]

theorem find_eq_none : m.find k = none ↔ ∀ e ∈ m.entries, e.1 ≠ k := by
  simp [find]

@[simp] theorem find_empty : (empty : OrdMap κ ν).find k = none := rfl

@[simp] theorem find_set_self : (m.set k v).find k = some v :=
  mem_entries.mp (by simp [set])

theorem find_set_of_ne (h : l ≠ k) : (m.set k v).find l = m.find l := by
  apply ext
  intro w
  rw [← mem_entries, ← mem_entries]
  simp only [set, mem_append, mem_filter, mem_cons, Prod.mk.injEq, h, false_and,
    false_or, decide_eq_true_eq, ← and_or_left, and_iff_left_iff_imp]
  exact fun _ => lt_or_gt_of_ne h

theorem find_set : (m.set k v).find l = if l = k then some v else m.find l := by
  by_cases h : l = k
  · rw [if_pos h, h, find_set_self]
  · rw [if_neg h, find_set_of_ne h]

theorem find_erase : (m.erase k).find l = if l = k then none else m.find l := by
  apply ext
  intro w
  rw [← mem_entries]
  by_cases h : l = k
  · simp [erase, h]
  · rw [if_neg h, ← mem_entries]
    simp [erase, h]

/-- The search from a bound on finds the least key there. -/
theorem lowerBound_eq_some : m.lowerBound k = some (l, v) ↔
    m.find l = some v ∧ k ≤ l ∧ ∀ l' w, m.find l' = some w → k ≤ l' → l ≤ l' := by
  rw [← mem_entries]
  simp only [← mem_entries]
  rcases m with ⟨es, hs⟩
  simp only [lowerBound]
  induction es with
  | nil => simp
  | cons e es ih =>
    obtain ⟨hlt, hs⟩ := pairwise_cons.mp hs
    rw [find?_cons]
    by_cases he : k ≤ e.1
    · simp only [he, decide_true, some.injEq]
      constructor
      · rintro rfl
        refine ⟨mem_cons_self, he, fun l' w hm _ => ?_⟩
        rcases mem_cons.mp hm with h | h
        · exact (congrArg Prod.fst h).ge
        · exact (hlt _ h).le
      · rintro ⟨hm, -, hmin⟩
        rcases mem_cons.mp hm with h | h
        · exact h.symm
        · exact absurd (hmin e.1 e.2 mem_cons_self he) (hlt _ h).not_ge
    · simp only [he, decide_false, ih hs, mem_cons]
      have hne : ∀ {l' w}, k ≤ l' → (l', w) ≠ e := fun hk h => he (h ▸ hk)
      constructor
      · rintro ⟨hm, hk, hmin⟩
        exact ⟨.inr hm, hk, fun l' w hm' hk' => hmin l' w (hm'.resolve_left (hne hk')) hk'⟩
      · rintro ⟨hm, hk, hmin⟩
        exact ⟨hm.resolve_left (hne hk), hk, fun l' w hm' => hmin l' w (.inr hm')⟩

theorem lowerBound_eq_none : m.lowerBound k = none ↔ ∀ l v, m.find l = some v → l < k := by
  simp only [lowerBound, find?_eq_none, decide_eq_true_eq, not_le, ← mem_entries]
  exact ⟨fun h l v hm => h _ hm, fun h e he => h e.1 e.2 he⟩

theorem nodup (m : OrdMap κ ν) : m.entries.Nodup :=
  m.sorted.imp fun h heq => absurd h (by simp [heq])

/-- Maps with the same searches are equal. -/
theorem ext_find {m m' : OrdMap κ ν} (h : ∀ k, m.find k = m'.find k) : m = m' := by
  have hp : m.entries.Perm m'.entries :=
    (perm_ext_iff_of_nodup m.nodup m'.nodup).mpr fun ⟨k, v⟩ => by
      rw [mem_entries, mem_entries, h]
  have heq : m.entries = m'.entries :=
    hp.eq_of_pairwise (fun a b _ _ hab hba => absurd hab hba.asymm) m.sorted m'.sorted
  cases m
  cases m'
  cases heq
  rfl

theorem ext_mem {m m' : OrdMap κ ν} (h : ∀ e, e ∈ m.entries ↔ e ∈ m'.entries) : m = m' :=
  ext_find fun k => ext fun v => by rw [← mem_entries, ← mem_entries, h]

/-- A key above all others goes to the end. -/
theorem entries_set_of_forall_lt (h : ∀ e ∈ m.entries, e.1 < k) :
    (m.set k v).entries = m.entries ++ [(k, v)] := by
  have h1 : m.entries.filter (fun e => e.1 < k) = m.entries :=
    filter_eq_self.2 fun e he => decide_eq_true (h e he)
  have h2 : m.entries.filter (fun e => k < e.1) = [] :=
    filter_eq_nil_iff.2 fun e he => by
      rw [decide_eq_true_eq]
      exact not_lt_of_gt (h e he)
  simp only [set, h1, h2]

theorem erase_set : (m.set k v).erase k = m.erase k := ext_find fun l => by
  rw [find_erase, find_erase]
  by_cases h : l = k
  · rw [if_pos h, if_pos h]
  · rw [if_neg h, if_neg h, find_set_of_ne h]

theorem erase_of_find_eq_none (h : m.find k = none) : m.erase k = m := ext_find fun l => by
  rw [find_erase]
  by_cases hl : l = k
  · rw [if_pos hl, hl, h]
  · rw [if_neg hl]

/-! ## Several entries at once -/

/-- The entries with a property. -/
def filter (m : OrdMap κ ν) (p : κ × ν → Bool) : OrdMap κ ν where
  entries := m.entries.filter p
  sorted := m.sorted.filter p

theorem find_filter (p : κ × ν → Bool) :
    (m.filter p).find k = (m.find k).filter fun v => p (k, v) := by
  apply ext
  intro v
  rw [← mem_entries, filter_eq_some_iff, ← mem_entries]
  simp [filter]

/-- A value is set, or the key erased. -/
def put (m : OrdMap κ ν) (k : κ) : Option ν → OrdMap κ ν
  | some v => m.set k v
  | none => m.erase k

theorem find_put {o : Option ν} : (m.put k o).find l = if l = k then o else m.find l := by
  cases o with
  | some v => exact find_set
  | none => exact find_erase

/-- Every entry of a list is put, with the value that `g` gives. -/
def update (m : OrdMap κ ν) (g : κ × ν → Option ν) (es : List (κ × ν)) : OrdMap κ ν :=
  es.foldl (fun m e => m.put e.1 (g e)) m

theorem find_update_of_notMem {g : κ × ν → Option ν} {es : List (κ × ν)}
    (h : ∀ e ∈ es, e.1 ≠ k) : (m.update g es).find k = m.find k := by
  induction es generalizing m with
  | nil => rfl
  | cons e es ih =>
    have hk := h e mem_cons_self
    refine (ih fun e h' => h e (mem_cons_of_mem _ h')).trans ?_
    rw [find_put, if_neg hk.symm]

/-- What updates with the entries of a map do to searches. -/
theorem find_update {d : OrdMap κ ν} (g : κ × ν → Option ν) :
    (m.update g d.entries).find k =
      match d.find k with
      | some v => g (k, v)
      | none => m.find k := by
  rcases hd : d.find k with _ | v
  · exact find_update_of_notMem (find_eq_none.mp hd)
  · obtain ⟨as, bs, he⟩ := append_of_mem (mem_entries.mpr hd)
    have hs := d.sorted
    rw [he, pairwise_append, pairwise_cons] at hs
    have hbs : ∀ e ∈ bs, e.1 ≠ k := fun e h => (hs.2.1.1 e h).ne'
    rw [he, update, foldl_append, foldl_cons]
    refine (find_update_of_notMem (g := g) hbs).trans ?_
    rw [find_put, if_pos rfl]

/-! ## Counting -/

variable (p : κ × ν → Bool)

/-- A map is its entry at a key and the rest. -/
theorem entries_perm (h : m.find k = some v) : m.entries.Perm ((k, v) :: (m.erase k).entries) := by
  have hnd : ((k, v) :: (m.erase k).entries).Nodup :=
    nodup_cons.mpr ⟨by simp [erase], (m.erase k).nodup⟩
  refine (perm_ext_iff_of_nodup m.nodup hnd).mpr fun e => ?_
  obtain ⟨l, w⟩ := e
  rw [mem_cons, mem_entries, mem_entries, find_erase]
  by_cases hl : l = k
  · subst hl
    simp [h, eq_comm]
  · simp [hl]

theorem countP_of_find (h : m.find k = some v) :
    m.entries.countP p = (m.erase k).entries.countP p + if p (k, v) then 1 else 0 := by
  rw [(entries_perm h).countP_eq, countP_cons]

theorem countP_set : (m.set k v).entries.countP p =
    (m.erase k).entries.countP p + if p (k, v) then 1 else 0 := by
  rw [countP_of_find p (find_set_self (m := m) (k := k) (v := v)), erase_set]

/-! ## Words as keys -/

section Words

variable {α : Type*} [LinearOrder α] {a b c : List α}

theorem le_of_isPrefix (h : a <+: b) : a ≤ b := by
  induction a generalizing b with
  | nil => exact not_lt.mp (by simp)
  | cons x a ih =>
    obtain ⟨t, rfl⟩ := h
    rw [cons_append, ← not_lt, cons_lt_cons_iff]
    rintro (h | ⟨-, h⟩)
    · exact lt_irrefl _ h
    · exact not_lt.mpr (ih (prefix_append a t)) h

/-- The words that begin with a word are an interval. -/
theorem prefix_of_between (h : a <+: c) (hab : a ≤ b) (hbc : b ≤ c) : a <+: b := by
  induction a generalizing b c with
  | nil => exact nil_prefix
  | cons x a ih =>
    obtain ⟨t, rfl⟩ := h
    cases b with
    | nil => exact absurd hab (by simp)
    | cons y b =>
      rw [cons_append] at hbc
      rw [← not_lt, cons_lt_cons_iff] at hab hbc
      have hxy : x = y := by
        rcases lt_trichotomy x y with h | h | h
        · exact absurd (.inl h) hbc
        · exact h
        · exact absurd (.inl h) hab
      subst hxy
      refine cons_prefix_cons.mpr ⟨rfl, ih (prefix_append a t) ?_ ?_⟩
      · exact not_lt.mp fun h => hab (.inr ⟨rfl, h⟩)
      · exact not_lt.mp fun h => hbc (.inr ⟨rfl, h⟩)

theorem lowerBound_prefix {m : OrdMap (List α) ν} :
    (∃ e, m.lowerBound a = some e ∧ a <+: e.1) ↔ ∃ b v, m.find b = some v ∧ a <+: b := by
  constructor
  · rintro ⟨e, he, hp⟩
    exact ⟨e.1, e.2, (lowerBound_eq_some.mp he).1, hp⟩
  · rintro ⟨b, v, hb, hp⟩
    rcases hl : m.lowerBound a with _ | ⟨c, w⟩
    · exact absurd (lowerBound_eq_none.mp hl b v hb) (le_of_isPrefix hp).not_gt
    · obtain ⟨-, hac, hmin⟩ := lowerBound_eq_some.mp hl
      exact ⟨(c, w), rfl, prefix_of_between hp hac (hmin b v hb (le_of_isPrefix hp))⟩

/-- The entries from a word on, as long as they begin with it, are all that do. -/
theorem mem_range {m : OrdMap (List α) ν} {e : List α × ν} :
    e ∈ (m.entries.dropWhile fun e => e.1 < a).takeWhile (fun e => a <+: e.1) ↔
      e ∈ m.entries ∧ a <+: e.1 := by
  rcases m with ⟨es, hs⟩
  induction es with
  | nil => simp
  | cons x es ih =>
    obtain ⟨hlt, hs⟩ := pairwise_cons.mp hs
    have ih := ih hs
    by_cases hx : x.1 < a
    · have hne : e ∈ x :: es ∧ a <+: e.1 ↔ e ∈ es ∧ a <+: e.1 := by
        refine ⟨fun ⟨hm, hp⟩ => ⟨(mem_cons.mp hm).resolve_left ?_, hp⟩,
          fun ⟨hm, hp⟩ => ⟨mem_cons_of_mem x hm, hp⟩⟩
        rintro rfl
        exact absurd hx (le_of_isPrefix hp).not_gt
      rw [dropWhile_cons_of_pos (by simpa using hx), hne]
      exact ih
    · have hdrop : ((x :: es).dropWhile fun e => e.1 < a) = x :: es :=
        dropWhile_cons_of_neg (by simpa using hx)
      have hdrop' : (es.dropWhile fun e => e.1 < a) = es := by
        rcases es with _ | ⟨y, es⟩
        · rfl
        · refine dropWhile_cons_of_neg ?_
          have hxy := hlt y mem_cons_self
          simpa using (not_lt.mp hx).trans hxy.le
      rw [hdrop' ] at ih
      rw [hdrop, takeWhile_cons]
      split
      · rename_i hp
        rw [mem_cons, mem_cons, ih]
        constructor
        · rintro (rfl | ⟨hm, hq⟩)
          · exact ⟨.inl rfl, by simpa using hp⟩
          · exact ⟨.inr hm, hq⟩
        · rintro ⟨rfl | hm, hq⟩
          · exact .inl rfl
          · exact .inr ⟨hm, hq⟩
      · rename_i hp
        refine ⟨fun h => absurd h not_mem_nil, fun ⟨hm, hq⟩ => absurd ?_ hp⟩
        rcases mem_cons.mp hm with rfl | hm
        · simpa using hq
        · simpa using prefix_of_between hq (not_lt.mp hx) (hlt e hm).le

end Words

end OrdMap
