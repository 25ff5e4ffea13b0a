import HyperCommander.Text.FileNameGlob

/-!
# What the globs match

* `Spans`: the points between two offsets; `Spans.next`, `Spans.previous` read them from either end.
* `matchesRuns_spec`: the run matcher follows the runs.
-/

namespace Hc.Text

open List Unicode Glob

/-! ### Points between two offsets -/

/-- The points `ps` of a name lie from offset `i` to offset `j`, and no pair is cut at either. -/
def Spans (name : Units) (i j : Nat) (ps : List Nat) : Prop :=
  ∃ before mid after : Units, name = before ++ (mid ++ after) ∧ i = before.length ∧
    j = before.length + mid.length ∧ Apart before (mid ++ after) ∧ Apart (before ++ mid) after ∧
    points mid = ps

section Spans

variable {name : Units} {i j p : Nat} {ps qs : List Nat}

theorem spans_whole (name : Units) : Spans name 0 name.length (points name) :=
  ⟨[], name, [], by simp, rfl, by simp, apart_nil_left, apart_nil_right, rfl⟩

theorem Spans.eq_of_nil (h : Spans name i j []) : i = j := by
  obtain ⟨before, mid, after, -, rfl, rfl, -, -, hp⟩ := h
  rw [points_eq_nil_iff.1 hp]
  rfl

theorem Spans.lt_of_cons (h : Spans name i j (p :: qs)) : i < j := by
  obtain ⟨before, mid, after, -, rfl, rfl, -, -, hp⟩ := h
  cases mid with
  | nil => cases hp
  | cons u mid => simp

/-- The first point of a span. -/
theorem Spans.next (h : Spans name i j (p :: ps)) :
    (next name i).1 = p ∧ Spans name (next name i).2 j ps := by
  obtain ⟨before, mid, after, rfl, rfl, rfl, ha, hb, hp⟩ := h
  cases mid with
  | nil => cases hp
  | cons u mid =>
    cases hrest : mid ++ after with
    | nil =>
      obtain ⟨rfl, rfl⟩ := append_eq_nil_iff.1 hrest
      cases hp
      refine ⟨by simp [Text.next], before ++ [u], [], [], ?_, ?_, ?_, ?_, ?_, rfl⟩ <;>
        simp [Text.next]
    | cons v rest =>
      have hu : (before ++ (u :: mid ++ after)).getD before.length 0 = u := by simp
      have hv : (before ++ (u :: mid ++ after)).getD (before.length + 1) 0 = v := by
        simp [hrest]
      have hl : before.length + 1 < (before ++ (u :: mid ++ after)).length := by
        simp [hrest]
      unfold Text.next
      simp only [hu, hv, hl, decide_true, Bool.and_true]
      by_cases hpair : isHigh u = true ∧ isLow v = true
      · rw [if_pos (by simp [hpair])]
        -- the pair lies inside of the span, for its end does not cut one
        cases mid with
        | nil =>
          obtain rfl : after = v :: rest := hrest
          exact absurd hpair (apart_concat_cons.1 hb)
        | cons v' mid =>
          obtain ⟨rfl, rfl⟩ : v' = v ∧ mid ++ after = rest := by simpa using hrest
          rw [points_pair hpair] at hp
          obtain ⟨rfl, rfl⟩ := cons.inj hp
          refine ⟨rfl, before ++ [u, v'], mid, after, by simp, by simp, by simp; omega, ?_, ?_, rfl⟩
          · rw [show before ++ [u, v'] = (before ++ [u]) ++ [v'] by simp]
            refine apart_of_not_isHigh ?_
            by_contra hh
            have := not_isLow_of_isHigh (by simpa using hh)
            rw [hpair.2] at this
            cases this
          · simpa using hb
      · rw [if_neg (by simpa using hpair)]
        have hseam : Apart [u] mid := by
          cases mid with
          | nil => exact apart_nil_right
          | cons v' mid =>
            obtain ⟨rfl, -⟩ : v' = v ∧ mid ++ after = rest := by simpa using hrest
            exact apart_concat_cons (a := []).2 hpair
        rw [points_cons hseam] at hp
        cases hp
        refine ⟨rfl, before ++ [u], mid, after, by simp, by simp, by simp; omega, ?_, ?_, rfl⟩
        · rw [hrest]
          exact apart_concat_cons.2 hpair
        · simpa using hb

/-- The last point of a span. -/
theorem Spans.previous (h : Spans name i j (ps ++ [p])) :
    i < j ∧ (previous name j).1 = p ∧ Spans name i (previous name j).2 ps := by
  obtain ⟨before, mid, after, rfl, rfl, rfl, ha, hb, hp⟩ := h
  rcases eq_nil_or_concat mid with rfl | ⟨mid, v, rfl⟩
  · simp [points] at hp
  rw [concat_eq_append] at *
  have hv : (before ++ (mid ++ [v] ++ after)).getD (before.length + (mid ++ [v]).length -
      1) 0 = v := by
    rw [show before.length + (mid ++ [v]).length - 1 = (before ++ mid).length by simp]
    simp
  rcases eq_nil_or_concat (before ++ mid) with hnil | ⟨front, u, hfront⟩
  · obtain ⟨rfl, rfl⟩ := append_eq_nil_iff.1 hnil
    have hs : ps = [] ∧ v.toNat = p := by
      cases ps <;> simp_all [points]
    obtain ⟨rfl, rfl⟩ := hs
    refine ⟨by simp, by simp [Text.previous], [], [], v :: after, by simp, ?_, ?_, ?_, ?_, rfl⟩ <;>
      simp [Text.previous]
  rw [concat_eq_append] at hfront
  have hlen : before.length + mid.length = front.length + 1 := by
    simpa using congrArg length hfront
  have hu : (before ++ (mid ++ [v] ++ after)).getD (before.length + (mid ++ [v]).length -
      2) 0 = u := by
    rw [show before.length + (mid ++ [v]).length - 2 = front.length by simp; omega]
    rw [show before ++ (mid ++ [v] ++ after) = (before ++ mid) ++ (v :: after) by simp, hfront]
    simp
  have hpos : 0 < before.length + (mid ++ [v]).length - 1 := by
    simp
    omega
  refine ⟨by simp, ?_⟩
  unfold Text.previous
  simp only [hv, hu, hpos, decide_true, Bool.and_true]
  by_cases hpair : isHigh u = true ∧ isLow v = true
  · rw [if_pos (by simp [hpair])]
    -- the pair does not reach over the front of the span
    rcases eq_nil_or_concat mid with rfl | ⟨mid, w, rfl⟩
    · rw [append_nil] at hfront
      subst hfront
      exact absurd hpair (apart_concat_cons.1 (by simpa using ha))
    · rw [concat_eq_append] at *
      obtain ⟨rfl, hw⟩ : before ++ mid = front ∧ w = u := by
        rw [← append_assoc] at hfront
        exact ⟨(append_inj' hfront rfl).1, by simpa using (append_inj' hfront rfl).2⟩
      subst hw
      have hseam : Apart mid [w, v] := by
        refine apart_of_not_isLow (not_isLow_of_isHigh hpair.1)
      rw [append_assoc, singleton_append, points_append hseam, points_pair hpair] at hp
      obtain ⟨rfl, he⟩ := append_inj' hp (by simp [points])
      obtain ⟨rfl, -⟩ := cons.inj he
      refine ⟨rfl, before, mid, w :: v :: after, by simp, rfl, by simp; omega, ?_, ?_, rfl⟩
      · simpa using ha
      · exact apart_of_not_isLow (not_isLow_of_isHigh hpair.1)
  · rw [if_neg (by simpa [and_comm] using hpair)]
    have hfull : Apart (before ++ mid) (v :: after) := by
      rw [hfront]
      exact apart_concat_cons.2 hpair
    have hseam : Apart mid [v] := by
      rcases eq_nil_or_concat mid with rfl | ⟨mid, w, rfl⟩
      · exact apart_nil_left
      · rw [concat_eq_append, ← append_assoc] at hfull
        rw [concat_eq_append]
        exact apart_concat_cons.2 (apart_concat_cons.1 hfull)
    rw [points_append hseam] at hp
    obtain ⟨rfl, he⟩ := append_inj' hp rfl
    cases he
    exact ⟨rfl, before, mid, v :: after, by simp, rfl, by simp, by simpa using ha, hfull, rfl⟩

end Spans

/-! ### The run matcher -/

/-- The folded points of a span. -/
def Folded (casing : Casing) (name : Units) (i j : Nat) (cs : List Nat) : Prop :=
  ∃ ps, Spans name i j ps ∧ ps.map (fold casing) = cs

section Runs

variable {casing : Casing} {name : Units} {i j c : Nat} {cs run first last : List Nat}
  {inner : List (List Nat)}

theorem folded_whole (casing : Casing) (name : Units) :
    Folded casing name 0 name.length ((points name).map (fold casing)) :=
  ⟨_, spans_whole name, rfl⟩

theorem Folded.eq_of_nil (h : Folded casing name i j []) : i = j := by
  obtain ⟨ps, hs, hp⟩ := h
  rw [map_eq_nil_iff] at hp
  exact (hp ▸ hs).eq_of_nil

theorem Folded.next (h : Folded casing name i j (c :: cs)) :
    i < j ∧ fold casing (next name i).1 = c ∧ Folded casing name (next name i).2 j cs := by
  obtain ⟨_, hs, hp⟩ := h
  obtain ⟨p, ps, rfl, hc, hps⟩ := map_eq_cons_iff.1 hp
  obtain ⟨hn, hs'⟩ := hs.next
  exact ⟨hs.lt_of_cons, hn ▸ hc, ps, hs', hps⟩

theorem Folded.previous (h : Folded casing name i j (cs ++ [c])) :
    i < j ∧ fold casing (previous name j).1 = c ∧ Folded casing name i (previous name j).2 cs := by
  obtain ⟨_, hs, hp⟩ := h
  obtain ⟨ps, one, rfl, hps, hone⟩ := map_eq_append_iff.1 hp
  obtain ⟨p, hp', hc⟩ := map_eq_singleton_iff.1 hone
  subst hp'
  obtain ⟨hlt, hn, hs'⟩ := hs.previous
  exact ⟨hlt, hn ▸ hc, ps, hs', hps⟩

theorem takeRun_append (h : Folded casing name i j (run ++ cs)) :
    ∃ i', takeRun casing name j run i = some i' ∧ Folded casing name i' j cs := by
  induction run generalizing i with
  | nil => exact ⟨i, rfl, h⟩
  | cons c run ih =>
    obtain ⟨hlt, hc, h'⟩ := Folded.next h
    obtain ⟨i', ht, hf⟩ := ih h'
    refine ⟨i', ?_, hf⟩
    rw [takeRun, if_neg (by omega), if_neg (not_not.2 hc), ht]

theorem takeRun_none (h : Folded casing name i j cs) (hr : ¬run <+: cs) :
    takeRun casing name j run i = none := by
  induction run generalizing i cs with
  | nil => exact absurd nil_prefix hr
  | cons c run ih =>
    rw [takeRun]
    cases cs with
    | nil =>
      have := h.eq_of_nil
      rw [if_pos (by omega)]
    | cons d cs =>
      obtain ⟨hlt, hc, h'⟩ := h.next
      rw [if_neg (by omega), hc]
      by_cases hd : d = c
      · rw [if_neg (not_not.2 hd)]
        exact ih h' fun hp => hr (by rw [hd]; exact cons_prefix_cons.2 ⟨rfl, hp⟩)
      · rw [if_pos hd]

theorem takeBack_append (run : List Nat) (h : Folded casing name i j (cs ++ run.reverse)) :
    ∃ j', takeBack casing name i run j = some j' ∧ Folded casing name i j' cs := by
  induction run generalizing j with
  | nil => exact ⟨j, rfl, by simpa using h⟩
  | cons c run ih =>
    rw [reverse_cons, ← append_assoc] at h
    obtain ⟨hlt, hc, h'⟩ := h.previous
    obtain ⟨j', ht, hf⟩ := ih h'
    refine ⟨j', ?_, hf⟩
    rw [takeBack, if_neg (by omega), if_neg (not_not.2 hc), ht]

theorem takeBack_none (h : Folded casing name i j cs) (hr : ¬run.reverse <:+ cs) :
    takeBack casing name i run j = none := by
  induction run generalizing j cs with
  | nil => exact absurd nil_suffix hr
  | cons c run ih =>
    rw [takeBack]
    rcases eq_nil_or_concat cs with rfl | ⟨cs, d, rfl⟩
    · have := h.eq_of_nil
      rw [if_pos (by omega)]
    · rw [concat_eq_append] at h hr
      obtain ⟨hlt, hc, h'⟩ := h.previous
      rw [if_neg (by omega), hc]
      by_cases hd : d = c
      · rw [if_neg (not_not.2 hd)]
        refine ih h' fun ⟨front, hp⟩ => hr ⟨front, ?_⟩
        rw [reverse_cons, ← append_assoc, hp, hd]
      · rw [if_pos hd]

/-- An inner run is found at its leftmost place, or stands nowhere. -/
theorem seekRun_spec (h : Folded casing name i j cs) (hr : run ≠ []) :
    (∃ i' a b, seekRun casing name j run i = some i' ∧ cs = a ++ (run ++ b) ∧
        Folded casing name i' j b ∧ ∀ a' b', cs = a' ++ (run ++ b') → a.length ≤ a'.length) ∨
      seekRun casing name j run i = none ∧ ∀ a b, cs ≠ a ++ (run ++ b) := by
  induction cs generalizing i with
  | nil =>
    have := h.eq_of_nil
    refine .inr ⟨by rw [seekRun, if_pos (by omega)], fun a b hab => hr ?_⟩
    simp [eq_comm] at hab
    exact hab.2.1
  | cons c cs ih =>
    obtain ⟨hlt, -, h'⟩ := h.next
    rw [seekRun, if_neg (by omega)]
    by_cases hp : run <+: c :: cs
    · obtain ⟨b, hb⟩ := hp
      obtain ⟨i', ht, hf⟩ := takeRun_append (hb ▸ h)
      rw [ht]
      exact .inl ⟨i', [], b, rfl, hb.symm, hf, fun _ _ _ => Nat.zero_le _⟩
    · rw [takeRun_none h hp]
      have hfront : ∀ a b, c :: cs = a ++ (run ++ b) →
          ∃ a', a = c :: a' ∧ cs = a' ++ (run ++ b) := by
        intro a b hab
        cases a with
        | nil => exact absurd ⟨b, hab.symm⟩ hp
        | cons d a =>
          obtain ⟨rfl, htail⟩ := cons.inj hab
          exact ⟨a, rfl, htail⟩
      rcases ih h' with ⟨i', a, b, hs, rfl, hf, hleft⟩ | ⟨hs, hno⟩
      · refine .inl ⟨i', c :: a, b, hs, rfl, hf, fun a' b' hab => ?_⟩
        obtain ⟨a', rfl, htail⟩ := hfront a' b' hab
        exact Nat.succ_le_succ (hleft a' b' htail)
      · refine .inr ⟨hs, fun a b hab => ?_⟩
        obtain ⟨a', -, htail⟩ := hfront a b hab
        exact hno a' b htail

theorem seekRuns_spec (h : Folded casing name i j cs) (hr : ∀ run ∈ inner, run ≠ []) :
    (inner.foldlM (fun i run => seekRun casing name j run i) i).isSome = true ↔
      Strewn inner cs := by
  induction inner generalizing i cs with
  | nil => simp [Strewn]
  | cons run inner ih =>
    rw [foldlM_cons]
    rcases seekRun_spec h (hr run (by simp)) with ⟨i', a, b, hs, hcs, hf, hleft⟩ | ⟨hs, hno⟩
    · rw [hs, strewn_cons hcs hleft, ← ih hf fun r hm => hr r (by simp [hm])]
      rfl
    · rw [hs]
      refine iff_of_false (by simp) ?_
      rintro ⟨a, b, hab, -⟩
      exact hno a b hab

/-- A name without the units of the separators has no separator among its points. -/
theorem no_separator_iff :
    (!name.contains 0x2f && !name.contains 0x5c) = true ↔
      ∀ p ∈ points name, separator p = false := by
  have h1 : 0x2f ∈ points name ↔ (0x2f : UInt16) ∈ name := toNat_mem_points (u := 0x2f) (by decide)
  have h2 : 0x5c ∈ points name ↔ (0x5c : UInt16) ∈ name := toNat_mem_points (u := 0x5c) (by decide)
  simp only [Bool.and_eq_true, Bool.not_eq_true', contains_eq_mem, decide_eq_false_iff_not,
    ← h1, ← h2, separator, Bool.or_eq_false_iff, beq_eq_false_iff_ne]
  constructor
  · rintro ⟨n1, n2⟩ p hp
    exact ⟨fun e => n1 (e ▸ hp), fun e => n2 (e ▸ hp)⟩
  · intro hall
    exact ⟨fun hm => (hall _ hm).1 rfl, fun hm => (hall _ hm).2 rfl⟩

/-- The run matcher follows the runs, and refuses a name with a separator. -/
theorem matchesRuns_spec (hr : ∀ run ∈ inner, run ≠ []) :
    matchesRuns casing (first :: (inner ++ [last])) name = true ↔
      (∃ mid, (points name).map (fold casing) = first ++ (mid ++ last) ∧ Strewn inner mid) ∧
        ∀ p ∈ points name, separator p = false := by
  have hw := folded_whole casing name
  unfold matchesRuns
  rw [Bool.and_assoc, Bool.and_eq_true, no_separator_iff]
  refine and_congr_left fun _ => ?_
  simp only [headD_cons, tail_cons, dropLast_concat, Option.bind_eq_bind]
  rw [show (first :: (inner ++ [last])).getLastD [] = last by
    rw [← cons_append, getLastD_concat]]
  by_cases hfirst : first <+: (points name).map (fold casing)
  · obtain ⟨rest, hrest⟩ := hfirst
    obtain ⟨i, hi, hf⟩ := takeRun_append (hrest ▸ hw)
    rw [hi, Option.bind_some]
    have hcut : ∀ mid, (points name).map (fold casing) = first ++ (mid ++ last) ↔
        rest = mid ++ last := by
      intro mid
      rw [← hrest, append_cancel_left_eq]
    simp only [hcut]
    by_cases hlast : last <:+ rest
    · obtain ⟨mid, rfl⟩ := hlast
      obtain ⟨j, hj, hm⟩ := takeBack_append last.reverse (by simpa using hf)
      rw [hj, Option.bind_some, seekRuns_spec hm hr]
      constructor
      · exact fun h => ⟨mid, rfl, h⟩
      · rintro ⟨mid', h, hs⟩
        rwa [append_cancel_right h]
    · rw [takeBack_none hf (by simpa using hlast)]
      refine iff_of_false (by simp) ?_
      rintro ⟨mid, h, -⟩
      exact hlast ⟨mid, h.symm⟩
  · rw [takeRun_none hw hfirst]
    refine iff_of_false (by simp) ?_
    rintro ⟨mid, h, -⟩
    exact hfirst ⟨_, h.symm⟩

end Runs

end Hc.Text
