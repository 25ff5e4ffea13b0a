import HyperCommander.Zip.ExtraLemmas

/-!
# Merged extra fields keep what persists

* `persistentFields_merged`: what persists of a merged block is what persisted of the original one,
  UNIX and alternate-name records first.
* `merge_consistent`: `Fields` and `Encode` are inverse, `Persistent` is idempotent, and a merged
  block has the persistent fields of the original one exactly when none of these stands before a
  UNIX or alternate-name record and the fresh NTFS times are well formed (`Mergeable`).
-/

open List Outcome

namespace Hc.Zip

open Unicode Storage

/-! ### Merging -/

/-- A UNIX or an alternate-name record. -/
def special (f : Field) : Bool := f.id = 0x5855 ∨ f.id = 0x554e

/-- The time tags of a field. -/
def timeTagsOf (f : Field) : List Field :=
  if f.id = 0xa then ((Tlv.parse (f.data.drop 4)).getD []).filter (fun t => t.id = 1) else []

/-- The NTFS time tags of a block. -/
def timeTags (fs : List Field) : List Field := fs.flatMap timeTagsOf

/-- An NTFS record of nothing but times. -/
def onlyTimes (f : Field) : Bool :=
  f.id = 0xa ∧ f.data.take 4 = List.replicate 4 0 ∧
    ((Tlv.parse (f.data.drop 4)).getD []).all fun t => t.id = 1

/-- The fields of which something persists. -/
def kept (f : Field) : Bool := !generated f.id && !onlyTimes f

/-- A block takes part in a merge that its verification accepts: no other field that persists stands
before a UNIX or alternate-name record, and if it has NTFS times, then those of the fresh block
have their length. -/
def Mergeable (fresh old : List Field) : Prop :=
  (old.filter kept).Pairwise (fun f g => special g → special f) ∧
    (timeTags old ≠ [] → ∀ t ∈ timeTags fresh, t.data.length = 24)

theorem persistentFields_append {fs gs rs : List Field} :
    persistentFields (fs ++ gs) = .ok rs ↔
      ∃ xs ys, persistentFields fs = .ok xs ∧ persistentFields gs = .ok ys ∧ rs = xs ++ ys := by
  induction fs generalizing rs with
  | nil =>
    constructor
    · intro h
      exact ⟨[], rs, rfl, h, rfl⟩
    · rintro ⟨xs, ys, hx, hy, rfl⟩
      cases hx
      exact hy
  | cons f fs ih =>
    rw [cons_append]
    simp only [persistentFields, bind_eq_ok, pure_eq_ok, ih]
    constructor
    · rintro ⟨g, hg, zs, ⟨xs, ys, hx, hy, rfl⟩, rfl⟩
      exact ⟨g.toList ++ xs, ys, ⟨g, hg, xs, hx, rfl⟩, hy, (append_assoc ..).symm⟩
    · rintro ⟨xs, ys, ⟨g, hg, zs, hz, rfl⟩, hy, rfl⟩
      exact ⟨g, hg, zs ++ ys, ⟨zs, ys, hz, hy, rfl⟩, (append_assoc ..).symm⟩

theorem persistentFields_cons {f : Field} {fs rs : List Field} :
    persistentFields (f :: fs) = .ok rs ↔
      ∃ g gs, persistentField f = .ok g ∧ persistentFields fs = .ok gs ∧ rs = g.toList ++ gs := by
  simp only [persistentFields, bind_eq_ok, pure_eq_ok]
  constructor
  · rintro ⟨g, hg, gs, hgs, rfl⟩
    exact ⟨g, gs, hg, hgs, rfl⟩
  · rintro ⟨g, gs, hg, hgs, rfl⟩
    exact ⟨g, hg, gs, hgs, rfl⟩

theorem persistentFields_singleton {f : Field} {rs : List Field} :
    persistentFields [f] = .ok rs ↔ ∃ g, persistentField f = .ok g ∧ rs = g.toList := by
  rw [persistentFields_cons]
  constructor
  · rintro ⟨g, gs, hg, hgs, rfl⟩
    cases hgs
    exact ⟨g, hg, append_nil _⟩
  · rintro ⟨g, hg, rfl⟩
    exact ⟨g, [], hg, rfl, (append_nil _).symm⟩

/-- What persists of a block, field by field. -/
theorem persists_of_persistentFields {fs ks : List Field} (h : persistentFields fs = .ok ks) :
    (∀ f ∈ fs, ∃ r, Persists f r) ∧ ∀ k ∈ ks, ∃ f ∈ fs, Persists f (some k) := by
  induction fs generalizing ks with
  | nil =>
    cases h
    exact ⟨fun f hf => absurd hf not_mem_nil, fun k hk => absurd hk not_mem_nil⟩
  | cons f fs ih =>
    obtain ⟨g, gs, hg, hgs, rfl⟩ := persistentFields_cons.1 h
    obtain ⟨ha, hb⟩ := ih hgs
    have hp := persistentField_iff.1 hg
    refine ⟨forall_mem_cons.2 ⟨⟨g, hp⟩, ha⟩, fun k hk => ?_⟩
    rcases mem_append.1 hk with hk | hk
    · rw [Option.mem_toList] at hk
      rw [hk] at hp
      exact ⟨f, mem_cons_self, hp⟩
    · obtain ⟨f', hf', hk'⟩ := hb k hk
      exact ⟨f', mem_cons_of_mem f hf', hk'⟩

/-- What persists of an NTFS record. -/
theorem persistentField_ntfs {d : List UInt8} {r : Option Field} :
    persistentField ⟨0xa, d⟩ = .ok r ↔
      4 ≤ d.length ∧ ∃ tags, fields (d.drop 4) = .ok tags ∧
        (∀ t ∈ tags, t.id = 1 → t.data.length = 24) ∧
        r = if tags.filter (fun t => t.id ≠ 1) = [] ∧ d.take 4 = List.replicate 4 0 then none
          else some ⟨0xa, d.take 4 ++ encode (tags.filter fun t => t.id ≠ 1)⟩ := by
  have hdef : persistentField ⟨0xa, d⟩ = (failIf (d.length < 4) bad >>= fun _ =>
      fields (d.drop 4) >>= fun tags => unknownTags tags >>= fun unknown =>
        pure (if unknown = [] ∧ d.take 4 = replicate 4 0 then none
          else some ⟨0xa, d.take 4 ++ encode unknown⟩)) := rfl
  rw [hdef]
  simp only [bind_eq_ok, failIf_eq_ok, pure_eq_ok, unknownTags_iff, Nat.not_lt]
  constructor
  · rintro ⟨_, hl, tags, ht, us, ⟨h24, rfl⟩, rfl⟩
    exact ⟨hl, tags, ht, h24, rfl⟩
  · rintro ⟨hl, tags, ht, h24, rfl⟩
    exact ⟨(), hl, tags, ht, _, ⟨h24, rfl⟩, rfl⟩

section Times

variable {ts : List Field} (hfits : ∀ t ∈ ts, t.Fits) (hone : ∀ t ∈ ts, t.id = 1)

include hone in
theorem filter_times : ts.filter (fun t => t.id ≠ 1) = [] := by
  rw [filter_eq_nil_iff]
  intro t ht
  simp [hone t ht]

include hfits hone

/-- NTFS times put into a record that persists are dropped again, if they have their length. -/
theorem persistentField_insert {d : List UInt8}
    (h : persistentField ⟨0xa, d⟩ = .ok (some ⟨0xa, d⟩)) {r : Option Field} :
    persistentField ⟨0xa, d.take 4 ++ encode ts ++ d.drop 4⟩ = .ok r ↔
      (∀ t ∈ ts, t.data.length = 24) ∧ r = some ⟨0xa, d⟩ := by
  obtain ⟨hl, tags, ht, h24, hr⟩ := persistentField_ntfs.1 h
  have hl4 : (d.take 4).length = 4 := by
    rw [length_take]
    omega
  have hdrop : (d.take 4 ++ encode ts ++ d.drop 4).drop 4 = encode (ts ++ tags) := by
    rw [append_assoc, drop_left' hl4, ← encode_fields ht, encode, encode, encode,
      Tlv.encode_append]
  have htake : (d.take 4 ++ encode ts ++ d.drop 4).take 4 = d.take 4 := by
    rw [append_assoc, take_left' hl4]
  have hall : ∀ t ∈ ts ++ tags, t.Fits := fun t hm => (mem_append.1 hm).elim (hfits t)
    (fits_of_fields ht t)
  have hunknown : (ts ++ tags).filter (fun t => t.id ≠ 1) = tags.filter (fun t => t.id ≠ 1) := by
    rw [filter_append, filter_times hone, nil_append]
  rw [persistentField_ntfs, hdrop, htake]
  constructor
  · rintro ⟨-, tags', ht', h24', rfl⟩
    rw [fields_encode hall, Except.ok.injEq] at ht'
    subst ht'
    rw [hunknown, ← hr]
    exact ⟨fun t hm => h24' t (mem_append_left _ hm) (hone t hm), rfl⟩
  · rintro ⟨hts, rfl⟩
    refine ⟨?_, ts ++ tags, fields_encode hall, fun t hm h1 => ?_, ?_⟩
    · rw [append_assoc, length_append, hl4]
      omega
    · exact (mem_append.1 hm).elim (hts t) (fun hm => h24 t hm h1)
    · rw [hunknown, ← hr]

/-- A record of nothing but times does not persist. -/
theorem persistentField_added {r : Option Field} :
    persistentField ⟨0xa, List.replicate 4 0 ++ encode ts⟩ = .ok r ↔
      (∀ t ∈ ts, t.data.length = 24) ∧ r = none := by
  rw [persistentField_ntfs, drop_left' (by rfl), take_left' (by rfl)]
  constructor
  · rintro ⟨-, tags, ht, h24, rfl⟩
    rw [fields_encode hfits, Except.ok.injEq] at ht
    subst ht
    exact ⟨fun t hm => h24 t hm (hone t hm), if_pos ⟨filter_times hone, rfl⟩⟩
  · rintro ⟨hts, rfl⟩
    refine ⟨by simp, ts, fields_encode hfits, fun t hm _ => hts t hm, ?_⟩
    rw [if_pos ⟨filter_times hone, rfl⟩]

end Times

/-! The three loops. -/

variable {fs out ks original rs : List Field} {f : Field} {d keep : List UInt8}
  {item : UpdateItem} {r : Option Field}

theorem fits_timeTags {t : Field} (h : t ∈ timeTags fs) : t.Fits ∧ t.id = 1 := by
  obtain ⟨f, -, hf⟩ := mem_flatMap.1 h
  unfold timeTagsOf at hf
  split at hf
  · rw [mem_filter, decide_eq_true_eq] at hf
    refine ⟨?_, hf.2⟩
    cases hp : Tlv.parse (f.data.drop 4) with
    | none => rw [hp] at hf; exact absurd hf.1 not_mem_nil
    | some tags => rw [hp] at hf; exact Tlv.fits_of_parse hp t hf.1
  · exact absurd hf not_mem_nil

theorem timeTags_cons (f : Field) (fs : List Field) :
    timeTags (f :: fs) = timeTagsOf f ++ timeTags fs := flatMap_cons

theorem timeTagsOf_ntfs {tags : List Field} (hid : f.id = 0xa)
    (ht : fields (f.data.drop 4) = .ok tags) : timeTagsOf f = tags.filter (fun t => t.id = 1) := by
  rw [timeTagsOf, if_pos hid, fields_eq_ok.1 ht, Option.getD_some]

theorem timeTagsOf_of_ne (hid : f.id ≠ 0xa) : timeTagsOf f = [] := if_neg hid

theorem freshFields_spec {times : List Field} (h : freshFields fs = .ok (out, times)) :
    persistentFields out = .ok [] ∧ times = timeTags fs := by
  induction fs generalizing out times with
  | nil =>
    cases h
    exact ⟨rfl, rfl⟩
  | cons f fs ih =>
    rw [freshFields] at h
    rw [timeTags_cons]
    split at h
    · rename_i hid
      simp only [bind_eq_ok, failIf_eq_ok, pure_eq_ok] at h
      obtain ⟨_, -, tags, ht, ⟨out', times'⟩, hr, he⟩ := h
      obtain ⟨rfl, rfl⟩ := Prod.mk.inj he
      obtain ⟨ho, rfl⟩ := ih hr
      exact ⟨ho, by rw [timeTagsOf_ntfs hid ht]⟩
    · rename_i hid
      simp only [bind_eq_ok, pure_eq_ok] at h
      obtain ⟨⟨out', times'⟩, hr, he⟩ := h
      obtain ⟨rfl, rfl⟩ := Prod.mk.inj he
      obtain ⟨ho, rfl⟩ := ih hr
      refine ⟨?_, by rw [timeTagsOf_of_ne hid, nil_append]⟩
      split
      · rename_i hg
        exact persistentFields_cons.2
          ⟨none, [], persistentField_iff.2 (.generated hg.1), ho, rfl⟩
      · exact ho

/-- Writing a time does not change what persists of a UNIX record. -/
theorem persistentField_unix_put {time : Nat} (hl : d.length = 8 ∨ d.length = 12) :
    persistentField ⟨0x5855, put 4 d 4 time⟩ = .ok (some ⟨0x5855, put 4 d 4 0⟩) := by
  have hp := Persists.unix (d := put 4 d 4 time) (by rw [length_put (by omega)]; exact hl)
  rw [put_put (by omega)] at hp
  exact persistentField_iff.2 hp

theorem originalField_spec
    {had : Bool} (hf : Persists f r) (h : originalField item f = .ok (out, had)) :
    persistentFields out = .ok (r.toList.filter special) ∧
      (had = true ↔ timeTagsOf f ≠ []) := by
  obtain ⟨id, d⟩ := f
  unfold originalField at h
  split at h
  · rename_i hid
    subst hid
    have hd : d.length = 8 ∨ d.length = 12 := by
      cases hf with
      | generated hg => cases hg
      | aligned ha _ => rcases ha with ha | ha <;> cases ha
      | unix hl => exact hl
      | plain hp => exact absurd rfl hp.2.2.2.2.1
    have hr : r = some ⟨0x5855, put 4 d 4 0⟩ := by
      have h1 := persistentField_iff.2 hf
      rw [persistentField_iff.2 (.unix hd)] at h1
      exact (Except.ok.inj h1).symm
    subst hr
    have hs : [(⟨0x5855, put 4 d 4 0⟩ : Field)].filter special = [⟨0x5855, put 4 d 4 0⟩] := rfl
    split at h
    · cases h
      refine ⟨?_, iff_of_false Bool.false_ne_true fun hne => hne rfl⟩
      rw [Option.toList_some, hs]
      exact persistentFields_singleton.2 ⟨_, persistentField_iff.2 hf, rfl⟩
    · simp only [bind_eq_ok, pure_eq_ok] at h
      obtain ⟨time, -, he⟩ := h
      obtain ⟨rfl, rfl⟩ := Prod.mk.inj he
      refine ⟨?_, iff_of_false Bool.false_ne_true fun hne => hne rfl⟩
      rw [Option.toList_some, hs]
      exact persistentFields_singleton.2 ⟨_, persistentField_unix_put hd, rfl⟩
  rename_i hunix
  split at h
  · rename_i hid
    subst hid
    have hout : ∃ o, xceedName d [] = .ok o ∧ r = some ⟨0x554e, o⟩ := by
      cases hf with
      | generated hg => cases hg
      | aligned ha _ => rcases ha with ha | ha <;> cases ha
      | name ho => exact ⟨_, ho, rfl⟩
      | plain hp => exact absurd rfl hp.2.2.2.2.2.1
    obtain ⟨o, ho, rfl⟩ := hout
    simp only [bind_eq_ok, pure_eq_ok] at h
    obtain ⟨n, hn, he⟩ := h
    obtain ⟨rfl, rfl⟩ := Prod.mk.inj he
    refine ⟨?_, iff_of_false Bool.false_ne_true fun hne => hne rfl⟩
    have hp : persistentField ⟨0x554e, n⟩ = .ok (some ⟨0x554e, o⟩) := by
      refine persistentField_iff.2 (.name ?_)
      rw [xceedName_xceedName hn (Nat.zero_le _), ho]
    exact persistentFields_singleton.2 ⟨_, hp, rfl⟩
  rename_i hname
  have hns : ∀ g, r = some g → special g = false := by
    rintro g rfl
    have hid : g.id = id := by
      cases hf <;> rfl
    simp only [special, hid, Bool.decide_or, Bool.or_eq_false_iff, decide_eq_false_iff_not]
    exact ⟨hunix, hname⟩
  have hnone : r.toList.filter special = [] := by
    cases r with
    | none => rfl
    | some g => rw [Option.toList_some, filter_cons_of_neg (by rw [hns g rfl]; decide)]; rfl
  rw [hnone]
  split at h
  · rename_i hid
    simp only [bind_eq_ok, pure_eq_ok] at h
    obtain ⟨tags, ht, he⟩ := h
    obtain ⟨rfl, rfl⟩ := Prod.mk.inj he
    refine ⟨rfl, ?_⟩
    rw [timeTagsOf_ntfs hid ht, any_eq_true, ne_eq, filter_eq_nil_iff]
    simp
  rename_i hntfs
  have htags : ¬ timeTagsOf ⟨id, d⟩ ≠ [] := fun hne => hne (timeTagsOf_of_ne hntfs)
  split at h
  · rename_i hid
    subst hid
    have hgen : ∀ e, persistentFields [⟨0x5455, e⟩] = .ok [] := fun e => rfl
    split at h
    · cases h
    · split at h
      · simp only [bind_eq_ok, pure_eq_ok] at h
        obtain ⟨_, -, time, -, he⟩ := h
        obtain ⟨rfl, rfl⟩ := Prod.mk.inj he
        exact ⟨hgen _, iff_of_false Bool.false_ne_true htags⟩
      · cases h
        exact ⟨hgen _, iff_of_false Bool.false_ne_true htags⟩
  · cases h
    exact ⟨rfl, iff_of_false Bool.false_ne_true htags⟩

theorem originalFields_spec {had : Bool}
    (hk : persistentFields fs = .ok ks) (h : originalFields item fs = .ok (out, had)) :
    persistentFields out = .ok (ks.filter special) ∧ (had = true ↔ timeTags fs ≠ []) := by
  induction fs generalizing ks out had with
  | nil =>
    cases hk
    cases h
    exact ⟨rfl, by simp [timeTags]⟩
  | cons f fs ih =>
    obtain ⟨g, gs, hg, hgs, rfl⟩ := persistentFields_cons.1 hk
    simp only [originalFields, bind_eq_ok, pure_eq_ok] at h
    obtain ⟨⟨o, b⟩, ho, ⟨os, bs⟩, hos, he⟩ := h
    obtain ⟨rfl, rfl⟩ := Prod.mk.inj he
    obtain ⟨h1, hb⟩ := originalField_spec (persistentField_iff.1 hg) ho
    obtain ⟨h2, hbs⟩ := ih hgs hos
    refine ⟨?_, ?_⟩
    · rw [filter_append]
      exact persistentFields_append.2 ⟨_, _, h1, h2, rfl⟩
    · rw [timeTags_cons, Bool.or_eq_true, hb, hbs, ne_eq, ne_eq, ne_eq, append_eq_nil_iff,
        not_and_or]

theorem persistentField_md5 {e : List UInt8} (hl : e.length = 19) (hp : e.take 3 = md5) :
    persistentField ⟨0x4b46, e⟩ = .ok (some ⟨0x4b46, md5 ++ List.replicate 16 0⟩) :=
  persistentField_iff.2 (.digest hl hp)

theorem Persists.md5_form (h : Persists ⟨0x4b46, d⟩ r) :
    d.length = 19 ∧ d.take 3 = md5 := by
  cases h with
  | generated hg => cases hg
  | aligned ha _ => rcases ha with ha | ha <;> cases ha
  | digest hl hp => exact ⟨hl, hp⟩
  | plain hp => exact absurd rfl hp.2.2.2.1

/-- What persists of a field that the third loop writes. -/
theorem keptField_spec {ts : List Field} {g : Field} (hfits : ∀ t ∈ ts, t.Fits)
    (hone : ∀ t ∈ ts, t.id = 1) (ho : ∀ s ∈ original, ∃ r, Persists s r) (hg : Persists g (some g))
    (h : keptField item original (encode ts) g = .ok out) :
    persistentFields out = .ok rs ↔
      (g.id = 0xa → ∀ t ∈ ts, t.data.length = 24) ∧ rs = [g].filter (fun f => !special f) := by
  obtain ⟨id, d⟩ := g
  have hkeep := persistentField_iff.2 hg
  unfold keptField at h
  split at h
  · rename_i hid
    simp only [pure_eq_ok] at h
    subst h
    have hs : special ⟨id, d⟩ = true := by simpa [special] using hid
    have hne : id ≠ 0xa := by rcases hid with rfl | rfl <;> decide
    rw [filter_cons_of_neg (by rw [hs]; decide)]
    constructor
    · intro hr
      cases hr
      exact ⟨fun h => absurd h hne, rfl⟩
    · rintro ⟨-, rfl⟩
      rfl
  rename_i hid
  have hs : special ⟨id, d⟩ = false := by
    rw [Bool.eq_false_iff]
    simpa [special] using hid
  have hfilter : [(⟨id, d⟩ : Field)].filter (fun f => !special f) = [⟨id, d⟩] := by
    rw [filter_cons_of_pos (by rw [hs]; decide)]
    rfl
  -- every branch but the one for NTFS records writes a field that persists as `g`
  have hdone : ∀ e, id ≠ 0xa → persistentField ⟨id, e⟩ = .ok (some ⟨id, d⟩) →
      (persistentFields [⟨id, e⟩] = .ok rs ↔
        ((id = 0xa → ∀ t ∈ ts, t.data.length = 24) ∧
          rs = [(⟨id, d⟩ : Field)].filter (fun f => !special f))) := by
    intro e hne hp
    rw [hfilter, persistentFields_singleton]
    constructor
    · rintro ⟨x, hx, rfl⟩
      rw [hp, Except.ok.injEq] at hx
      subst hx
      exact ⟨fun h => absurd h hne, rfl⟩
    · rintro ⟨-, rfl⟩
      exact ⟨_, hp, rfl⟩
  split at h
  · rename_i hmd5
    subst hmd5
    obtain ⟨hl, hp⟩ := hg.md5_form
    have hd : d = md5 ++ replicate 16 0 := by
      rw [persistentField_md5 hl hp, Except.ok.injEq, Option.some.injEq] at hkeep
      exact (congrArg Tlv.Record.data hkeep).symm
    split at h
    · split at h
      · rename_i s hfind
        simp only [pure_eq_ok] at h
        subst h
        obtain ⟨r, hr⟩ := ho s (mem_of_find?_eq_some hfind)
        have hsid : s.id = 0x4b46 := by simpa using find?_some hfind
        obtain ⟨sid, sd⟩ := s
        subst hsid
        obtain ⟨hsl, hsp⟩ := hr.md5_form
        exact hdone sd (by decide) (by rw [persistentField_md5 hsl hsp, hd])
      · simp only [pure_eq_ok] at h
        subst h
        exact hdone d (by decide) hkeep
    · simp only [bind_eq_ok, failIf_eq_ok, not_not, pure_eq_ok] at h
      obtain ⟨_, hlen, rfl⟩ := h
      refine hdone _ (by decide) ?_
      have hl' : (md5 ++ item.legacyMd5).length = 19 := by
        rw [length_append, hlen]
        rfl
      rw [persistentField_md5 hl' (take_left' rfl), hd]
  rename_i hmd5
  split at h
  · rename_i hx
    subst hx
    simp only [pure_eq_ok] at h
    subst h
    rw [hfilter, persistentFields_singleton]
    constructor
    · rintro ⟨x, hx, rfl⟩
      obtain ⟨h24, rfl⟩ := (persistentField_insert hfits hone hkeep).1 hx
      exact ⟨fun _ => h24, rfl⟩
    · rintro ⟨h24, rfl⟩
      exact ⟨_, (persistentField_insert hfits hone hkeep).2 ⟨h24 rfl, rfl⟩, rfl⟩
  · rename_i hx
    simp only [pure_eq_ok] at h
    subst h
    exact hdone d hx hkeep

theorem keptFields_spec {ts : List Field} (hfits : ∀ t ∈ ts, t.Fits) (hone : ∀ t ∈ ts, t.id = 1)
    (ho : ∀ s ∈ original, ∃ r, Persists s r) (hk : ∀ k ∈ ks, Persists k (some k))
    (h : keptFields item original (encode ts) ks = .ok out) :
    persistentFields out = .ok rs ↔
      ((∃ k ∈ ks, k.id = 0xa) → ∀ t ∈ ts, t.data.length = 24) ∧
        rs = ks.filter (fun f => !special f) := by
  induction ks generalizing out rs with
  | nil =>
    cases h
    constructor
    · intro hr
      cases hr
      refine ⟨?_, rfl⟩
      rintro ⟨k, hk, -⟩
      cases hk
    · rintro ⟨-, rfl⟩
      rfl
  | cons k ks ih =>
    obtain ⟨hk1, hks⟩ := forall_mem_cons.1 hk
    simp only [keptFields, bind_eq_ok, pure_eq_ok] at h
    obtain ⟨o, ho1, os, hos, rfl⟩ := h
    have hcons : (k :: ks).filter (fun f => !special f) =
        [k].filter (fun f => !special f) ++ ks.filter (fun f => !special f) := by
      rw [← filter_append, singleton_append]
    rw [persistentFields_append, hcons]
    constructor
    · rintro ⟨xs, ys, hx, hy, rfl⟩
      obtain ⟨h1, rfl⟩ := (keptField_spec hfits hone ho hk1 ho1).1 hx
      obtain ⟨h2, rfl⟩ := (ih hks hos).1 hy
      refine ⟨?_, rfl⟩
      rintro ⟨k', hk', hid⟩
      rcases mem_cons.1 hk' with rfl | hk'
      · exact h1 hid
      · exact h2 ⟨k', hk', hid⟩
    · rintro ⟨h24, rfl⟩
      refine ⟨_, _, (keptField_spec hfits hone ho hk1 ho1).2
        ⟨fun hid => h24 ⟨k, mem_cons_self, hid⟩, rfl⟩, (ih hks hos).2 ⟨?_, rfl⟩, rfl⟩
      rintro ⟨k', hk', hid⟩
      exact h24 ⟨k', mem_cons_of_mem k hk', hid⟩

/-! The order of the persistent fields. -/

/-- Moving the elements with `p` to the front changes nothing exactly when they are in front. -/
theorem filter_append_filter_eq_iff {α : Type} {p : α → Bool} {l : List α} :
    l.filter p ++ l.filter (fun a => !p a) = l ↔ l.Pairwise (fun a b => p b → p a) := by
  induction l with
  | nil => simp
  | cons a l ih =>
    rw [pairwise_cons]
    by_cases ha : p a
    · rw [filter_cons_of_pos ha, filter_cons_of_neg (by simp [ha]), cons_append,
        cons.injEq, ih]
      simp [ha]
    · rw [filter_cons_of_neg ha, filter_cons_of_pos (by simp [ha])]
      constructor
      · intro h
        have hnil : l.filter p = [] := by
          cases hf : l.filter p with
          | nil => rfl
          | cons b bs =>
            rw [hf, cons_append, cons.injEq] at h
            have hb : b ∈ l.filter p := by rw [hf]; exact mem_cons_self
            exact absurd (h.1 ▸ (mem_filter.1 hb).2) ha
        rw [filter_eq_nil_iff] at hnil
        exact ⟨fun b hb hp => absurd hp (hnil b hb),
          pairwise_of_forall_mem_list fun b hb c hc hp => absurd hp (hnil c hc)⟩
      · rintro ⟨h, -⟩
        have hnil : l.filter p = [] :=
          filter_eq_nil_iff.2 fun b hb hp => ha (h b hb hp)
        have hall : l.filter (fun a => !p a) = l :=
          filter_eq_self.2 fun b hb => by
            rw [filter_eq_nil_iff] at hnil
            simpa using hnil b hb
        rw [hnil, hall, nil_append]

theorem Persists.isSome_iff (h : Persists f r) :
    r.isSome = kept f := by
  have hntfs : ∀ {d : List UInt8} {tags : List Field}, fields (d.drop 4) = .ok tags →
      (onlyTimes ⟨0xa, d⟩ = true ↔
        tags.filter (fun t => t.id ≠ 1) = [] ∧ d.take 4 = replicate 4 0) := by
    intro d tags ht
    simp only [onlyTimes, fields_eq_ok.1 ht, Option.getD_some, true_and, Bool.decide_and,
      Bool.and_eq_true, decide_eq_true_eq, all_eq_true, filter_eq_nil_iff, not_not,
      and_comm]
  have hno : ∀ {f : Field}, f.id ≠ 0xa → onlyTimes f = false := fun hid => by
    simp [onlyTimes, hid]
  cases h with
  | generated hg => simp [kept, hg]
  | aligned ha _ =>
    have hg : Zip.generated f.id = false := by rcases ha with ha | ha <;> rw [ha] <;> rfl
    have hid : f.id ≠ 0xa := by rcases ha with ha | ha <;> rw [ha] <;> decide
    rw [kept, hg, hno hid]
    rfl
  | digest _ _ => rfl
  | unix _ => rfl
  | name _ => rfl
  | times hl ht hk hz =>
    have hon : onlyTimes ⟨0xa, _⟩ = true := (hntfs ht).2 ⟨(unknownTags_iff.1 hk).2, hz⟩
    rw [kept, hon]
    rfl
  | @ntfs d tags unknown hl ht hk hz =>
    have hon : onlyTimes ⟨0xa, d⟩ = false := by
      rw [Bool.eq_false_iff, ne_eq, hntfs ht, (unknownTags_iff.1 hk).2]
      exact hz
    rw [kept, hon]
    rfl
  | plain hp => rw [kept, hp.1, hno hp.2.2.2.2.2.2]; rfl

theorem map_id_persistentFields (hf : ∀ f ∈ fs, f.Fits)
    (h : persistentFields fs = .ok ks) : ks.map (·.id) = (fs.filter kept).map (·.id) := by
  induction fs generalizing ks with
  | nil => cases h; rfl
  | cons f fs ih =>
    obtain ⟨g, gs, hg, hgs, rfl⟩ := persistentFields_cons.1 h
    obtain ⟨hf1, hfs⟩ := forall_mem_cons.1 hf
    have hp := persistentField_iff.1 hg
    have hs := hp.isSome_iff
    cases g with
    | none =>
      rw [filter_cons_of_neg (by rw [← hs]; decide)]
      exact ih hfs hgs
    | some g =>
      rw [filter_cons_of_pos (by rw [← hs]; rfl), Option.toList_some, singleton_append,
        map_cons, map_cons, ih hfs hgs, (hp.fits hf1).1]

theorem pairwise_special_iff (hf : ∀ f ∈ fs, f.Fits) (h : persistentFields fs = .ok ks) :
    ks.Pairwise (fun f g => special g → special f) ↔
      (fs.filter kept).Pairwise (fun f g => special g → special f) := by
  have hmap : ∀ l : List Field, l.Pairwise (fun f g => special g → special f) ↔
      (l.map (·.id)).Pairwise fun i j =>
        (j = 0x5855 ∨ j = 0x554e) → (i = 0x5855 ∨ i = 0x554e) := by
    intro l
    rw [pairwise_map]
    simp only [special, decide_eq_true_eq]
  rw [hmap, hmap, map_id_persistentFields hf h]

/-! ### The verification of a merge -/

theorem encode_eq_nil {ts : List Field} : encode ts = [] ↔ ts = [] := by
  cases ts with
  | nil => exact iff_of_true rfl rfl
  | cons t ts =>
    refine iff_of_false (fun h => ?_) (cons_ne_nil t ts)
    have hl := congrArg length h
    rw [encode, Tlv.encode_cons, length_append, Tlv.bytes_length, length_nil] at hl
    omega

/-- What persists of the parts of a merged block. -/
theorem persistentFields_merged {item : UpdateItem} {gen sp kf ks original ts : List Field}
    (rs : List Field) (hgen : persistentFields gen = .ok [])
    (hsp : persistentFields sp = .ok (ks.filter special))
    (hfits : ∀ t ∈ ts, t.Fits) (hone : ∀ t ∈ ts, t.id = 1) (ho : ∀ s ∈ original, ∃ r, Persists s r)
    (hk : ∀ k ∈ ks, Persists k (some k)) (hkf : keptFields item original (encode ts) ks = .ok kf) :
    persistentFields (gen ++ sp ++ kf ++
        if ¬ (ks.any fun f => f.id = 0xa) = true ∧ encode ts ≠ [] then
          [⟨0xa, List.replicate 4 0 ++ encode ts⟩] else []) = .ok rs ↔
      (∀ t ∈ ts, t.data.length = 24) ∧
        rs = ks.filter special ++ ks.filter (fun f => !special f) := by
  have hany : (ks.any fun f => f.id = 0xa) = true ↔ ∃ k ∈ ks, k.id = 0xa := by simp
  have hfront : ∀ xs, persistentFields (gen ++ sp ++ kf) = .ok xs ↔
      ((∃ k ∈ ks, k.id = 0xa) → ∀ t ∈ ts, t.data.length = 24) ∧
        xs = ks.filter special ++ ks.filter (fun f => !special f) := by
    intro xs
    rw [persistentFields_append]
    constructor
    · rintro ⟨x, y, hx, hy, rfl⟩
      obtain ⟨x1, x2, h1, h2, rfl⟩ := persistentFields_append.1 hx
      rw [hgen, Except.ok.injEq] at h1
      rw [hsp, Except.ok.injEq] at h2
      subst h1 h2
      obtain ⟨h24, rfl⟩ := (keptFields_spec hfits hone ho hk hkf).1 hy
      exact ⟨h24, rfl⟩
    · rintro ⟨h24, rfl⟩
      exact ⟨_, _, persistentFields_append.2 ⟨_, _, hgen, hsp, rfl⟩,
        (keptFields_spec hfits hone ho hk hkf).2 ⟨h24, rfl⟩, rfl⟩
  rw [persistentFields_append]
  by_cases hadd : ¬ (ks.any fun f => f.id = 0xa) = true ∧ encode ts ≠ []
  · rw [if_pos hadd]
    constructor
    · rintro ⟨xs, ys, hx, hy, rfl⟩
      obtain ⟨g, hg, rfl⟩ := persistentFields_singleton.1 hy
      obtain ⟨h24, rfl⟩ := (persistentField_added hfits hone).1 hg
      exact ⟨h24, by rw [((hfront xs).1 hx).2]; exact append_nil _⟩
    · rintro ⟨h24, rfl⟩
      exact ⟨_, [], (hfront _).2 ⟨fun _ => h24, rfl⟩,
        persistentFields_singleton.2 ⟨none, (persistentField_added hfits hone).2 ⟨h24, rfl⟩, rfl⟩,
        (append_nil _).symm⟩
  · rw [if_neg hadd]
    have h24 : ((∃ k ∈ ks, k.id = 0xa) → ∀ t ∈ ts, t.data.length = 24) ↔
        ∀ t ∈ ts, t.data.length = 24 := by
      refine ⟨fun h => ?_, fun h _ => h⟩
      rw [not_and_or, not_not, hany, not_not, encode_eq_nil] at hadd
      rcases hadd with he | rfl
      · exact h he
      · exact fun t ht => absurd ht not_mem_nil
    constructor
    · rintro ⟨xs, ys, hx, hy, rfl⟩
      cases hy
      obtain ⟨hx24, rfl⟩ := (hfront xs).1 hx
      exact ⟨h24.1 hx24, append_nil _⟩
    · rintro ⟨hall, rfl⟩
      exact ⟨_, [], (hfront _).2 ⟨h24.2 hall, rfl⟩, rfl, (append_nil _).symm⟩

/-- A merged block has the persistent fields of the original one exactly when it can be merged. -/
theorem persistent_merge_iff {fresh old m : List UInt8}
    {a : List Field} (hk : persistent old = .ok keep) (ha : fields fresh = .ok a)
    (ho : fields old = .ok original) (hm : merge fresh old item = .ok m) :
    persistent m = .ok keep ↔ Mergeable a original := by
  simp only [persistent, bind_eq_ok, pure_eq_ok] at hk
  obtain ⟨fs, hfs, ks, hks, rfl⟩ := hk
  rw [ho, Except.ok.injEq] at hfs
  subst hfs
  have hofits := fits_of_fields ho
  obtain ⟨hop, hkp⟩ := persists_of_persistentFields hks
  have hkfits : ∀ k ∈ ks, k.Fits := fun k hm => by
    obtain ⟨f, hf, hp⟩ := hkp k hm
    exact (hp.fits (hofits f hf)).2
  have hkself : ∀ k ∈ ks, Persists k (some k) := fun k hm => by
    obtain ⟨f, -, hp⟩ := hkp k hm
    exact hp.again
  have hpersist : persistent old = .ok (encode ks) := by
    simp only [persistent, ho, ok_bind, hks]
    rfl
  simp only [merge, hpersist, ok_bind, ha, fields_encode hkfits, ho, bind_eq_ok, pure_eq_ok,
    failIf_eq_ok] at hm
  obtain ⟨⟨gen, ft⟩, hgen, ⟨sp, had⟩, hsp, kf, hkf, _, hsize, _, -, rfl⟩ := hm
  obtain ⟨hgenp, rfl⟩ := freshFields_spec hgen
  obtain ⟨hspp, hhad⟩ := originalFields_spec hks hsp
  -- the times that are written are those of the fresh block or none
  obtain ⟨ts, hts⟩ : ∃ ts, ts = if had = true then timeTags a else [] := ⟨_, rfl⟩
  have htimes : (if had = true then encode (timeTags a) else []) = encode ts := by
    rw [hts]
    split <;> rfl
  have hmem : ∀ t ∈ ts, t.Fits ∧ t.id = 1 := by
    rw [hts]
    intro t ht
    split at ht
    · exact fits_timeTags ht
    · exact absurd ht not_mem_nil
  have h24 : (∀ t ∈ ts, t.data.length = 24) ↔
      (timeTags original ≠ [] → ∀ t ∈ timeTags a, t.data.length = 24) := by
    rw [hts, ← hhad]
    cases had with
    | true | false => simp
  rw [htimes] at hkf hsize ⊢
  have hall := fun rs => persistentFields_merged rs hgenp hspp
    (fun t ht => (hmem t ht).1) (fun t ht => (hmem t ht).2) hop hkself hkf
  have hallfits : ∀ f ∈ _, Tlv.Record.Fits f := fun f hf =>
    Nat.lt_succ_of_le (Nat.not_lt.1 fun hlt => hsize ⟨f, hf, hlt⟩)
  have hordfits : ∀ f ∈ ks.filter special ++ ks.filter (fun f => !special f), f.Fits := by
    intro f hf
    rcases mem_append.1 hf with hf | hf
    · exact hkfits f (mem_of_mem_filter hf)
    · exact hkfits f (mem_of_mem_filter hf)
  rw [persistent, fields_encode hallfits, ok_bind, Mergeable, ← pairwise_special_iff hofits hks,
    ← filter_append_filter_eq_iff, ← h24]
  simp only [bind_eq_ok, pure_eq_ok, hall]
  constructor
  · rintro ⟨rs, ⟨ht, rfl⟩, he⟩
    exact ⟨Tlv.encode_injective hordfits hkfits he, ht⟩
  · rintro ⟨he, ht⟩
    exact ⟨_, ⟨ht, rfl⟩, by rw [he]⟩

theorem persistent_idempotent {bs : List UInt8} (h : persistent bs = .ok keep) :
    persistent keep = .ok keep := by
  simp only [persistent, bind_eq_ok, pure_eq_ok] at h
  obtain ⟨fs, hfs, ks, hks, rfl⟩ := h
  obtain ⟨-, hkp⟩ := persists_of_persistentFields hks
  have hfits : ∀ k ∈ ks, k.Fits := fun k hm => by
    obtain ⟨f, hf, hp⟩ := hkp k hm
    exact (hp.fits (fits_of_fields hfs f hf)).2
  have hself : persistentFields ks = .ok ks := by
    have hall : ∀ k ∈ ks, persistentField k = .ok (some k) := fun k hm => by
      obtain ⟨f, -, hp⟩ := hkp k hm
      exact persistentField_iff.2 hp.again
    clear hkp hks hfits
    induction ks with
    | nil => rfl
    | cons k ks ih =>
      obtain ⟨hk, hrest⟩ := forall_mem_cons.1 hall
      exact persistentFields_cons.2 ⟨some k, ks, hk, ih hrest, rfl⟩
  simp only [persistent, fields_encode hfits, ok_bind, hself]
  rfl

/-- Reading and writing are inverse, what persists persists, and a merged block passes its
verification exactly when it can be merged. -/
theorem merge_consistent {fresh old keep m : List UInt8} {item : UpdateItem}
    {a original : List Field} (hk : persistent old = .ok keep) (ha : fields fresh = .ok a)
    (ho : fields old = .ok original) (hm : merge fresh old item = .ok m) :
    (∀ fs : List Field, (∀ f ∈ fs, f.Fits) → fields (encode fs) = .ok fs) ∧
    (∀ bs fs, fields bs = .ok fs → encode fs = bs) ∧
    (∀ bs keep, persistent bs = .ok keep → persistent keep = .ok keep) ∧
    (persistent m = .ok keep ↔ Mergeable a original) :=
  ⟨fun _ => fields_encode, fun _ _ => encode_fields, fun _ _ => persistent_idempotent,
    persistent_merge_iff hk ha ho hm⟩

/-- An empty record, a UNIX record and the UNIX record before the empty one. -/
theorem merge_consistent_sample :
    persistent (encode [⟨0x5855, List.replicate 8 0⟩, ⟨0x7875, []⟩]) =
      .ok (encode [⟨0x5855, List.replicate 8 0⟩, ⟨0x7875, []⟩]) ↔
    Mergeable [] [⟨0x5855, List.replicate 8 0⟩, ⟨0x7875, []⟩] :=
  (@merge_consistent [] (encode [⟨0x5855, replicate 8 0⟩, ⟨0x7875, []⟩]) _ _
    { name := [], renamed := true } [] _ (by decide) (by decide) (by decide) (by decide)).2.2.2

/-- A UNIX record after another one: the merged block puts it first. -/
theorem unix_record_moved :
    persistent (encode [⟨0x7875, []⟩, ⟨0x5855, List.replicate 8 0⟩]) =
        .ok (encode [⟨0x7875, []⟩, ⟨0x5855, List.replicate 8 0⟩]) ∧
      merge [] (encode [⟨0x7875, []⟩, ⟨0x5855, List.replicate 8 0⟩])
        { name := [], renamed := true } =
        .ok (encode [⟨0x5855, List.replicate 8 0⟩, ⟨0x7875, []⟩]) ∧
      persistent (encode [⟨0x5855, List.replicate 8 0⟩, ⟨0x7875, []⟩]) ≠
        .ok (encode [⟨0x7875, []⟩, ⟨0x5855, List.replicate 8 0⟩]) :=
  ⟨by decide, by decide, by decide⟩

end Hc.Zip
