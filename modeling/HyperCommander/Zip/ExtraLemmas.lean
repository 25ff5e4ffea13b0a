import HyperCommander.Zip.Extra
import Mathlib.Data.List.Flatten

/-!
# What persists of an extra field

* `xceedName_xceedName`: renaming an alternate-name record twice is renaming it once.
* `persistentField_iff`: what is kept of a field, one constructor of `Persists` for each branch.
* `Persists.again`, `Persists.fits`: what is kept is kept as it is, and still fits.
-/

open List Outcome

namespace Hc.Zip

open Unicode Storage

/-! ### Fields -/

variable {bs data out old size comment : List UInt8} {fs tags : List Field} {name : Units}
  {f : Field} {r : Option Field} {k i v : Nat}

theorem fields_eq_ok :
    fields bs = .ok fs ↔ Tlv.parse bs = some fs := by
  unfold fields
  cases Tlv.parse bs with
  | none => exact ⟨nofun, nofun⟩
  | some gs => simp

theorem fields_encode (h : ∀ f ∈ fs, f.Fits) : fields (encode fs) = .ok fs :=
  fields_eq_ok.2 (Tlv.parse_encode h)

theorem encode_fields (h : fields bs = .ok fs) :
    encode fs = bs := Tlv.encode_parse (fields_eq_ok.1 h)

theorem fits_of_fields (h : fields bs = .ok fs) :
    ∀ f ∈ fs, f.Fits := Tlv.fits_of_parse (fields_eq_ok.1 h)

/-! ### Alternate names -/

/-- The units of a name. -/
def nameBytes (name : Units) : List UInt8 := name.flatMap fun u => Bytes.le 2 u.toNat

theorem length_nameBytes (name : Units) : (nameBytes name).length = name.length * 2 := by
  induction name with
  | nil => rfl
  | cons u name ih =>
    rw [nameBytes, flatMap_cons, length_append, Bytes.length_le, ← nameBytes, ih,
      length_cons]
    omega

/-- An alternate-name record: a local one, or a central one with a comment. -/
inductive Xceed : List UInt8 → List UInt8 → List UInt8 → List UInt8 → Prop
  | local_ {n : Nat} {name : List UInt8} : n < 65536 → name.length = n * 2 →
      Xceed (nucx ++ Bytes.le 2 n ++ name) name [] []
  | central {n : Nat} {name size comment : List UInt8} : n < 65536 → name.length = n * 2 →
      size.length = 2 → comment.length = Bytes.ofLE size * 2 →
      Xceed (nucx ++ Bytes.le 2 n ++ size ++ name ++ comment) name size comment

theorem drop_split (bs : List UInt8) (i j : Nat) :
    bs.drop i = (bs.drop i).take j ++ bs.drop (i + j) := by
  rw [← drop_drop, take_append_drop]

theorem xceed_of_xceedName
    (h : xceedName data name = .ok out) : ∃ old size comment, Xceed data old size comment := by
  simp only [xceedName, bind_eq_ok, failIf_eq_ok] at h
  obtain ⟨_, h1, _, h2, -⟩ := h
  rw [not_or, Nat.not_lt, not_not] at h1
  obtain ⟨hlen, hsig⟩ := h1
  have hn : u16 data 4 < 65536 := by
    have hlt := Bytes.ofLE_lt ((data.drop 4).take 2)
    have hl : ((data.drop 4).take 2).length = 2 := by
      rw [length_take, length_drop]
      omega
    rw [hl] at hlt
    simpa [u16] using hlt
  have hw : Bytes.le 2 (u16 data 4) = (data.drop 4).take 2 := by
    have hl : ((data.drop 4).take 2).length = 2 := by
      rw [length_take, length_drop]
      omega
    have he := Bytes.le_ofLE ((data.drop 4).take 2)
    rwa [hl] at he
  have hfront : data = nucx ++ Bytes.le 2 (u16 data 4) ++ data.drop 6 := by
    rw [hw, ← hsig, append_assoc, ← drop_split data 4 2, take_append_drop]
  by_cases hc : data.length = 6 + u16 data 4 * 2
  · have hx := @Xceed.local_ (u16 data 4) (data.drop 6) hn (by
      rw [length_drop]
      omega)
    rw [← hfront] at hx
    exact ⟨_, _, _, hx⟩
  · have h2 := not_and.1 h2 (by simpa using hc)
    rw [not_or, Nat.not_lt, not_not] at h2
    obtain ⟨hlen8, htotal⟩ := h2
    have hx := @Xceed.central (u16 data 4) ((data.drop 8).take (u16 data 4 * 2))
      ((data.drop 6).take 2) (data.drop (8 + u16 data 4 * 2)) hn
      (by rw [length_take, length_drop]; omega)
      (by rw [length_take, length_drop]; omega)
      (by
        have hu : Bytes.ofLE ((data.drop 6).take 2) = u16 data 6 := rfl
        rw [length_drop, hu]
        omega)
    have hd : data = nucx ++ Bytes.le 2 (u16 data 4) ++ (data.drop 6).take 2 ++
        (data.drop 8).take (u16 data 4 * 2) ++ data.drop (8 + u16 data 4 * 2) := by
      have h8 := drop_split data 8 (u16 data 4 * 2)
      have h6 := drop_split data 6 2
      rw [show 6 + 2 = 8 by rfl, h8] at h6
      rw [h6] at hfront
      simpa only [append_assoc] using hfront
    rw [← hd] at hx
    exact ⟨_, _, _, hx⟩

/-- The record for another name. -/
def renamedXceed (name : Units) (size comment : List UInt8) : List UInt8 :=
  nucx ++ Bytes.le 2 name.length ++ size ++ nameBytes name ++ comment

theorem xceedName_eq (h : Xceed data old size comment) (hn : name.length ≤ uint16Max) :
    xceedName data name = .ok (renamedXceed name size comment) := by
  have hname : ¬ uint16Max < name.length := Nat.not_lt.2 hn
  cases h with
  | @local_ n old hlt hold =>
    have hu : u16 (nucx ++ Bytes.le 2 n ++ old) 4 = n := by
      have he := Bytes.ofLE_le_of_lt (k := 2) (n := n) (by simpa using hlt)
      simpa [u16, nucx, Tlv.le_two] using he
    have hlen : (nucx ++ Bytes.le 2 n ++ old).length = 6 + n * 2 := by
      simp only [length_append, Bytes.length_le, hold, nucx, length_cons, length_nil]
    simp only [xceedName, ok_bind, hu, hlen, ne_eq, not_true_eq_false,
      decide_false, Bool.false_eq_true, false_and, failIf_of_not hname, if_false,
      failIf_of_not not_false]
    simp [put, nucx, renamedXceed, nameBytes, pure, Except.pure, Tlv.le_two]
  | @central n old size comment hlt hold hsize hcomment =>
    have hu : u16 (nucx ++ Bytes.le 2 n ++ size ++ old ++ comment) 4 = n := by
      have he := Bytes.ofLE_le_of_lt (k := 2) (n := n) (by simpa using hlt)
      simpa [u16, nucx, Tlv.le_two] using he
    have hu6 : u16 (nucx ++ Bytes.le 2 n ++ size ++ old ++ comment) 6 = Bytes.ofLE size := by
      simp [u16, nucx, Tlv.le_two, hsize]
    have hlen : (nucx ++ Bytes.le 2 n ++ size ++ old ++ comment).length =
        8 + n * 2 + Bytes.ofLE size * 2 := by
      simp only [length_append, Bytes.length_le, hold, hsize, hcomment, nucx,
        length_cons, length_nil]
    have hcentral : decide (8 + n * 2 + Bytes.ofLE size * 2 ≠ 6 + n * 2) = true := by
      rw [decide_eq_true_eq]
      omega
    have htail : (nucx ++ Bytes.le 2 n ++ size ++ old ++ comment).drop (8 + n * 2) = comment :=
      drop_left' (by
        simp only [length_append, Bytes.length_le, hold, hsize, nucx, length_cons,
          length_nil])
    obtain ⟨a, b, rfl⟩ := length_eq_two.1 hsize
    simp only [xceedName, ok_bind, hu, hu6, hlen, hcentral, failIf_of_not hname, if_true, htail]
    simp [put, nucx, renamedXceed, nameBytes, pure, Except.pure, Tlv.le_two]
    omega

theorem xceed_renamed (h : Xceed data old size comment) (hn : name.length ≤ uint16Max) :
    Xceed (renamedXceed name size comment) (nameBytes name) size comment := by
  have hlt : name.length < 65536 := Nat.lt_succ_of_le hn
  cases h with
  | local_ _ _ =>
    simpa [renamedXceed] using Xceed.local_ hlt (length_nameBytes name)
  | central _ _ hsize hcomment => exact .central hlt (length_nameBytes name) hsize hcomment

/-- Renaming twice is renaming once. -/
theorem xceedName_xceedName
    (h : xceedName data name = .ok out) {name' : Units} (hn : name'.length ≤ uint16Max) :
    xceedName out name' = xceedName data name' := by
  obtain ⟨old, size, comment, hx⟩ := xceed_of_xceedName h
  have hle : name.length ≤ uint16Max := by
    simp only [xceedName, bind_eq_ok, failIf_eq_ok] at h
    obtain ⟨_, -, _, -, _, h3, -⟩ := h
    exact Nat.not_lt.1 h3
  rw [xceedName_eq hx hle, Except.ok.injEq] at h
  rw [← h, xceedName_eq (xceed_renamed hx hle) hn, xceedName_eq hx hn]

theorem length_xceedName_nil (h : xceedName data [] = .ok out) :
    out.length ≤ data.length := by
  obtain ⟨old, size, comment, hx⟩ := xceed_of_xceedName h
  rw [xceedName_eq hx (Nat.zero_le _), Except.ok.injEq] at h
  subst h
  cases hx with
  | local_ _ _ => simp [renamedXceed, nameBytes, nucx, Tlv.le_two]
  | central _ _ hsize _ =>
    simp only [renamedXceed, length_append, Bytes.length_le, length_nameBytes, hsize,
      length_nil]
    omega

/-! ### What persists -/

/-- The identifiers that `persistentField` singles out. -/
def plainId (id : UInt16) : Prop :=
  generated id = false ∧ ¬ ((0x14 ≤ id ∧ id ≤ 0x19) ∨ id = 0xd ∨ id = 0x756e ∨ id = 0x4f4c ∨
    id = 0x2605) ∧ ¬ (id = 0xa11e ∨ id = 0xd935) ∧ id ≠ 0x4b46 ∧ id ≠ 0x5855 ∧ id ≠ 0x554e ∧
    id ≠ 0xa

/-- What is kept of a field, one constructor for each branch. -/
inductive Persists : Field → Option Field → Prop
  | generated {f : Field} : generated f.id → Persists f none
  | aligned {f : Field} : f.id = 0xa11e ∨ f.id = 0xd935 → 2 ≤ f.data.length →
      Persists f (some { f with data := f.data.take 2 })
  | digest {d : List UInt8} : d.length = 19 → d.take 3 = md5 →
      Persists ⟨0x4b46, d⟩ (some ⟨0x4b46, md5 ++ List.replicate 16 0⟩)
  | unix {d : List UInt8} : d.length = 8 ∨ d.length = 12 →
      Persists ⟨0x5855, d⟩ (some ⟨0x5855, put 4 d 4 0⟩)
  | name {d out : List UInt8} : xceedName d [] = .ok out →
      Persists ⟨0x554e, d⟩ (some ⟨0x554e, out⟩)
  | times {d : List UInt8} {tags : List Field} : 4 ≤ d.length → fields (d.drop 4) = .ok tags →
      unknownTags tags = .ok [] → d.take 4 = List.replicate 4 0 → Persists ⟨0xa, d⟩ none
  | ntfs {d : List UInt8} {tags unknown : List Field} : 4 ≤ d.length →
      fields (d.drop 4) = .ok tags → unknownTags tags = .ok unknown →
      ¬ (unknown = [] ∧ d.take 4 = List.replicate 4 0) →
      Persists ⟨0xa, d⟩ (some ⟨0xa, d.take 4 ++ encode unknown⟩)
  | plain {f : Field} : plainId f.id → Persists f (some f)

theorem persists_of_persistentField (h : persistentField f = .ok r) : Persists f r := by
  obtain ⟨id, d⟩ := f
  unfold persistentField at h
  by_cases hg : generated id
  · rw [if_pos hg] at h
    cases h
    exact .generated hg
  rw [if_neg hg] at h
  split at h
  · cases h
  rename_i hrefused
  split at h
  · rename_i ha
    simp only [bind_eq_ok, failIf_eq_ok, pure_eq_ok] at h
    obtain ⟨_, hl, rfl⟩ := h
    exact .aligned ha (Nat.not_lt.1 hl)
  rename_i ha
  split at h
  · rename_i hm
    subst hm
    simp only [bind_eq_ok, failIf_eq_ok, pure_eq_ok, not_or, not_not] at h
    obtain ⟨_, ⟨hl, hp⟩, rfl⟩ := h
    exact .digest hl hp
  rename_i hm
  split at h
  · rename_i hu
    subst hu
    simp only [bind_eq_ok, failIf_eq_ok, pure_eq_ok] at h
    obtain ⟨_, hl, rfl⟩ := h
    exact .unix (by omega)
  rename_i hu
  split at h
  · rename_i hn
    subst hn
    simp only [bind_eq_ok, pure_eq_ok] at h
    obtain ⟨out, hout, rfl⟩ := h
    exact .name hout
  rename_i hn
  split at h
  · rename_i hx
    subst hx
    simp only [bind_eq_ok, failIf_eq_ok, pure_eq_ok] at h
    obtain ⟨_, hl, tags, ht, unknown, hk, rfl⟩ := h
    split
    · rename_i hc
      obtain ⟨rfl, hz⟩ := hc
      exact .times (Nat.not_lt.1 hl) ht hk hz
    · exact .ntfs (Nat.not_lt.1 hl) ht hk ‹_›
  rename_i hx
  cases h
  exact .plain ⟨Bool.eq_false_iff.2 hg, hrefused, ha, hm, hu, hn, hx⟩

theorem persistentField_of_persists (h : Persists f r) :
    persistentField f = .ok r := by
  cases h with
  | generated hg => rw [persistentField, if_pos hg]; rfl
  | aligned ha hl =>
    have hg : generated f.id = false := by rcases ha with ha | ha <;> rw [ha] <;> rfl
    have hr : ¬ ((0x14 ≤ f.id ∧ f.id ≤ 0x19) ∨ f.id = 0xd ∨ f.id = 0x756e ∨ f.id = 0x4f4c ∨
        f.id = 0x2605) := by rcases ha with ha | ha <;> rw [ha] <;> decide
    rw [persistentField, hg, if_neg Bool.false_ne_true, if_neg hr, if_pos ha,
      failIf_of_not (Nat.not_lt.2 hl)]
    rfl
  | @digest d hl hp =>
    have hc : ¬ (d.length ≠ 19 ∨ d.take 3 ≠ md5) := by
      rw [hl, hp]
      simp
    show (failIf (d.length ≠ 19 ∨ d.take 3 ≠ md5) bad >>= _) = _
    rw [failIf_of_not hc]
    rfl
  | @unix d hl =>
    have hc : ¬ (d.length ≠ 8 ∧ d.length ≠ 12) := by omega
    show (failIf (d.length ≠ 8 ∧ d.length ≠ 12) bad >>= _) = _
    rw [failIf_of_not hc]
    rfl
  | @name d out hout =>
    show (xceedName d [] >>= _) = _
    rw [hout]
    rfl
  | @times d tags hl ht hk hz =>
    show (failIf (d.length < 4) bad >>= fun _ => fields (d.drop 4) >>= fun tags =>
      unknownTags tags >>= _) = _
    rw [failIf_of_not (Nat.not_lt.2 hl), ok_bind, ht, ok_bind, hk, ok_bind, if_pos ⟨rfl, hz⟩]
    rfl
  | @ntfs d tags unknown hl ht hk hz =>
    show (failIf (d.length < 4) bad >>= fun _ => fields (d.drop 4) >>= fun tags =>
      unknownTags tags >>= _) = _
    rw [failIf_of_not (Nat.not_lt.2 hl), ok_bind, ht, ok_bind, hk, ok_bind, if_neg hz]
    rfl
  | plain hp =>
    obtain ⟨hg, hr, ha, hm, hu, hn, hx⟩ := hp
    rw [persistentField, hg, if_neg Bool.false_ne_true, if_neg hr, if_neg ha, if_neg hm, if_neg hu,
      if_neg hn, if_neg hx]
    rfl

theorem persistentField_iff :
    persistentField f = .ok r ↔ Persists f r :=
  ⟨persists_of_persistentField, persistentField_of_persists⟩

/-- The tags that are not times, when the times have their length. -/
theorem unknownTags_iff {unknown : List Field} :
    unknownTags tags = .ok unknown ↔
      (∀ t ∈ tags, t.id = 1 → t.data.length = 24) ∧ tags.filter (fun t => t.id ≠ 1) = unknown := by
  induction tags generalizing unknown with
  | nil => simp [unknownTags]
  | cons t tags ih =>
    rw [unknownTags, forall_mem_cons]
    by_cases ht : t.id = 1
    · rw [if_pos ht, filter_cons_of_neg (by simp [ht])]
      simp only [bind_eq_ok, failIf_eq_ok, not_not, ih, exists_and_left, exists_const]
      simp [ht, and_assoc]
    · rw [if_neg ht, filter_cons_of_pos (by simp [ht])]
      simp only [bind_eq_ok, pure_eq_ok, ih]
      constructor
      · rintro ⟨us, ⟨ha, rfl⟩, rfl⟩
        exact ⟨⟨fun h => absurd h ht, ha⟩, rfl⟩
      · rintro ⟨⟨-, ha⟩, rfl⟩
        exact ⟨_, ⟨ha, rfl⟩, rfl⟩

theorem length_put (h : i + k ≤ bs.length) :
    (put k bs i v).length = bs.length := by
  simp only [put, length_append, length_take, Bytes.length_le, length_drop]
  omega

theorem put_put {w : Nat} (h : i + k ≤ bs.length) :
    put k (put k bs i v) i w = put k bs i w := by
  have hi : (bs.take i).length = i := by
    rw [length_take]
    omega
  have htake : (put k bs i v).take i = bs.take i := by
    rw [put, append_assoc, take_left' hi]
  have hdrop : (put k bs i v).drop (i + k) = bs.drop (i + k) := by
    rw [put, drop_left' (by rw [length_append, hi, Bytes.length_le])]
  rw [put, htake, hdrop]
  rfl

theorem filter_unknown :
    (tags.filter fun t => t.id ≠ 1).filter (fun t => t.id ≠ 1) =
      tags.filter fun t => t.id ≠ 1 := by
  rw [filter_filter]
  simp

/-- What persists of a field keeps its identifier and is not longer. -/
theorem Persists.fits {g : Field} (h : Persists f (some g)) (hf : f.Fits) :
    g.id = f.id ∧ g.Fits := by
  cases h with
  | aligned ha hl =>
    refine ⟨rfl, ?_⟩
    rw [Tlv.Record.Fits, length_take]
    exact Nat.lt_of_le_of_lt (Nat.min_le_right _ _) hf
  | digest hl hp => exact ⟨rfl, by rw [Tlv.Record.Fits]; decide⟩
  | unix hl =>
    refine ⟨rfl, ?_⟩
    rw [Tlv.Record.Fits, length_put (by omega)]
    exact hf
  | name hout => exact ⟨rfl, Nat.lt_of_le_of_lt (length_xceedName_nil hout) hf⟩
  | @ntfs d tags unknown hl ht hk hz =>
    refine ⟨rfl, Nat.lt_of_le_of_lt ?_ hf⟩
    have hd : encode tags = d.drop 4 := encode_fields ht
    have hlen := congrArg length hd
    obtain ⟨-, rfl⟩ := unknownTags_iff.1 hk
    have hsub : (encode (tags.filter fun t => t.id ≠ 1)).length ≤ (encode tags).length :=
      (filter_sublist.flatMap Tlv.Record.bytes).length_le
    rw [length_drop] at hlen
    simp only [length_append, length_take]
    omega
  | plain hp => exact ⟨rfl, hf⟩

/-- What persists of a field persists as it is. -/
theorem Persists.again {f g : Field} (h : Persists f (some g)) : Persists g (some g) := by
  cases h with
  | aligned ha hl =>
    have ht := Persists.aligned (f := { f with data := f.data.take 2 }) ha (by
      simp only [length_take]
      omega)
    simpa only [take_take, Nat.min_self] using ht
  | digest hl hp => exact .digest rfl rfl
  | @unix d hl =>
    have ht := Persists.unix (d := put 4 d 4 0) (by rw [length_put (by omega)]; exact hl)
    rwa [put_put (by omega)] at ht
  | name hout => exact .name (by rw [xceedName_xceedName hout (Nat.zero_le _), hout])
  | @ntfs d tags unknown hl ht hk hz =>
    obtain ⟨h24, rfl⟩ := unknownTags_iff.1 hk
    have hl4 : (d.take 4).length = 4 := by
      rw [length_take]
      omega
    have hfits : ∀ t ∈ tags.filter (fun t => t.id ≠ 1), t.Fits := fun t hm =>
      fits_of_fields ht t (mem_of_mem_filter hm)
    have ht' := @Persists.ntfs (d.take 4 ++ encode (tags.filter fun t => t.id ≠ 1))
      (tags.filter fun t => t.id ≠ 1) (tags.filter fun t => t.id ≠ 1)
      (by rw [length_append]; omega)
      (by rw [drop_left' hl4]; exact fields_encode hfits)
      (unknownTags_iff.2 ⟨fun t hm => h24 t (mem_of_mem_filter hm), filter_unknown⟩)
      (by rw [take_left' hl4]; exact hz)
    rwa [take_left' hl4] at ht'
  | plain hp => exact .plain hp

end Hc.Zip
