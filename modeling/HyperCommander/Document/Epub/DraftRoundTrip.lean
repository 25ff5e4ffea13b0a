import HyperCommander.Document.Epub.DraftStore
import HyperCommander.Document.Epub.Fingerprint

/-!
# Drafts that were written can be read

- **Header**: the reader accepts a written header just when the digest of the disk file, if there is
  one, has 32 bytes and the clock is past 1970 (`headerAccepts_metadata`).
- **Body**: what the header counts is read back (`read_append`, `readEntries_map`).
- **Main result**: `read_write_iff`.
-/

open List Outcome

namespace Hc.Document.Epub

open Storage

namespace QJsonObject

variable {o : QJsonObject} {key : String}

@[simp] theorem at_cons (f : String × QJsonValue) :
    at_ (f :: o) key = if f.1 = key then f.2 else at_ o key := by
  unfold at_
  rw [find?_cons]
  by_cases h : f.1 = key <;> simp [h]

@[simp] theorem contains_nil : contains [] key = false := rfl

@[simp] theorem contains_cons (f : String × QJsonValue) :
    contains (f :: o) key = (f.1 = key || contains o key) := by
  simp [contains]

end QJsonObject

/-! ## Texts and numbers -/

theorem toLatin1_fromLatin1 (bytes : Bytes) : toLatin1 (fromLatin1 bytes) = bytes := by
  unfold toLatin1 fromLatin1
  rw [map_map]
  refine (map_congr_left fun b _ => ?_).trans (map_id bytes)
  have hb := b.toNat_lt
  have hn : b.toUInt16.toNat = b.toNat := UInt8.toNat_toUInt16 b
  rw [Function.comp_apply, if_pos (by omega)]
  exact UInt8.toUInt8_toUInt16 b

theorem length_toHex (bytes : Bytes) : (toHex bytes).length = 2 * bytes.length := by
  induction bytes with
  | nil => rfl
  | cons b bytes ih =>
    rw [toHex_cons, length_cons, length_cons, length_cons, ih]
    omega

theorem isHexDigit_hexDigit {n : Nat} (h : n < 16) : isHexDigit (hexDigit n).toUInt16 := by
  unfold isHexDigit
  simp only [Bool.or_eq_true, Bool.and_eq_true, decide_eq_true_eq, UInt16.le_iff_toNat_le,
    UInt8.toNat_toUInt16, hexDigit_toNat h]
  simp only [UInt16.reduceToNat]
  split <;> omega

theorem isHexDigit_of_mem {bytes : Bytes} {c : UInt16} (h : c ∈ fromLatin1 (toHex bytes)) :
    isHexDigit c := by
  obtain ⟨d, hd, rfl⟩ := mem_map.1 h
  obtain ⟨b, -, hb⟩ := mem_flatMap.1 hd
  have hlt := b.toNat_lt
  rcases mem_pair.1 hb with rfl | rfl
  · exact isHexDigit_hexDigit (by omega)
  · exact isHexDigit_hexDigit (by omega)

/-- A digest is 32 bytes. -/
theorem isHexDigest_toHex (bytes : Bytes) :
    isHexDigest (fromLatin1 (toHex bytes)) = true ↔ bytes.length = 32 := by
  have hall : ((fromLatin1 (toHex bytes)).take 64).all isHexDigit = true :=
    all_eq_true.2 fun c hc => isHexDigit_of_mem (mem_of_mem_take hc)
  have hlen : (fromLatin1 (toHex bytes)).length = 2 * bytes.length := by
    rw [fromLatin1, length_map, length_toHex]
  unfold isHexDigest
  rw [hall, hlen, Bool.and_true, Bool.or_eq_true, Bool.and_eq_true, decide_eq_true_eq,
    decide_eq_true_eq]
  omega

theorem size_of_le {n limit : Nat} (h : n ≤ limit) : size (.integer n) limit = n := by
  unfold size
  simp only
  rw [if_pos (by omega)]

theorem int32_range (n : Int32) : -2147483648 ≤ n.toInt ∧ n.toInt ≤ 2147483647 := by
  have hlt := n.toInt_lt
  have hle := n.le_toInt
  omega

@[simp] theorem toText_string (t default : QString) :
    (QJsonValue.string t).toText default = t := rfl

theorem toInt_toInt (n default : Int32) : (QJsonValue.integer n.toInt).toInt default = n := by
  unfold QJsonValue.toInt
  simp only
  rw [if_pos (int32_range n), Int32.ofInt_toInt]

namespace DraftStore

variable {p : Platform} {s : DraftSnapshot} {utcMs : Int}

/-! ## The header -/

theorem headerAccepts_metadata (hp : ∀ bytes, (p.sha256 bytes).length = 32)
    (hs : admission p s) : headerAccepts p (structural s) (metadata p utcMs s) ↔
      (s.diskHash = [] ∨ s.diskHash.length = 32) ∧ 0 < utcMs := by
  obtain ⟨hne, ho, hst, hch, hsp, hab, hep, hcr, hlo, hcd, hhc, hc0, hc1, hs0, hr0, hr1⟩ := hs
  have hopos : 0 < s.original.length := length_pos_iff.2 hne
  have hpos : structural s → 0 < s.structuralBytes.length := fun h =>
    length_pos_iff.2 (by simpa [structural] using h)
  have hscroll : 0 ≤ size (.integer s.scroll.toInt) 2147483647 := by
    unfold size
    simp only
    rw [if_pos ⟨hs0, (int32_range _).2⟩]
    exact hs0
  have hcursor : 0 ≤ size (.integer s.cursor.toInt) (2 * megabyte) := by
    unfold size
    simp only
    rw [if_pos ⟨hc0, hc1⟩]
    exact hc0
  by_cases hd : s.diskHash = [] <;> by_cases hstr : structural s <;>
    simp [headerAccepts, metadata, hd, hstr, QJsonValue.isInteger, QJsonValue.toInteger,
      QJsonValue.isString, QJsonValue.toText, QJsonValue.isArray, QJsonValue.toArray,
      QJsonValue.isBool, QJsonValue.toBool, isHexDigest_toHex, hp, size_of_le, ho, hst, hcd, hsp,
      hab, hep, hcr, hlo, hr0, hr1, hch, hcursor, hscroll, hopos]
  · have hpos := hpos hstr
    tauto
  · tauto
  · have hpos := hpos hstr
    tauto
  · tauto

/-- The fields of a written header. -/
theorem at_metadata : (metadata p utcMs s).at_ "originalBytes" = .integer s.original.length ∧
    (metadata p utcMs s).at_ "sourceSha256" =
      .string (fromLatin1 (toHex (p.sha256 s.original))) ∧
    (metadata p utcMs s).at_ "schemaVersion" = .integer (if structural s then 2 else 1) ∧
    (metadata p utcMs s).at_ "entries" = .array (s.changes.entries.map entryOf) ∧
    (metadata p utcMs s).at_ "currentBytes" = .integer s.currentDraft.length ∧
    (metadata p utcMs s).at_ "sourcePath" = .string s.sourcePath ∧
    (metadata p utcMs s).at_ "currentResource" = .string s.currentResource ∧
    (metadata p utcMs s).at_ "locator" = .string s.locator ∧
    (metadata p utcMs s).at_ "hasCurrentDraft" = .bool s.hasCurrentDraft ∧
    (metadata p utcMs s).at_ "cursor" = .integer s.cursor.toInt ∧
    (metadata p utcMs s).at_ "scroll" = .integer s.scroll.toInt ∧
    (metadata p utcMs s).at_ "readingChapter" = .integer s.readingChapter.toInt := by
  by_cases hd : s.diskHash = [] <;> by_cases hst : structural s <;> simp [metadata, hd, hst]

theorem at_metadata_edition (hst : structural s) :
    (metadata p utcMs s).at_ "editionBytes" = .integer s.structuralBytes.length ∧
    (metadata p utcMs s).at_ "editionSha256" =
      .string (fromLatin1 (toHex (p.sha256 s.structuralBytes))) := by
  by_cases hd : s.diskHash = [] <;> simp [metadata, hd, hst]

theorem at_metadata_diskSha256 (key : QString) :
    ((metadata p utcMs s).at_ "diskSha256").toText key =
      if s.diskHash = [] then key else fromLatin1 (toHex s.diskHash) := by
  by_cases hd : s.diskHash = [] <;> by_cases hst : structural s <;>
    simp [metadata, hd, hst, QJsonValue.toText, QJsonObject.at_]

/-! ## The body -/

theorem read_append (bytes rest hashed : Bytes) :
    (⟨bytes ++ rest, hashed⟩ : Input).read bytes.length = (bytes, ⟨rest, hashed ++ bytes⟩) := by
  unfold Input.read
  rw [take_left, drop_left]

variable {rest hashed json : Bytes} {changes disk : QMap Bytes} {root target : QString}

theorem readHashed_append {bytes : Bytes} {digest : QJsonValue} {error : String}
    (hlen : bytes.length ≤ originalLimit)
    (hd : digest.toText [] = fromLatin1 (toHex (p.sha256 bytes))) :
    readHashed p ⟨bytes ++ rest, hashed⟩ (.integer bytes.length) digest error =
      .ok (bytes, ⟨rest, hashed ++ bytes⟩) := by
  unfold readHashed
  rw [size_of_le hlen, hd, toLatin1_fromLatin1]
  simp only [Int.toNat_natCast, read_append]
  rw [failIf_of_not (by simp), ok_bind]
  rfl

/-- The bytes of some changes, one after the other. -/
def bytesOf (es : List (QString × Bytes)) : Bytes := (es.map Prod.snd).flatten

theorem readEntries_map {total : Nat} {es : List (QString × Bytes)}
    (hf : overlayFits total es = true) (hs : es.Pairwise fun a b => a.1 < b.1)
    (hn : ∀ e ∈ es, changes.find e.1 = none) :
    readEntries (es.map entryOf) total changes ⟨bytesOf es ++ rest, hashed⟩ =
      .ok (changes.update (fun e => some e.2) es, ⟨rest, hashed ++ bytesOf es⟩) := by
  induction es generalizing total changes hashed with
  | nil => simp [readEntries, bytesOf, OrdMap.update]
  | cons e es ih =>
    simp only [overlayFits, Bool.and_eq_true, decide_eq_true_eq] at hf
    obtain ⟨⟨⟨⟨htext, hne⟩, hlen⟩, hsum⟩, hf⟩ := hf
    obtain ⟨hlt, hs⟩ := pairwise_cons.1 hs
    have hbytes : bytesOf (e :: es) ++ rest = e.2 ++ (bytesOf es ++ rest) := by
      simp [bytesOf]
    have hpath : (QJsonObject.at_ [("bytes", .integer e.2.length), ("path", .string e.1)] "path")
        = .string e.1 := by simp
    have hcount : (QJsonObject.at_ [("bytes", .integer e.2.length), ("path", .string e.1)] "bytes")
        = .integer e.2.length := by simp
    have hold := hn e mem_cons_self
    have hrest : ∀ f ∈ es, (changes.set e.1 e.2).find f.1 = none := fun f hf => by
      rw [OrdMap.find_set_of_ne (hlt f hf).ne']
      exact hn f (mem_cons_of_mem _ hf)
    rw [map_cons, readEntries, entryOf, hbytes]
    simp only [QJsonValue.toObject, QJsonValue.isObject, hpath, hcount, QJsonValue.toText,
      QJsonValue.isString, size_of_le hlen, Int.toNat_natCast, read_append]
    rw [failIf_of_not, ok_bind, failIf_of_not, ok_bind]
    · rw [← Int.natCast_add]
      refine (ih hf hs hrest).trans ?_
      simp [bytesOf, OrdMap.update, OrdMap.put]
    · simp
    · simp only [hold, hne, htext]
      simp
      omega

/-- Written changes are read back. -/
theorem readEntries_changes (hf : overlayFits 0 changes.entries = true) :
    readEntries (changes.entries.map entryOf) 0 .empty
        ⟨bytesOf changes.entries ++ rest, hashed⟩ =
      .ok (changes, ⟨rest, hashed ++ bytesOf changes.entries⟩) := by
  refine (readEntries_map hf changes.sorted fun _ _ => rfl).trans ?_
  congr 2
  refine OrdMap.ext_find fun k => ?_
  rw [OrdMap.find_update]
  cases changes.find k <;> rfl

theorem length_bytesOf {total : Nat} {es : List (QString × Bytes)}
    (h : overlayFits total es = true) :
    total + (bytesOf es).length ≤ max total overlayLimit := by
  induction es generalizing total with
  | nil => exact Nat.le_max_left ..
  | cons e es ih =>
    simp only [overlayFits, Bool.and_eq_true, decide_eq_true_eq] at h
    have hrest := ih h.2
    have hlen : (bytesOf (e :: es)).length = e.2.length + (bytesOf es).length := by
      simp [bytesOf]
    omega

/-! ## The file -/

/-- What stands in a file behind the header. -/
def bodyOf (p : Platform) (json : Bytes) (s : DraftSnapshot) : Bytes :=
  s.original ++ (s.structuralBytes ++ (bytesOf s.changes.entries ++
    (s.currentDraft ++ p.sha256 (chunks json s).flatten)))

theorem flatten_chunks (json : Bytes) : prefixOf (structural s) json ++ json ++ s.original ++
    s.structuralBytes ++ bytesOf s.changes.entries ++ s.currentDraft = (chunks json s).flatten := by
  have hst : (if structural s then [s.structuralBytes] else []).flatten = s.structuralBytes := by
    cases hs : s.structuralBytes <;> simp [structural, hs]
  unfold chunks
  simp only [flatten_append, hst, bytesOf]
  simp

theorem fileOf_eq (json : Bytes) :
    fileOf p json s = prefixOf (structural s) json ++ (json ++ bodyOf p json s) := by
  rw [fileOf, bodyOf, ← flatten_chunks]
  simp only [append_assoc]

theorem length_prefixOf (b : Bool) (json : Bytes) : (prefixOf b json).length = 12 := by
  cases b <;> simp [prefixOf, magic, structuralMagic]

theorem length_fileOf (hs : admission p s)
    (hf : overlayFits 0 s.changes.entries = true) (hp : ∀ bytes, (p.sha256 bytes).length = 32)
    (hlen : json.length ≤ 64 * 1024) : (fileOf p json s).length ≤ fileLimit ∧
      (structural s = false → (fileOf p json s).length ≤ 100 * megabyte) := by
  obtain ⟨-, ho, hst, -, -, -, -, -, -, hcd, -⟩ := hs
  have hb := length_bytesOf hf
  have hempty : structural s = false → s.structuralBytes.length = 0 := by
    cases hs : s.structuralBytes <;> simp [structural, hs]
  rw [fileOf_eq, bodyOf]
  simp only [length_append, length_prefixOf, hp]
  unfold originalLimit megabyte at *
  unfold overlayLimit megabyte at *
  unfold fileLimit megabyte
  refine ⟨by omega, fun h => ?_⟩
  have hempty := hempty h
  omega

theorem header_fileOf (hs : admission p s) (hf : overlayFits 0 s.changes.entries = true)
    (hp : ∀ bytes, (p.sha256 bytes).length = 32) (hne : json ≠ [])
    (hlen : json.length ≤ 64 * 1024) {o : QJsonObject} (hj : p.fromJson json = some o) :
    header p (fileOf p json s) = if headerAccepts p (structural s) o then
      .ok (o, ⟨bodyOf p json s, prefixOf (structural s) json ++ json⟩)
      else .error "epub-draft-metadata" := by
  obtain ⟨hlimit, hplain⟩ := length_fileOf hs hf hp hlen
  have hpos : 0 < json.length := length_pos_iff.2 hne
  have hpre := length_prefixOf (structural s) json
  have htake : (fileOf p json s).take 12 = prefixOf (structural s) json := by
    rw [fileOf_eq, take_append_of_le_length (by omega), take_of_length_le (by omega)]
  have hdrop : (fileOf p json s).drop 12 = json ++ bodyOf p json s := by
    rw [fileOf_eq, drop_left' hpre]
  have hmagic : (prefixOf (structural s) json).take 8 =
      if structural s then structuralMagic else magic := by
    cases structural s <;> simp [prefixOf, magic, structuralMagic]
  have hcount : Bytes.ofBE ((prefixOf (structural s) json).drop 8) = json.length := by
    have hd : (prefixOf (structural s) json).drop 8 = Bytes.be 4 json.length := by
      cases structural s <;> simp [prefixOf, magic, structuralMagic]
    rw [hd, Bytes.ofBE_be_of_lt (by omega)]
  have hkind : decide ((prefixOf (structural s) json).take 8 = structuralMagic) = structural s := by
    rw [hmagic]
    cases structural s <;> decide
  unfold header
  simp only [htake, hdrop, hcount, hkind, take_left, drop_left, hj]
  rw [failIf_of_not, ok_bind, failIf_of_not, ok_bind, failIf_of_not, ok_bind]
  · by_cases ha : headerAccepts p (structural s) o
    · rw [failIf_of_not (by simp [ha]), ok_bind, if_pos ha]
      rfl
    · rw [failIf_of (by simp [ha]), error_bind, if_neg ha]
  · omega
  · rintro ⟨hb, hl⟩
    exact absurd (hplain (by simpa using hb)) (by omega)
  · rintro (hl | hl | hm)
    · omega
    · exact hl hpre
    · rw [hmagic] at hm
      revert hm
      cases structural s <;> simp

/-- The snapshot as it is read back: without a digest of the disk file, that of the original. -/
def stored (p : Platform) (s : DraftSnapshot) : DraftSnapshot :=
  { s with diskHash := if s.diskHash = [] then p.sha256 s.original else s.diskHash }

theorem readEdition_body (hs : admission p s) (rest hashed : Bytes) :
    (if ((metadata p utcMs s).at_ "schemaVersion").toInteger 0 = 2 then
      readHashed p ⟨s.structuralBytes ++ rest, hashed⟩ ((metadata p utcMs s).at_ "editionBytes")
        ((metadata p utcMs s).at_ "editionSha256") "epub-draft-edition-hash"
    else .ok ([], ⟨s.structuralBytes ++ rest, hashed⟩)) =
      .ok (s.structuralBytes, ⟨rest, hashed ++ s.structuralBytes⟩) := by
  obtain ⟨-, -, hversion, -⟩ := @at_metadata p s utcMs
  rw [hversion]
  by_cases hst : structural s
  · obtain ⟨hbytes, hdigest⟩ := @at_metadata_edition p _ utcMs hst
    rw [hbytes, hdigest]
    simp only [hst, QJsonValue.toInteger, if_true]
    exact readHashed_append hs.2.2.1 rfl
  · have hnil : s.structuralBytes = [] := by simpa [structural] using hst
    simp [hst, hnil, QJsonValue.toInteger]

/-- What reading a written file gives. -/
theorem read_fileOf (hs : admission p s) (hf : overlayFits 0 s.changes.entries = true)
    (hp : ∀ bytes, (p.sha256 bytes).length = 32) (hne : json ≠ []) (hlen : json.length ≤ 64 * 1024)
    (hj : p.fromJson json = some (metadata p utcMs s)) (hpath : p.path root target = true)
    (hdisk : disk.find target = some (fileOf p json s)) :
    read p disk root target =
      if headerAccepts p (structural s) (metadata p utcMs s) then
        if s.hasCurrentDraft ∧ s.currentResource = [] then .error "epub-draft-selection"
        else .ok (stored p s)
      else .error "epub-draft-metadata" := by
  unfold read
  rw [failIf_of_not (by simp [hpath]), ok_bind, hdisk, Option.elim_some, ok_bind,
    header_fileOf hs hf hp hne hlen hj]
  by_cases ha : headerAccepts p (structural s) (metadata p utcMs s)
  swap
  · rw [if_neg ha, if_neg ha, error_bind]
  obtain ⟨h1, h2, h3, h4, h5, h6, h7, h8, h9, h10, h11, h12⟩ :=
    @at_metadata p s utcMs
  rw [if_pos ha, if_pos ha, ok_bind]
  simp only [bodyOf]
  rw [h1, readHashed_append hs.2.1 (by rw [h2]; rfl), ok_bind]
  simp only
  rw [readEdition_body hs, ok_bind]
  simp only [h4, QJsonValue.toArray]
  rw [readEntries_changes hf, ok_bind]
  simp only [h5, size_of_le hs.2.2.2.2.2.2.2.2.2.1, Int.toNat_natCast, read_append]
  have hdigest : (p.sha256 (chunks json s).flatten).take 32 = p.sha256 (chunks json s).flatten :=
    take_of_length_le (Nat.le_of_eq (hp _))
  have hend : (p.sha256 (chunks json s).flatten).drop 32 = [] :=
    drop_of_length_le (Nat.le_of_eq (hp _))
  rw [failIf_of_not (by simp), ok_bind, failIf_of_not, ok_bind]
  · simp only [at_metadata_diskSha256, h2, h6, h7, h8, h9, h10, h11, h12, toInt_toInt,
      toText_string, QJsonValue.toBool]
    have hhash : EditModel.fromHex (toLatin1 (if s.diskHash = [] then
        fromLatin1 (toHex (p.sha256 s.original)) else fromLatin1 (toHex s.diskHash))) =
        (stored p s).diskHash := by
      unfold stored
      by_cases hd : s.diskHash = [] <;> simp [hd, toLatin1_fromLatin1, fromHex_toHex]
    rw [hhash]
    by_cases hsel : s.hasCurrentDraft ∧ s.currentResource = []
    · rw [failIf_of hsel, error_bind, if_pos hsel]
    · rw [failIf_of_not hsel, ok_bind, if_neg hsel]
      rfl
  · rw [hdigest, hend, ← flatten_chunks]
    simp

theorem write_eq_ok {w : World} {disk' : QMap Bytes} {session : QString} :
    write p w disk root session s = .ok (disk', target) ↔
      target = p.filePath root (session ++ latin1 ".hcedraft") ∧
      (w.mkpath ∧ p.path root target ∧ admission p s) ∧ overlayFits 0 s.changes.entries = true ∧
      (p.toJson (metadata p w.utcMs s)).length ≤ 64 * 1024 ∧ w.tryLock ∧ w.open_ ∧
      ((∀ i < (chunks (p.toJson (metadata p w.utcMs s)) s).length, w.write i) ∧
        w.cancelled = false) ∧ w.commit ∧
      disk' = disk.set target (fileOf p (p.toJson (metadata p w.utcMs s)) s) := by
  simp only [write, bind_eq_ok, failIf_eq_ok, pure_eq_ok, Prod.mk.injEq, not_not]
  constructor
  · rintro ⟨-, ha, -, hf, -, hl, -, ht, -, ho, -, hw, -, hc, hd, rfl⟩
    simp only [not_or, not_exists, not_and, Bool.not_eq_false, Bool.not_eq_true] at hf ht ho hw hc
    exact ⟨rfl, ha, hf, by omega, ht, ho, hw, hc, hd.symm⟩
  · rintro ⟨rfl, ha, hf, hl, ht, ho, hw, hc, rfl⟩
    refine ⟨(), ha, (), by simp [hf], (), by omega, (), by simp [ht], (), by simp [ho], (), ?_, (),
      by simp [hc], rfl, rfl⟩
    rintro (⟨i, hi, hn⟩ | hn)
    · simp [hw.1 i hi] at hn
    · simp [hw.2] at hn

/-- A draft that was written is read back just when it names the resource that it has a draft of,
its digest of the disk file is one, and the clock was past 1970. -/
theorem read_write_iff (p : Platform) (w : World) (disk disk' : QMap Bytes)
    (root session target : QString) (s : DraftSnapshot)
    (hp : ∀ bytes, (p.sha256 bytes).length = 32) (hnil : p.fromJson [] = none)
    (hj : p.fromJson (p.toJson (metadata p w.utcMs s)) = some (metadata p w.utcMs s))
    (hw : write p w disk root session s = .ok (disk', target)) :
    read p disk' root target = .ok (stored p s) ↔
      (s.hasCurrentDraft → s.currentResource ≠ []) ∧
      (s.diskHash = [] ∨ s.diskHash.length = 32) ∧ 0 < w.utcMs := by
  obtain ⟨-, ⟨-, hpath, hs⟩, hf, hlen, -, -, -, -, rfl⟩ := write_eq_ok.1 hw
  have hne : p.toJson (metadata p w.utcMs s) ≠ [] := fun h => by
    rw [h, hnil] at hj
    cases hj
  have hacc := @headerAccepts_metadata _ _ w.utcMs hp hs
  rw [read_fileOf hs hf hp hne hlen hj hpath OrdMap.find_set_self]
  by_cases hh : headerAccepts p (structural s) (metadata p w.utcMs s)
  · rw [if_pos hh]
    by_cases hsel : s.hasCurrentDraft ∧ s.currentResource = []
    · rw [if_pos hsel]
      exact ⟨fun h => (by cases h), fun h => absurd hsel.2 (h.1 hsel.1)⟩
    · rw [if_neg hsel]
      exact ⟨fun _ => ⟨fun hc hr => hsel ⟨hc, hr⟩, hacc.1 hh⟩, fun _ => rfl⟩
  · rw [if_neg hh]
    exact ⟨fun h => (by cases h), fun h => absurd (hacc.2 h.2) hh⟩

/-! ## Two drafts of an archive's beginning -/

/-- A draft of a resource that is not named. -/
def sampleDraft : DraftSnapshot :=
  { sourcePath := latin1 "C:/a.epub", original := [80, 75, 3, 4], hasCurrentDraft := true }

/-- Two changes, a draft of the first resource, and where the reader was in it. -/
def editedDraft : DraftSnapshot :=
  { sampleDraft with
    currentResource := latin1 "a.xhtml"
    locator := latin1 "a.xhtml#p"
    currentDraft := toLatin1 (latin1 "<p>ab</p>")
    diskHash := Bytes.be 32 0x450f1ee8a4cdb06410c043b290efe7e8a96491af51a0dbdd084e8143d66e3ade
    changes :=
      (OrdMap.empty.set (latin1 "a.xhtml") (toLatin1 (latin1 "<p>a</p>"))).set
        (latin1 "s.css") [112]
    cursor := 4
    readingChapter := 0 }

/-- The digests of the original and, with another `digest`, of the file. -/
def sampleSha256 (digest : Nat) (bytes : Bytes) : Bytes :=
  if bytes = [80, 75, 3, 4] then
    Bytes.be 32 0x8dcc7e601606217f3b754766511182a916b17e9a26a94c9d887104eba92e9bb2
  else Bytes.be 32 digest

/-- The headers of the drafts. -/
def sampleJson : Bytes :=
  ["\x7b\"currentBytes\":0,\"currentResource\":\"\",\"cursor\":0,\"entries\":[],",
    "\"hasCurrentDraft\":true,\"locator\":\"\",\"originalBytes\":4,",
    "\"readingChapter\":-1,\"schemaVersion\":1,\"scroll\":0,\"sourcePath\":\"C:/a.epub\",",
    "\"sourceSha256\":",
    "\"8dcc7e601606217f3b754766511182a916b17e9a26a94c9d887104eba92e9bb2\",\"utcMs\":1\x7d"].flatMap
    fun part => toLatin1 (latin1 part)

def editedJson : Bytes :=
  ["\x7b\"currentBytes\":9,\"currentResource\":\"a.xhtml\",\"cursor\":4,\"diskSha256\":",
    "\"450f1ee8a4cdb06410c043b290efe7e8a96491af51a0dbdd084e8143d66e3ade\",\"entries\":[",
    "\x7b\"bytes\":8,\"path\":\"a.xhtml\"\x7d,\x7b\"bytes\":1,\"path\":\"s.css\"\x7d],",
    "\"hasCurrentDraft\":true,\"locator\":\"a.xhtml#p\",\"originalBytes\":4,",
    "\"readingChapter\":0,\"schemaVersion\":1,\"scroll\":0,\"sourcePath\":\"C:/a.epub\",",
    "\"sourceSha256\":",
    "\"8dcc7e601606217f3b754766511182a916b17e9a26a94c9d887104eba92e9bb2\",\"utcMs\":1\x7d"].flatMap
    fun part => toLatin1 (latin1 part)

/-- A platform where the header of one draft is the only text that is JSON. -/
def samplePlatform (digest : Nat) (json : Bytes) (s : DraftSnapshot) : Platform :=
  let platform : Platform := {
    sha256 := sampleSha256 digest
    toJson := fun _ => json
    fromJson := fun _ => none
    isAbsolute := fun path => path.take 3 = latin1 "C:/"
    isEpub := fun path => path.drop (path.length - 5) = latin1 ".epub"
    path := fun root path => path.take root.length = root
    filePath := fun root name => root ++ latin1 "/" ++ name }
  { platform with
    fromJson := fun bytes => if bytes = json then some (metadata platform 1 s) else none }

theorem fromJson_samplePlatform (digest : Nat) (json : Bytes) (s : DraftSnapshot) (bytes : Bytes) :
    (samplePlatform digest json s).fromJson bytes =
      if bytes = json then some (metadata (samplePlatform digest json s) 1 s) else none := rfl

theorem length_sampleSha256 (digest : Nat) (bytes : Bytes) :
    (sampleSha256 digest bytes).length = 32 := by
  unfold sampleSha256
  split <;> exact Bytes.length_be _ _

/-- The folder of the store, and a draft in it. -/
def sampleRoot : QString := latin1 "D:/drafts"

def sampleSession : QString := latin1 "00000000000000000000000000000000"

def sampleTarget : QString := sampleRoot ++ latin1 "/" ++ (sampleSession ++ latin1 ".hcedraft")

/-- Admission asks for no digest and no JSON. -/
theorem admission_samplePlatform {digest : Nat} {s' s : DraftSnapshot}
    (h : admission (samplePlatform 0 [] sampleDraft) s) :
    admission (samplePlatform digest json s') s := h

theorem path_sample (digest : Nat) (json : Bytes) (s : DraftSnapshot) :
    (samplePlatform digest json s).path sampleRoot sampleTarget = true := by
  have h : (samplePlatform 0 [] sampleDraft).path sampleRoot sampleTarget = true := by
    decide +kernel
  exact h

theorem write_sample (digest : Nat) {s : DraftSnapshot} (hlen : json.length ≤ 64 * 1024)
    (hs : admission (samplePlatform 0 [] sampleDraft) s)
    (hf : overlayFits 0 s.changes.entries = true) :
    write (samplePlatform digest json s) { utcMs := 1 } .empty sampleRoot sampleSession s =
      .ok (.set .empty sampleTarget (fileOf (samplePlatform digest json s) json s), sampleTarget) :=
  write_eq_ok.2 ⟨rfl, ⟨rfl, path_sample digest json s, admission_samplePlatform hs⟩,
    hf, hlen, rfl, rfl, ⟨fun _ _ => rfl, rfl⟩, rfl, rfl⟩

/-- The platforms for the two drafts. -/
abbrev editedPlatform : Platform :=
  samplePlatform 0x8df5f94e4e384f9cd8ab677d680b498e790b619333020185b9e1efa3746a8be4
    editedJson editedDraft

abbrev selectedPlatform : Platform :=
  samplePlatform 0xe6d70952e93456ed13995887af47be0d1146a8dbe6e859eec48ee6c774edd285
    sampleJson sampleDraft

/-- The changes and the draft of the named resource come back. -/
theorem read_write_iff_edited :
    read editedPlatform
        (.set .empty sampleTarget (fileOf editedPlatform editedJson editedDraft))
        sampleRoot sampleTarget = .ok editedDraft := by
  have hlen : editedJson.length = 433 := by decide +kernel
  have hs : admission (samplePlatform 0 [] sampleDraft) editedDraft := by decide +kernel
  have hw := write_sample 0x8df5f94e4e384f9cd8ab677d680b498e790b619333020185b9e1efa3746a8be4
    (show editedJson.length ≤ 64 * 1024 by omega) hs (by decide +kernel)
  have hst : editedDraft = stored editedPlatform editedDraft := by decide +kernel
  rw [hst]
  refine (read_write_iff editedPlatform { utcMs := 1 } .empty _ sampleRoot
    sampleSession sampleTarget
    editedDraft (length_sampleSha256 _) ?_ ?_ hw).2
    ⟨fun _ => (by decide +kernel), .inr (Bytes.length_be _ _), by decide⟩
  · rw [fromJson_samplePlatform, if_neg]
    intro h
    rw [← h] at hlen
    cases hlen
  · rw [fromJson_samplePlatform]
    exact if_pos rfl

/-- A draft of a resource that is not named is written, and refused when it is read. -/
theorem read_selection :
    write selectedPlatform { utcMs := 1 } .empty sampleRoot sampleSession sampleDraft =
      .ok (.set .empty sampleTarget (fileOf selectedPlatform sampleJson sampleDraft),
        sampleTarget) ∧
    read selectedPlatform
        (.set .empty sampleTarget (fileOf selectedPlatform sampleJson sampleDraft))
        sampleRoot sampleTarget = .error "epub-draft-selection" := by
  have hlen : sampleJson.length = 283 := by decide +kernel
  have hadm : admission (samplePlatform 0 [] sampleDraft) sampleDraft := by decide +kernel
  have hs : admission selectedPlatform sampleDraft := admission_samplePlatform hadm
  have hj : selectedPlatform.fromJson sampleJson =
      some (metadata selectedPlatform 1 sampleDraft) :=
    (fromJson_samplePlatform ..).trans (if_pos rfl)
  refine ⟨write_sample _ (by omega) hadm rfl, ?_⟩
  rw [read_fileOf hs rfl (length_sampleSha256 _) (ne_nil_of_length_pos (by omega)) (by omega) hj
    (path_sample ..) OrdMap.find_set_self, if_pos, if_pos ⟨rfl, rfl⟩]
  exact (headerAccepts_metadata (length_sampleSha256 _) hs).2 ⟨.inl rfl, by decide⟩

end DraftStore
end Hc.Document.Epub
