import HyperCommander.Lib.Outcome
import HyperCommander.Lib.Tlv
import HyperCommander.Lib.Unicode
import HyperCommander.Storage.Types

/-!
# Extra fields of ZIP entries (`SevenZip/sevenZipMetadata.inl`)

Which extra fields of an entry outlive a rewrite, and the block that a rewritten entry gets. Of the
update items the members that these functions read are modelled.
-/

open Outcome

namespace Hc.Zip

open Unicode Storage

/-- `Field`. -/
abbrev Field := Tlv.Record

/-- `Bad`. -/
def bad : Error := ⟨.unsupported, "zip-metadata-layout", false⟩

/-- `U16`. -/
def u16 (bs : List UInt8) (i : Nat) : Nat := Bytes.ofLE ((bs.drop i).take 2)

/-- `Put16`, `Put32` and `Put64`: the value in `k` bytes at `i`. -/
def put (k : Nat) (bs : List UInt8) (i v : Nat) : List UInt8 :=
  bs.take i ++ Bytes.le k v ++ bs.drop (i + k)

/-- `Fields`. -/
def fields (bs : List UInt8) : Except Error (List Field) :=
  match Tlv.parse bs with
  | some fs => .ok fs
  | none => .error bad

/-- `Encode`. -/
def encode (fs : List Field) : List UInt8 := Tlv.encode fs

/-- `Generated`. -/
def generated (id : UInt16) : Bool :=
  id = 1 ∨ id = 0x5455 ∨ id = 0x7075 ∨ id = 0x6375 ∨ id = 0x9901

def uint16Max : Nat := 65535

def uint32Max : Nat := 4294967295

/-- `NUCX`. -/
def nucx : List UInt8 := [0x4e, 0x55, 0x43, 0x58]

/-- `MD5`. -/
def md5 : List UInt8 := [0x4d, 0x44, 0x35]

/-- `XceedName`: the record of an alternate name, for another name. -/
def xceedName (data : List UInt8) (name : Units) : Except Error (List UInt8) := do
  failIf (data.length < 6 ∨ data.take 4 ≠ nucx) bad
  let length := u16 data 4 * 2
  let central : Bool := data.length ≠ 6 + length
  failIf (central ∧ (data.length < 8 ∨ data.length ≠ 8 + length + u16 data 6 * 2)) bad
  failIf (uint16Max < name.length) bad
  let out := put 2 (data.take (if central then 8 else 6)) 4 name.length
  let encoded := name.flatMap fun u => Bytes.le 2 u.toNat
  pure (out ++ encoded ++ if central then data.drop (8 + length) else [])

/-- The tags of the NTFS record that are not its times. -/
def unknownTags : List Field → Except Error (List Field)
  | [] => .ok []
  | tag :: tags =>
    if tag.id = 1 then do
      failIf (tag.data.length ≠ 24) bad
      unknownTags tags
    else do
      let rest ← unknownTags tags
      pure (tag :: rest)

/-- One field in the loop of `Persistent`: what is kept of it. -/
def persistentField (f : Field) : Except Error (Option Field) :=
  if generated f.id then pure none
  else if (0x14 ≤ f.id ∧ f.id ≤ 0x19) ∨ f.id = 0xd ∨ f.id = 0x756e ∨ f.id = 0x4f4c ∨
      f.id = 0x2605 then
    .error ⟨.unsupported, "zip-dependent-extra-unsupported:" ++ toString f.id.toNat, false⟩
  else if f.id = 0xa11e ∨ f.id = 0xd935 then do
    failIf (f.data.length < 2) bad
    pure (some { f with data := f.data.take 2 })
  else if f.id = 0x4b46 then do
    failIf (f.data.length ≠ 19 ∨ f.data.take 3 ≠ md5) bad
    pure (some { f with data := md5 ++ List.replicate 16 0 })
  else if f.id = 0x5855 then do
    failIf (f.data.length ≠ 8 ∧ f.data.length ≠ 12) bad
    pure (some { f with data := put 4 f.data 4 0 })
  else if f.id = 0x554e then do
    let normal ← xceedName f.data []
    pure (some { f with data := normal })
  else if f.id = 0xa then do
    failIf (f.data.length < 4) bad
    let tags ← fields (f.data.drop 4)
    let unknown ← unknownTags tags
    -- a record of nothing but times is not kept
    pure (if unknown = [] ∧ f.data.take 4 = List.replicate 4 0 then none
      else some { f with data := f.data.take 4 ++ encode unknown })
  else pure (some f)

/-- The loop of `Persistent`. -/
def persistentFields : List Field → Except Error (List Field)
  | [] => .ok []
  | f :: fs => do
    let g ← persistentField f
    let gs ← persistentFields fs
    pure (g.toList ++ gs)

/-- `Persistent`. -/
def persistent (bs : List UInt8) : Except Error (List UInt8) := do
  let fs ← fields bs
  let out ← persistentFields fs
  pure (encode out)

/-- `UpdateItem`. -/
structure UpdateItem where
  name : Units
  directory : Bool := false
  /-- `modified_` as one number. -/
  modified : Nat := 0
  renamed : Bool := false
  legacyMd5 : List UInt8 := []
  reuseData : Bool := false
deriving DecidableEq, Repr

/-- The first FILETIME of the UNIX era. -/
def unixEpoch : Nat := 116444736000000000

/-- The modification time in seconds, if it is a UNIX time. -/
def unixTime (item : UpdateItem) : Except Error Nat := do
  failIf (item.modified < unixEpoch ∨ uint32Max < (item.modified - unixEpoch) / 10000000) bad
  pure ((item.modified - unixEpoch) / 10000000)

/-- The first loop of `Merge`: the generated fields and the tags of times of the fresh block. -/
def freshFields : List Field → Except Error (List Field × List Field)
  | [] => .ok ([], [])
  | f :: fs =>
    if f.id = 0xa then do
      failIf (f.data.length < 4) bad
      let tags ← fields (f.data.drop 4)
      let (out, times) ← freshFields fs
      pure (out, tags.filter (fun t => t.id = 1) ++ times)
    else do
      let (out, times) ← freshFields fs
      pure (if generated f.id ∧ f.id ≠ 0x5455 then f :: out else out, times)

/-- One field in the second loop of `Merge`: what is written for an original field, and whether it
had NTFS times. -/
def originalField (item : UpdateItem) (f : Field) : Except Error (List Field × Bool) :=
  if f.id = 0x5855 then
    if item.renamed then pure ([f], false)
    else do
      let time ← unixTime item
      pure ([{ f with data := put 4 f.data 4 time }], false)
  else if f.id = 0x554e then do
    let name ← xceedName f.data (item.name ++ if item.directory then [0x2f] else [])
    pure ([{ f with data := name }], false)
  else if f.id = 0xa then do
    let tags ← fields (f.data.drop 4)
    pure ([], tags.any fun t => t.id = 1)
  else if f.id = 0x5455 then
    match f.data with
    | [] => .error bad
    | flags :: _ =>
      if flags &&& 1 ≠ 0 then do
        failIf (f.data.length < 5) bad
        let time ← unixTime item
        pure ([{ f with data := put 4 f.data 1 time }], false)
      else pure ([f], false)
  else pure ([], false)

/-- The second loop of `Merge`. -/
def originalFields (item : UpdateItem) : List Field → Except Error (List Field × Bool)
  | [] => .ok ([], false)
  | f :: fs => do
    let (out, had) ← originalField item f
    let (outs, hads) ← originalFields item fs
    pure (out ++ outs, had || hads)

/-- One field in the third loop of `Merge`. -/
def keptField (item : UpdateItem) (original : List Field) (times : List UInt8) (f : Field) :
    Except Error (List Field) :=
  if f.id = 0x5855 ∨ f.id = 0x554e then pure []
  else if f.id = 0x4b46 then
    if item.reuseData then
      match original.find? fun s => s.id = f.id with
      | some s => pure [{ f with data := s.data }]
      | none => pure [f]
    else do
      failIf (item.legacyMd5.length ≠ 16) bad
      pure [{ f with data := md5 ++ item.legacyMd5 }]
  else if f.id = 0xa then pure [{ f with data := f.data.take 4 ++ times ++ f.data.drop 4 }]
  else pure [f]

/-- The third loop of `Merge`. -/
def keptFields (item : UpdateItem) (original : List Field) (times : List UInt8) :
    List Field → Except Error (List Field)
  | [] => .ok []
  | f :: fs => do
    let out ← keptField item original times f
    let outs ← keptFields item original times fs
    pure (out ++ outs)

/-- `zip-extra-size-overflow`. -/
def sizeOverflow : Error := ⟨.unsupported, "zip-extra-size-overflow", false⟩

/-- `Merge`. -/
def merge (fresh old : List UInt8) (item : UpdateItem) : Except Error (List UInt8) := do
  let keep ← persistent old
  let a ← fields fresh
  let b ← fields keep
  let original ← fields old
  let (out, freshTimes) ← freshFields a
  let (special, hadTimes) ← originalFields item original
  -- no NTFS times are added to an entry that had none
  let times := if hadTimes then encode freshTimes else []
  let kept ← keptFields item original times b
  let ntfs : Bool := b.any fun f => f.id = 0xa
  let added : List Field :=
    if ¬ ntfs ∧ times ≠ [] then [⟨0xa, List.replicate 4 0 ++ times⟩] else []
  let all := out ++ special ++ kept ++ added
  failIf (∃ f ∈ all, uint16Max < f.data.length) sizeOverflow
  failIf (uint16Max < (encode all).length) sizeOverflow
  pure (encode all)

end Hc.Zip
