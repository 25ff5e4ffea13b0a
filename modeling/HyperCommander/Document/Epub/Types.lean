import HyperCommander.Storage.Types
import HyperCommander.Lib.Unicode

/-!
# Values of EPUB documents (`commonLibs/document/epub`)

A `QByteArray` is a byte string and a `QString` a string of UTF-16 code units, compared unit by
unit. Media types, error texts and the other texts that the code only compares with its own are
`String`s.
-/

namespace Hc.Document.Epub

open Storage

/-- `QByteArray`. -/
abbrev Bytes := List UInt8

/-- `QString`. -/
abbrev QString := Unicode.Units

scoped instance linearOrderUInt16 : LinearOrder UInt16 where
  le_refl := UInt16.le_refl
  le_trans _ _ _ := UInt16.le_trans
  le_antisymm _ _ := UInt16.le_antisymm
  le_total := UInt16.le_total
  lt_iff_le_not_ge a b := by
    simp only [UInt16.le_iff_toNat_le, UInt16.lt_iff_toNat_lt]
    omega
  toDecidableLE := inferInstance
  toDecidableLT := inferInstance
  toDecidableEq := inferInstance

/-- `QMap<QString, T>`. -/
abbrev QMap (α : Type) := OrdMap QString α

/-- The hexadecimal digit of a number below 16. -/
def hexDigit (n : Nat) : UInt8 := if n < 10 then UInt8.ofNat (48 + n) else UInt8.ofNat (87 + n)

/-- `QByteArray::toHex`. -/
def toHex (bytes : Bytes) : Bytes :=
  bytes.flatMap fun b => [hexDigit (b.toNat / 16), hexDigit (b.toNat % 16)]

/-- `Rejected`: the text of an error, and the location that is put behind it. -/
structure Rejected where
  code : String
  location : QString := []
deriving DecidableEq, Repr

/-- A resource of a publication. -/
structure Resource where
  path : QString
  mediaType : String
  base64 : Option Bytes := none
deriving DecidableEq, Repr

/-- The index of a publication. `details` is everything that the edit model only hands on. -/
structure Publication where
  sourceSha256 : Bytes := []
  rootfile : QString := []
  resources : List Resource := []
  details : Bytes := []
deriving DecidableEq, Repr

end Hc.Document.Epub
