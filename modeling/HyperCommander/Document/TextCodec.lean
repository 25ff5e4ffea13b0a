import HyperCommander.Lib.CodeTable
import HyperCommander.Lib.Unicode
import HyperCommander.Storage.Types

/-!
# The text codec of documents (`UniqueLibs/document/documentTextCodec.cpp`)

Bytes are decoded into text and text is encoded into bytes. The code page conversions of the
operating system and the translated menu label are parameters (`Platform`). Notes and the other
display texts, and the scan for characters that cannot be written, are left out.
-/

namespace Hc.Document.TextCodec

open Unicode Storage

/-- A literal of the source as a `QString`. -/
def latin1 (s : String) : Units := s.toList.map fun c => c.toNat.toUInt16

/-- The operating system as the codec sees it. A call that fails gives the code of
`GetLastError`. -/
structure Platform where
  /-- `GetACP`. -/
  acp : Nat
  /-- `MultiByteToWideChar` for a code page, flags and bytes. -/
  multiByteToWideChar : Nat → Nat → List UInt8 → Except Nat Units
  /-- `WideCharToMultiByte` for a code page, flags, and text; with the bytes,
  `lpUsedDefaultChar`. -/
  wideCharToMultiByte : Nat → Nat → Units → Except Nat (List UInt8 × Bool)
  /-- The menu label of the system encoding. -/
  systemLabel : Units

def intMax : Nat := 2147483647

def cpUtf8 : Nat := 65001

def cpUtf7 : Nat := 65000

def cpAcp : Nat := 0

def mbErrInvalidChars : Nat := 0x8

def wcErrInvalidChars : Nat := 0x80

def wcNoBestFitChars : Nat := 0x400

def errorInvalidParameter : Nat := 87

def errorInvalidFlags : Nat := 1004

def errorNoUnicodeTranslation : Nat := 1113

/-! ### Names -/

/-- `LegacyEncoding`. -/
structure LegacyEncoding where
  name : Units
  codePage : Nat
  tag : String

def legacyEncodings : List LegacyEncoding :=
  [⟨latin1 "CP949", 949, "cp949"⟩, ⟨latin1 "Shift_JIS", 932, "shift-jis"⟩,
    ⟨latin1 "GB18030", 54936, "gb18030"⟩, ⟨latin1 "ISO-8859-1", 28591, "iso-8859-1"⟩,
    ⟨latin1 "System", cpAcp, "system"⟩]

/-- `FindLegacy`. -/
def findLegacy (name : Units) : Option LegacyEncoding :=
  legacyEncodings.find? fun e => name = e.name

/-- `CodePageOf`. -/
def codePageOf (p : Platform) (e : LegacyEncoding) : Nat :=
  if e.codePage = cpAcp then p.acp else e.codePage

/-- Case folding of a unit, as far as it can give an ASCII letter: besides the capital letters
these are the Kelvin sign and the long s. -/
def foldUnit (u : UInt16) : UInt16 :=
  if 0x41 ≤ u ∧ u ≤ 0x5a then u + 0x20
  else if u = 0x212a then 0x6b
  else if u = 0x17f then 0x73
  else u

/-- `compare(QLatin1String, Qt::CaseInsensitive) == 0` with an ASCII text. -/
def sameCaseless (q : Units) (name : String) : Bool := q.map foldUnit = (latin1 name).map foldUnit

def encodingNames : List String :=
  ["UTF-8", "UTF-16LE", "UTF-16BE", "CP949", "Shift_JIS", "GB18030", "ISO-8859-1", "System"]

def encodingAliases : List (String × String) :=
  [("EUC-KR", "CP949"), ("EUC-KR (CP949)", "CP949"), ("CP932", "Shift_JIS"),
    ("Shift-JIS", "Shift_JIS"), ("SJIS", "Shift_JIS"), ("CP54936", "GB18030"),
    ("CP28591", "ISO-8859-1"), ("Latin1", "ISO-8859-1"), ("Latin-1", "ISO-8859-1")]

/-- `ReadEncodings`: names and menu labels. -/
def readEncodings (p : Platform) : List (String × Units) :=
  [("UTF-8", latin1 "UTF-8"), ("UTF-16LE", latin1 "UTF-16LE"), ("UTF-16BE", latin1 "UTF-16BE"),
    ("CP949", latin1 "EUC-KR (CP949)"), ("Shift_JIS", latin1 "Shift_JIS"),
    ("GB18030", latin1 "GB18030"), ("ISO-8859-1", latin1 "ISO-8859-1"), ("System", p.systemLabel)]

/-- `CanonicalEncodingName`: empty for an encoding that is not supported. -/
def canonicalEncodingName (p : Platform) (encoding : Units) : Units :=
  if encoding = [] then []
  else
    match encodingNames.find? fun n => sameCaseless encoding n with
    | some n => latin1 n
    | none =>
      match encodingAliases.find? fun a => sameCaseless encoding a.1 with
      | some a => latin1 a.2
      | none =>
        match (readEncodings p).find? fun i => encoding = i.2 with
        | some i => latin1 i.1
        | none => []

/-! ### Code pages -/

/-- `CodePageRule`. -/
inductive CodePageRule
  | substitution
  | unicode
  | plain
deriving DecidableEq, Repr

/-- `RuleOf`. -/
def ruleOf (codePage : Nat) : CodePageRule :=
  if codePage = cpUtf8 ∨ codePage = 54936 then .unicode
  else if (50220 ≤ codePage ∧ codePage ≤ 50229) ∨ codePage = 52936 ∨
      (57002 ≤ codePage ∧ codePage ≤ 57011) ∨ codePage = cpUtf7 ∨ codePage = 42 then .plain
  else .substitution

/-- `FlagsRejected`. -/
def flagsRejected (error : Nat) : Bool :=
  error = errorInvalidFlags ∨ error = errorInvalidParameter

/-- `RawDecode`. -/
def rawDecode (p : Platform) (bytes : List UInt8) (codePage flags : Nat) : Except Nat Units :=
  if bytes = [] then .ok [] else p.multiByteToWideChar codePage flags bytes

/-- `RawEncode`: the bytes, and whether a character was substituted and `report` asked for it. -/
def rawEncode (p : Platform) (text : Units) (codePage flags : Nat) (report : Bool) :
    Except Nat (List UInt8 × Bool) :=
  if text = [] then .ok ([], false)
  else (p.wideCharToMultiByte codePage flags text).map fun r => (r.1, report && r.2)

/-- `Conversion`, with the bytes of an exact one. -/
inductive Conversion
  | exact (bytes : List UInt8)
  | lossy
  | failed
deriving DecidableEq, Repr

/-- The flagless conversion of `EncodeCodePage`, verified by converting back. -/
def encodePlain (p : Platform) (text : Units) (codePage : Nat) : Conversion :=
  match rawEncode p text codePage 0 false with
  | .error e => if e = errorNoUnicodeTranslation then .lossy else .failed
  | .ok (bytes, _) => if rawDecode p bytes codePage 0 = .ok text then .exact bytes else .lossy

/-- The strict conversion of `EncodeCodePage`. -/
def encodeStrict (p : Platform) (text : Units) (codePage : Nat) : Conversion :=
  let report : Bool := ruleOf codePage = .substitution
  match rawEncode p text codePage (if report then wcNoBestFitChars else wcErrInvalidChars)
      report with
  | .ok (bytes, lossy) =>
    if lossy then .lossy
    -- GB18030 cannot report a substitution, so its result is read back
    else if ruleOf codePage = .unicode ∧ codePage ≠ cpUtf8 ∧
        rawDecode p bytes codePage mbErrInvalidChars ≠ .ok text then .lossy
    else .exact bytes
  | .error e =>
    if e = errorNoUnicodeTranslation then .lossy
    else if flagsRejected e then encodePlain p text codePage
    else .failed

/-- `EncodeCodePage`. -/
def encodeCodePage (p : Platform) (text : Units) (codePage : Nat) : Conversion :=
  if intMax < text.length then .failed
  else if ruleOf codePage = .plain then encodePlain p text codePage
  else encodeStrict p text codePage

/-- The flagless conversion of `DecodeCodePage`, accepted when it writes the bytes back. -/
def decodePlain (p : Platform) (bytes : List UInt8) (codePage : Nat) : Option Units :=
  match rawDecode p bytes codePage 0 with
  | .error _ => none
  | .ok text => if encodeCodePage p text codePage = .exact bytes then some text else none

/-- `DecodeCodePage`. -/
def decodeCodePage (p : Platform) (bytes : List UInt8) (codePage : Nat) : Option Units :=
  if intMax < bytes.length then none
  else if ruleOf codePage = .plain then decodePlain p bytes codePage
  else
    match rawDecode p bytes codePage mbErrInvalidChars with
    | .ok text => some text
    | .error e => if flagsRejected e then decodePlain p bytes codePage else none

/-! ### Unicode encodings -/

/-- The `QStringConverter` kinds that are used. -/
inductive Kind
  | utf8
  | utf16le
  | utf16be
deriving DecidableEq, Repr

/-- The byte order mark of a kind. -/
def Kind.mark : Kind → List UInt8
  | .utf8 => [0xef, 0xbb, 0xbf]
  | .utf16le => [0xff, 0xfe]
  | .utf16be => [0xfe, 0xff]

/-- Units of two bytes each; an odd byte at the end is dropped. -/
def unitsOfBytes (big : Bool) : List UInt8 → Units
  | a :: b :: rest =>
    UInt16.ofNat (if big then Bytes.ofBE [a, b] else Bytes.ofLE [a, b]) :: unitsOfBytes big rest
  | _ => []

def bytesOfUnit (big : Bool) (u : UInt16) : List UInt8 :=
  if big then Bytes.be 2 u.toNat else Bytes.le 2 u.toNat

/-- The characters of UTF-8 bytes; `none` if they are malformed. -/
def ofUtf8 (bytes : List UInt8) : Option Units :=
  bytes.toByteArray.utf8Decode?.map fun cs => cs.toList.flatMap units

/-- `QStringDecoder`: takes off one byte order mark at the front; `none` if `hasError`. -/
def qtDecode (kind : Kind) (bytes : List UInt8) : Option Units :=
  let body := if kind.mark <+: bytes then bytes.drop kind.mark.length else bytes
  match kind with
  | .utf8 => ofUtf8 body
  | .utf16le => some (unitsOfBytes false body)
  | .utf16be => some (unitsOfBytes true body)

/-- `QStringEncoder`, with `WriteBom` or without; `none` if `hasError`. -/
def qtEncode (kind : Kind) (bom : Bool) (text : Units) : Option (List UInt8) :=
  let front := if bom then kind.mark else []
  match kind with
  | .utf8 => if Paired text then some (front ++ toUtf8 text) else none
  | .utf16le => some (front ++ text.flatMap (bytesOfUnit false))
  | .utf16be => some (front ++ text.flatMap (bytesOfUnit true))

/-! ### Documents -/

/-- `TextDetection`. -/
inductive TextDetection
  | explicit
  | bom
  | utf8Strict
  | asciiOnly
  | cp949Fallback
deriving DecidableEq, Repr

/-- `DecodedText`. -/
structure DecodedText where
  text : Units := []
  encoding : Units := []
  bom : Bool := false
  detection : TextDetection := .explicit
deriving DecidableEq, Repr

/-- `Invalid`. -/
def invalid (code : String) : Error := ⟨.invalidRequest, code, false⟩

/-- The check at the end of `DecodeDocumentText`. -/
def checkText (r : DecodedText) : Except Error DecodedText :=
  if 0 ∈ r.text ∨ ¬ Paired r.text then .error (invalid "document-text-nul-or-surrogate") else .ok r

def kindOf (encoding : Units) : Kind :=
  if encoding = latin1 "UTF-8" then .utf8
  else if encoding = latin1 "UTF-16LE" then .utf16le
  else .utf16be

/-- The encoding, mark and detection that `DecodeDocumentText` starts from. -/
def startOf (p : Platform) (bytes : List UInt8) (encoding : Units) : DecodedText :=
  let utf8Bom : Bool := Kind.mark .utf8 <+: bytes
  let utf16LeBom : Bool := Kind.mark .utf16le <+: bytes
  let utf16BeBom : Bool := Kind.mark .utf16be <+: bytes
  if encoding = [] then
    let bom := utf8Bom || utf16LeBom || utf16BeBom
    { encoding := if utf16LeBom then latin1 "UTF-16LE" else if utf16BeBom then latin1 "UTF-16BE"
        else latin1 "UTF-8",
      bom := bom, detection := if bom then .bom else .utf8Strict }
  else
    let name := canonicalEncodingName p encoding
    { encoding := name,
      bom := if name = latin1 "UTF-8" then utf8Bom else if name = latin1 "UTF-16LE" then utf16LeBom
        else name = latin1 "UTF-16BE" && utf16BeBom }

/-- The branch of `DecodeDocumentText` for a legacy encoding. -/
def decodeLegacy (p : Platform) (bytes : List UInt8) (e : LegacyEncoding) (r : DecodedText) :
    Except Error DecodedText :=
  match decodeCodePage p bytes (codePageOf p e) with
  | none => .error (invalid ("document-decode-invalid-" ++ e.tag))
  | some text => checkText { r with text := text }

/-- `DecodeDocumentText` for a named encoding. -/
def decodeNamed (p : Platform) (bytes : List UInt8) (encoding : Units) :
    Except Error DecodedText :=
  let r := startOf p bytes encoding
  if r.encoding = [] then .error (invalid "document-encoding-unavailable")
  else
    match findLegacy r.encoding with
    | some e => decodeLegacy p bytes e r
    | none =>
      let kind := kindOf r.encoding
      if kind ≠ .utf8 ∧ bytes.length % 2 = 1 then
        .error (invalid "document-decode-truncated-utf16")
      else
        match qtDecode kind bytes with
        | none => .error (invalid "document-decode-invalid")
        | some text => checkText { r with text := text }

/-- `DecodeDocumentText` without a named encoding. -/
def decodeDetected (p : Platform) (bytes : List UInt8) : Except Error DecodedText :=
  let r := startOf p bytes []
  let kind := kindOf r.encoding
  if kind ≠ .utf8 ∧ bytes.length % 2 = 1 then .error (invalid "document-decode-truncated-utf16")
  else
    match qtDecode kind bytes with
    | none =>
      if r.bom then .error (invalid "document-decode-invalid")
      -- malformed UTF-8 without a mark may be a Korean file
      else (decodeNamed p bytes (latin1 "CP949")).map fun f =>
        { f with detection := .cp949Fallback }
    | some text =>
      checkText { r with
        text := text,
        detection := if ¬ r.bom ∧ text.length = bytes.length then .asciiOnly else r.detection }

/-- `DecodeDocumentText`. -/
def decodeDocumentText (p : Platform) (bytes : List UInt8) (encoding : Units) :
    Except Error DecodedText :=
  if encoding = [] then decodeDetected p bytes else decodeNamed p bytes encoding

/-- `EncodeDocumentText`. -/
def encodeDocumentText (p : Platform) (text encoding : Units) (bom : Bool) :
    Except Error (List UInt8) :=
  if ¬ Paired text ∨ 0 ∈ text then .error (invalid "document-encode-invalid-text")
  else
    let name := canonicalEncodingName p encoding
    match findLegacy name with
    | some e =>
      match encodeCodePage p text (codePageOf p e) with
      | .exact bytes => .ok bytes
      | .lossy => .error (invalid "document-encoding-unrepresentable")
      | .failed => .error (invalid ("document-encode-" ++ e.tag ++ "-failed"))
    | none =>
      if name ≠ latin1 "UTF-8" ∧ name ≠ latin1 "UTF-16LE" ∧ name ≠ latin1 "UTF-16BE" then
        .error (invalid "document-encoding-unavailable")
      else
        match qtEncode (kindOf name) bom text with
        | none => .error (invalid "document-encoding-unrepresentable")
        | some bytes => .ok bytes

end Hc.Document.TextCodec
