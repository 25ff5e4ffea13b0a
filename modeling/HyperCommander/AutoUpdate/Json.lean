import HyperCommander.Lib.Bytes
import HyperCommander.Lib.Outcome

/-!
# The updater's JSON (`HyperCommanderUpdater/updateJson.cpp`)

Texts are byte strings. A parser takes the bytes from its position on and gives what it has read and
the bytes behind it; `none` is the exception `update-json-invalid`.
-/

open Outcome

namespace Hc.Update

/-- `std::string`. -/
abbrev Text := List UInt8

/-- A text in ASCII. -/
def ascii (s : String) : Text := s.toList.map fun c => UInt8.ofNat c.toNat

/-- The text of a `std::runtime_error`, with what is put behind it. -/
structure Failure where
  code : String
  detail : Text := []
deriving DecidableEq, Repr

/-- `Require`. -/
def require (c : Prop) [Decidable c] (code : String) : Except Failure Unit :=
  failIf (¬ c) { code }

@[simp] theorem require_eq_ok {c : Prop} [Decidable c] {code : String} {u : Unit} :
    require c code = .ok u ↔ c := by
  rw [require, failIf_eq_ok, not_not]

theorem require_of {c : Prop} [Decidable c] {code : String} (h : c) : require c code = .ok () :=
  require_eq_ok.2 h

/-- `Json`. The fields of an object are in the order in which they were read. -/
inductive Json
  | null
  | boolean (value : Bool)
  | number (value : Nat)
  | string (text : Text)
  | object (fields : List (Text × Json))
  | array (values : List Json)

namespace Json

def asNumber : Json → Option Nat
  | number n => some n
  | _ => none

def asString : Json → Option Text
  | string t => some t
  | _ => none

def asBoolean : Json → Option Bool
  | boolean b => some b
  | _ => none

def asArray : Json → Option (List Json)
  | array vs => some vs
  | _ => none

/-- The field of an object, of any kind. -/
def field (j : Json) (key : String) : Option Json :=
  match j with
  | object fs => (fs.find? fun f => f.1 = ascii key).map Prod.snd
  | _ => none

/-- `At`, with a view of the expected kind. -/
def at_ {α : Type} (j : Json) (key : String) (view : Json → Option α) : Except Failure α :=
  match (j.field key).bind view with
  | some a => .ok a
  | none => .error { code := "update-json-field" }

end Json

/-! ## Characters -/

abbrev quote : UInt8 := 34
abbrev comma : UInt8 := 44
abbrev slash : UInt8 := 47
abbrev zero : UInt8 := 48
abbrev colon : UInt8 := 58
abbrev openBracket : UInt8 := 91
abbrev backslash : UInt8 := 92
abbrev closeBracket : UInt8 := 93
abbrev openBrace : UInt8 := 123
abbrev closeBrace : UInt8 := 125

def isSpace (c : UInt8) : Bool := c = 32 || c = 13 || c = 10 || c = 9

def isDigit (c : UInt8) : Bool := 48 ≤ c && c ≤ 57

/-- The value of a hexadecimal digit. -/
def hexValue (c : UInt8) : Option Nat :=
  if 48 ≤ c ∧ c ≤ 57 then some (c.toNat - 48)
  else if 97 ≤ c ∧ c ≤ 102 then some (c.toNat - 97 + 10)
  else if 65 ≤ c ∧ c ≤ 70 then some (c.toNat - 65 + 10)
  else none

/-! ## Reading -/

namespace Parser

/-- `Space`. -/
def space (bytes : Text) : Text := bytes.dropWhile isSpace

/-- `Take`: whether the next character is the given one, and what is behind it if it is. -/
def take (c : UInt8) (bytes : Text) : Bool × Text :=
  match space bytes with
  | [] => (false, [])
  | d :: rest => if d = c then (true, rest) else (false, d :: rest)

/-- `Hex`. -/
def hex : Text → Option (Nat × Text)
  | a :: b :: c :: d :: rest => do
    let a ← hexValue a
    let b ← hexValue b
    let c ← hexValue c
    let d ← hexValue d
    some (((a * 16 + b) * 16 + c) * 16 + d, rest)
  | _ => none

/-- `Utf8`. -/
def utf8 (code : Nat) : Text :=
  (if code < 0x80 then [code]
  else if code < 0x800 then [0xc0 + code / 64, 0x80 + code % 64]
  else if code < 0x10000 then [0xe0 + code / 4096, 0x80 + code / 64 % 64, 0x80 + code % 64]
  else [0xf0 + code / 262144, 0x80 + code / 4096 % 64, 0x80 + code / 64 % 64, 0x80 + code % 64]).map
    UInt8.ofNat

/-- The bytes of a `\u` escape behind the `u`; surrogates come in pairs. -/
def unicode (bytes : Text) : Option (Text × Text) := do
  let (code, rest) ← hex bytes
  if 0xd800 ≤ code ∧ code ≤ 0xdbff then
    match rest with
    | 92 :: 117 :: rest =>
      let (low, rest) ← hex rest
      if low < 0xdc00 ∨ 0xdfff < low then none
      else some (utf8 (0x10000 + (code - 0xd800) * 1024 + low - 0xdc00), rest)
    | _ => none
  else if 0xdc00 ≤ code ∧ code ≤ 0xdfff then none
  else some (utf8 code, rest)

/-- The bytes of an escape behind the backslash. -/
def escape : Text → Option (Text × Text)
  | [] => none
  | c :: rest =>
    if c = quote ∨ c = backslash ∨ c = slash then some ([c], rest)
    else if c = 98 then some ([8], rest)
    else if c = 102 then some ([12], rest)
    else if c = 110 then some ([10], rest)
    else if c = 114 then some ([13], rest)
    else if c = 116 then some ([9], rest)
    else if c = 117 then unicode rest
    else none

/-- The rest of a string behind its opening quote. `fuel` bounds the number of its characters. -/
def stringRest : Nat → Text → Option (Text × Text)
  | 0, _ => none
  | _, [] => none
  | fuel + 1, c :: rest =>
    if c = quote then some ([], rest)
    else if c < 32 then none
    else if c = backslash then do
      let (piece, rest) ← escape rest
      let (text, rest) ← stringRest fuel rest
      some (piece ++ text, rest)
    else do
      let (text, rest) ← stringRest fuel rest
      some (c :: text, rest)

/-- `String`. -/
def string (bytes : Text) : Option (Text × Text) :=
  match take quote bytes with
  | (true, rest) => stringRest (rest.length + 1) rest
  | (false, _) => none

/-- The digits of a number; `leading` is that the number begins with a zero. -/
def digits (leading : Bool) (number : Nat) : Text → Option (Nat × Text)
  | [] => some (number, [])
  | c :: rest =>
    if isDigit c then
      if leading then none
      else if number > (18446744073709551615 - (c.toNat - 48)) / 10 then none
      else digits false (number * 10 + (c.toNat - 48)) rest
    else some (number, c :: rest)

/-- A number; its first digit never overflows. -/
def number : Text → Option (Nat × Text)
  | [] => none
  | c :: rest => if isDigit c then digits (c = zero) (c.toNat - 48) rest else none

/-- `true`, `false` or `null`. -/
def word (bytes : Text) : Option (Json × Text) :=
  if bytes.take 4 = ascii "true" then some (.boolean true, bytes.drop 4)
  else if bytes.take 5 = ascii "false" then some (.boolean false, bytes.drop 5)
  else if bytes.take 4 = ascii "null" then some (.null, bytes.drop 4)
  else none

mutual

/-- `Read`, with the number of values so far. -/
def read : Nat → Nat → Text → Nat → Option (Json × Text × Nat)
  | 0, _, _, _ => none
  | fuel + 1, depth, bytes, nodes =>
    match space bytes with
    | [] => none
    | c :: rest =>
      if depth > 24 ∨ nodes + 1 > 40000 then none
      else if c = openBrace then
        match take closeBrace rest with
        | (true, rest) => some (.object [], rest, nodes + 1)
        | (false, rest) => members fuel depth rest (nodes + 1) []
      else if c = openBracket then
        match take closeBracket rest with
        | (true, rest) => some (.array [], rest, nodes + 1)
        | (false, rest) => elements fuel depth rest (nodes + 1) []
      else if c = quote then do
        let (text, rest) ← string (c :: rest)
        some (.string text, rest, nodes + 1)
      else
        match word (c :: rest) with
        | some (value, rest) => some (value, rest, nodes + 1)
        | none => do
          let (value, rest) ← number (c :: rest)
          some (.number value, rest, nodes + 1)

/-- The fields of an object from one on, behind those that were read. -/
def members : Nat → Nat → Text → Nat → List (Text × Json) → Option (Json × Text × Nat)
  | 0, _, _, _, _ => none
  | fuel + 1, depth, bytes, nodes, fields => do
    let (key, bytes) ← string bytes
    match take colon bytes with
    | (false, _) => none
    | (true, bytes) =>
      let (value, bytes, nodes) ← read fuel (depth + 1) bytes nodes
      if key ∈ fields.map Prod.fst then none
      else
        match take comma bytes with
        | (true, bytes) => members fuel depth bytes nodes (fields ++ [(key, value)])
        | (false, bytes) =>
          match take closeBrace bytes with
          | (true, bytes) => some (.object (fields ++ [(key, value)]), bytes, nodes)
          | (false, _) => none

/-- The values of an array from one on, behind those that were read. -/
def elements : Nat → Nat → Text → Nat → List Json → Option (Json × Text × Nat)
  | 0, _, _, _, _ => none
  | fuel + 1, depth, bytes, nodes, values => do
    let (value, bytes, nodes) ← read fuel (depth + 1) bytes nodes
    match take comma bytes with
    | (true, bytes) => elements fuel depth bytes nodes (values ++ [value])
    | (false, bytes) =>
      match take closeBracket bytes with
      | (true, bytes) => some (.array (values ++ [value]), bytes, nodes)
      | (false, _) => none

end

end Parser

/-- The bytes are UTF-8 (`MultiByteToWideChar` with `MB_ERR_INVALID_CHARS`). -/
def ValidUtf8 (bytes : Text) : Prop := bytes.toByteArray.IsValidUTF8

instance (bytes : Text) : Decidable (ValidUtf8 bytes) :=
  inferInstanceAs (Decidable bytes.toByteArray.IsValidUTF8)

/-- `ParseJson`. Every value and every field takes a byte at least, so the length of the text is
fuel enough. -/
def parseJson (bytes : Text) : Except Failure Json := do
  require (bytes ≠ [] ∧ bytes.length ≤ 1048576 ∧ ValidUtf8 bytes) "update-json-invalid"
  match Parser.read (bytes.length + 1) 0 bytes 0 with
  | some (value, rest, _) =>
    require (Parser.space rest = []) "update-json-invalid"
    pure value
  | none => .error { code := "update-json-invalid" }

/-! ## Writing -/

/-- A hexadecimal digit. -/
def hexDigit (n : Nat) : UInt8 := if n < 10 then UInt8.ofNat (48 + n) else UInt8.ofNat (87 + n)

/-- A character in a string. -/
def escaped (c : UInt8) : Text :=
  if c = quote ∨ c = backslash then [backslash, c]
  else if c < 32 then [backslash, 117, zero, zero, hexDigit (c.toNat / 16), hexDigit (c.toNat % 16)]
  else [c]

/-- `QuoteJson`. -/
def quoteJson (text : Text) : Text := quote :: text.flatMap escaped ++ [quote]

/-- Texts with commas between them. -/
def commas : List Text → Text
  | [] => []
  | [t] => t
  | t :: ts => t ++ comma :: commas ts

/-- `std::to_string`; the number is fuel enough. -/
def decimal (n : Nat) : Text := go n n
where
  go : Nat → Nat → Text
  | 0, n => [UInt8.ofNat (48 + n)]
  | fuel + 1, n =>
    if n < 10 then [UInt8.ofNat (48 + n)] else go fuel (n / 10) ++ [UInt8.ofNat (48 + n % 10)]

end Hc.Update
