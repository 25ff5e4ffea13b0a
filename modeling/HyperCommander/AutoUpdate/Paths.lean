import HyperCommander.AutoUpdate.Json
import HyperCommander.Lib.Unicode

/-!
# Paths of product files (`updateTrust.cpp`, `updateTransaction.cpp`)

Which relative paths an update may touch. The owned paths are those of
`tools/update/update-contract.json`.
-/

open Outcome

namespace Hc.Update

/-- `Wide`: UTF-8 to UTF-16. -/
def wide (text : Text) : Except Failure Unicode.Units :=
  match text.toByteArray.utf8Decode? with
  | some cs => .ok (cs.toList.flatMap Unicode.units)
  | none => .error { code := "update-utf8" }

/-- An ASCII text in UTF-16. -/
def wideAscii (s : String) : Unicode.Units := s.toList.map fun c => UInt16.ofNat c.toNat

/-- `std::towupper` in the `C` locale. -/
def towupper (c : UInt16) : UInt16 := if 97 ≤ c ∧ c ≤ 122 then c - 32 else c

/-- The names that stand for devices. -/
def deviceNames : List Unicode.Units :=
  ["CON", "PRN", "AUX", "NUL", "CONIN$", "CONOUT$", "CLOCK$"].map wideAscii

/-- A digit behind `COM` or `LPT`. -/
def isPort (c : UInt16) : Bool := 49 ≤ c && c ≤ 57 || c = 0xb9 || c = 0xb2 || c = 0xb3

/-- A part without its extension is the name of a device. -/
def isDevice (stem : Unicode.Units) : Bool :=
  stem ∈ deviceNames ||
    stem.length = 4 && (stem.take 3 = wideAscii "COM" || stem.take 3 = wideAscii "LPT") &&
      (stem.drop 3).all isPort

/-- The parts of a path, `depth` of them before these. -/
def checkParts : Nat → List Unicode.Units → Except Failure Unit
  | _, [] => .ok ()
  | depth, part :: parts => do
    failIf (part = [] ∨ part.length > 255 ∨ depth + 1 > 32 ∨ part = wideAscii "." ∨
      part = wideAscii ".." ∨ part.getLast? = some 46 ∨ part.getLast? = some 32 ∨
      ∃ c ∈ part, c ∈ wideAscii "<>\"|?*") { code := "update-path" }
    failIf (isDevice ((part.takeWhile (· ≠ 46)).map towupper)) { code := "update-path-device" }
    checkParts (depth + 1) parts

/-- `CheckRelative`. -/
def checkRelative (relative : Text) : Except Failure Unit := do
  failIf (relative = [] ∨ relative.length > 2048 ∨ relative.head? = some slash ∨
    backslash ∈ relative ∨ colon ∈ relative) { code := "update-path" }
  failIf (∃ c ∈ relative, c < 32 ∨ c = 127) { code := "update-path" }
  let text ← wide relative
  checkParts 0 (text.splitOn 47)

def ownedRootFiles : List Text :=
  ["HyperCommander.exe", "HyperCommanderAdmin.exe", "HyperEditor.exe", "HyperEditorWeb.exe",
    "QtWebEngineProcess.exe", "hc-plugin-host-x64.exe", "hc-plugin-inspect.exe",
    "hc-search-index.exe", "HyperCommanderUpdater.exe", "hc-updater.exe", "Everything64.dll",
    "pdfium.dll", "opengl32sw.dll", "runtime-inventory.json", "product-inventory.json",
    "HyperCompare.exe", "HyperCompareCli.exe"].map ascii

def ownedRootDllPrefixes : List Text :=
  ["Qt6", "vcruntime", "msvcp", "concrt", "d3dcompiler_"].map ascii

def ownedDirectories : List Text :=
  ["Libs/", "Licenses/", "Addons/WCX/IsoImage/", "Addons/WLX/HyperViewer/", "Third-Party/SevenZip/",
    "Third-Party/AlzEgg/"].map ascii

/-- Root files that packages carry under `rootCarrier`. -/
def carriedRootFiles : List Text := ["HyperCompare.exe", "HyperCompareCli.exe"].map ascii

/-- `layout::RootCarrier`. -/
def rootCarrier : Text := ascii "Libs/RootFiles"

def inventoryName : Text := ascii "product-inventory.json"

/-- The path is one that a client of this build owns. -/
def owned (relative : Text) : Bool :=
  if slash ∈ relative then ownedDirectories.any fun d => d.isPrefixOf relative
  else relative ∈ ownedRootFiles ||
    (ascii ".dll").isSuffixOf relative && ownedRootDllPrefixes.any fun p => p.isPrefixOf relative

/-- `CheckProductRelative`. -/
def checkProductRelative (relative : Text) : Except Failure Unit := do
  checkRelative relative
  failIf (owned relative = false) ⟨"update-unowned-path: ", relative⟩

theorem wide_of_checkRelative {relative : Text} (h : checkRelative relative = .ok ()) :
    ∃ text, wide relative = .ok text := by
  simp only [checkRelative, bind_eq_ok] at h
  obtain ⟨-, -, -, -, text, ht, -⟩ := h
  exact ⟨text, ht⟩

theorem checkRelative_of_product {relative : Text} (h : checkProductRelative relative = .ok ()) :
    checkRelative relative = .ok () := by
  simp only [checkProductRelative, bind_eq_ok] at h
  obtain ⟨_, h, -⟩ := h
  exact h

end Hc.Update
