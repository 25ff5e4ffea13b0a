import HyperCommander.Storage.Types

/-!
# Resource lanes (`FileOperationPath` of `jobScheduler.cpp`)

A lane is a name that at most a few jobs may hold at a time. The lanes of files are paths in a
normal form, in which one path is above another exactly if its lane and a backslash begin the
other's lane.
-/

namespace Hc.Operations

open List Storage

/-- The key of a lane. -/
abbrev Lane := Str

def backslash : UInt8 := 92
def slash : UInt8 := 47
def colon : UInt8 := 58
def dot : UInt8 := 46

/-- `'A'..'Z'` to `'a'..'z'`, and nothing else. -/
def lowerLetter (c : UInt8) : UInt8 := if 65 ≤ c ∧ c ≤ 90 then c + 32 else c

/-- `path:`. -/
def pathPrefix : Str := [112, 97, 116, 104, 58]

/-- `\\?\unc\`. -/
def longUncPrefix : Str := [92, 92, 63, 92, 117, 110, 99, 92]

/-- `\\?\`. -/
def longPrefix : Str := [92, 92, 63, 92]

/-- `std::string::find` of a letter from a position on. -/
def findFrom (text : Str) (letter : UInt8) (start : Nat) : Option Nat :=
  ((text.drop start).findIdx? (· = letter)).map (· + start)

/-- The loop over the parts of a path. -/
def addPart (parts : List Str) (part : Str) : List Str :=
  if part = [dot, dot] then parts.dropLast
  else if part = [] ∨ part = [dot] then parts
  else parts ++ [part]

/-- The root of a path and where its parts start; none if it is neither a drive nor a share. -/
def pathRoot (path : Str) : Option (Str × Nat) :=
  if 3 ≤ path.length ∧ path.getD 1 0 = colon ∧ path.getD 2 0 = backslash then some (path.take 2, 3)
  else if [backslash, backslash].isPrefixOf path then
    match findFrom path backslash 2 with
    | none => none
    | some server =>
      if server = 2 then none
      else
        match findFrom path backslash (server + 1) with
        | none => if path.length = server + 1 then none else some (path, path.length)
        | some share => if share = server + 1 then none else some (path.take share, share + 1)
  else none

/-- `FileOperationPath`; empty if there is none. `fold` is how the platform folds the case of other
letters, none where it rejects the text. -/
def fileOperationPath (fold : Str → Option Str) (path : Str) : Str :=
  if path = [] ∨ path.length > 131072 ∨ 0 ∈ path then []
  else
    let path := (path.map fun c => if c = slash then backslash else c).map lowerLetter
    let path :=
      if longUncPrefix.isPrefixOf path then [backslash, backslash] ++ path.drop 8
      else if longPrefix.isPrefixOf path then path.drop 4
      else path
    match fold path with
    | none => []
    | some path =>
      let path := path.map lowerLetter
      if path.length = 2 ∧ path.getD 1 0 = colon then path
      else
        match pathRoot path with
        | none => []
        | some (root, start) =>
          let parts := ((path.drop start).splitOn backslash).foldl addPart []
          root ++ parts.flatMap (backslash :: ·)

/-- A lane of a path. -/
def isPathLane (lane : Lane) : Bool := pathPrefix.isPrefixOf lane

/-- The lanes above `lane`: it ends before a backslash, not before the fifth letter. -/
def parents (lane : Lane) : List Lane :=
  ((List.range lane.length).filter fun i => 5 ≤ i ∧ lane.getD i 0 = backslash).map lane.take

/-- One path is the other or above it. -/
def Overlap (a b : Lane) : Prop := a = b ∨ a ++ [backslash] <+: b ∨ b ++ [backslash] <+: a

theorem mem_parents {lane parent : Lane} (hp : isPathLane parent = true) :
    parent ∈ parents lane ↔ parent ++ [backslash] <+: lane := by
  have hfront : pathPrefix <+: parent := isPrefixOf_iff_prefix.mp hp
  have hlen : 5 ≤ parent.length := hfront.length_le
  simp only [parents, mem_map, mem_filter, mem_range, decide_eq_true_eq]
  constructor
  · rintro ⟨i, ⟨hi, -, hc⟩, rfl⟩
    rw [getD_eq_getElem?_getD, getElem?_eq_getElem hi, Option.getD_some] at hc
    refine ⟨lane.drop (i + 1), ?_⟩
    rw [append_assoc, ← hc, singleton_append, getElem_cons_drop, take_append_drop]
  · rintro ⟨t, rfl⟩
    refine ⟨parent.length, ⟨by simp, hlen, by simp⟩, by simp⟩

end Hc.Operations
