import HyperCommander.Document.Epub.Types

/-!
# The markup scanner (`commonLibs/document/epub/epubSourceLines.hpp`)

`ScanMarkup` cuts a source into text, comments, CDATA sections, tags and other constructs. The
source map reads UTF-16 units with it and the annotation of lines reads bytes; both are lists of
units here.

* `pos_of_scanFront`: every token takes at least one unit off the front, so the scan ends.
-/

namespace Hc.Document.Epub

open Unicode

/-- A text of the source. -/
def lit (s : String) : Units := s.toList.map fun c => UInt16.ofNat c.toNat

/-- `MarkupToken::Kind`. -/
inductive MarkupKind
  | text
  | cdata
  | comment
  | start
  | empty
  | end_
  | other
deriving DecidableEq, Repr

/-- `MarkupToken`. A CDATA section spans its content; every other kind spans the whole construct. -/
structure MarkupToken where
  kind : MarkupKind
  begin_ : Nat
  end_ : Nat
deriving DecidableEq, Repr

/-- `Find`: the units before the first place of a text. -/
def findText (needle : Units) : Units → Option Nat
  | [] => none
  | c :: rest => if needle <+: c :: rest then some 0 else (findText needle rest).map (· + 1)

theorem findText_le {needle source : Units} {n : Nat} (h : findText needle source = some n) :
    n + needle.length ≤ source.length := by
  induction source generalizing n with
  | nil => cases h
  | cons c rest ih =>
    rw [findText] at h
    split at h
    · rename_i hp
      cases h
      simpa using hp.length_le
    · obtain ⟨k, hk, rfl⟩ := Option.map_eq_some_iff.1 h
      have := ih hk
      simp only [List.length_cons]
      omega

/-- The units after `<` and before the `>` that ends the construct; a quote or a bracket hides
it. -/
def tagEnd : (brackets : Int) → (quote : UInt16) → Units → Option Nat
  | _, _, [] => none
  | brackets, quote, c :: rest =>
    if quote ≠ 0 then (tagEnd brackets (if c = quote then 0 else quote) rest).map (· + 1)
    else if c = 0x22 ∨ c = 0x27 then (tagEnd brackets c rest).map (· + 1)
    else if c = 0x5b then (tagEnd (brackets + 1) 0 rest).map (· + 1)
    else if c = 0x5d then (tagEnd (brackets - 1) 0 rest).map (· + 1)
    else if c = 0x3e ∧ brackets = 0 then some 0
    else (tagEnd brackets 0 rest).map (· + 1)

/-- The kind of a construct with some units between `<` and `>`. -/
def kindOf (content : Units) : MarkupKind :=
  if content.head? = some 0x2f then .end_
  else if content.head? = some 0x21 ∨ content.head? = some 0x3f then .other
  else if content.getLast? = some 0x2f then .empty
  else .start

/-- The construct at the front of a source that begins with `<`: its token relative to it, and its
length. -/
def scanConstruct (source : Units) : Option (MarkupToken × Nat) :=
  if lit "<!--" <+: source then
    (findText (lit "-->") (source.drop 4)).map fun n => (⟨.comment, 0, n + 7⟩, n + 7)
  else if lit "<![CDATA[" <+: source then
    (findText (lit "]]>") (source.drop 9)).map fun n => (⟨.cdata, 9, n + 9⟩, n + 12)
  else
    (tagEnd 0 0 source.tail).map fun n => (⟨kindOf (source.tail.take n), 0, n + 2⟩, n + 2)

/-- The token at the front of a source and its length. -/
def scanFront (source : Units) : Option (MarkupToken × Nat) :=
  if source.head? = some 0x3c then scanConstruct source
  else
    let n := (source.takeWhile (· ≠ 0x3c)).length
    some (⟨.text, 0, n⟩, n)

/-- A token further on. -/
def MarkupToken.shift (pos : Nat) (t : MarkupToken) : MarkupToken :=
  { t with begin_ := pos + t.begin_, end_ := pos + t.end_ }

theorem pos_of_scanFront {c : UInt16} {rest : Units} {t : MarkupToken} {n : Nat}
    (h : scanFront (c :: rest) = some (t, n)) : 0 < n := by
  unfold scanFront scanConstruct at h
  split at h
  · split at h
    · obtain ⟨k, _, hk⟩ := Option.map_eq_some_iff.1 h
      cases hk
      omega
    · split at h
      all_goals
        obtain ⟨k, _, hk⟩ := Option.map_eq_some_iff.1 h
        cases hk
        omega
  · rename_i hc
    cases h
    rw [List.takeWhile_cons_of_pos (by simpa using hc)]
    simp

/-- `ScanMarkup` from a position on: the tokens it hands to its visitor, or `none` where a construct
is not terminated. -/
def scanFrom (pos : Nat) (source : Units) : Option (List MarkupToken) :=
  if _hs : source = [] then some []
  else
    match _hf : scanFront source with
    | none => none
    | some (t, n) => (scanFrom (pos + n) (source.drop n)).map (t.shift pos :: ·)
termination_by source.length
decreasing_by
  obtain ⟨c, rest, rfl⟩ := List.exists_cons_of_ne_nil _hs
  have := pos_of_scanFront _hf
  simp only [List.length_drop, List.length_cons]
  omega

/-- `ScanMarkup`. -/
def scanMarkup (source : Units) : Option (List MarkupToken) := scanFrom 0 source

theorem scanFrom_nil (pos : Nat) : scanFrom pos [] = some [] := by
  rw [scanFrom, dif_pos rfl]

theorem scanFrom_eq {pos : Nat} {source : Units} (hs : source ≠ []) :
    scanFrom pos source = (scanFront source).bind fun front =>
      (scanFrom (pos + front.2) (source.drop front.2)).map (front.1.shift pos :: ·) := by
  rw [scanFrom, dif_neg hs]
  split
  · rename_i hf
    rw [hf]
    rfl
  · rename_i t n hf
    rw [hf]
    rfl

example : scanMarkup (lit "<a>b</a>") =
    some [⟨.start, 0, 3⟩, ⟨.text, 3, 4⟩, ⟨.end_, 4, 8⟩] := by decide +kernel

end Hc.Document.Epub
