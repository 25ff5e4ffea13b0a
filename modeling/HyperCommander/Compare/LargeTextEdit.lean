import HyperCommander.Compare.LargeTextCodec
import HyperCommander.Compare.LargeTextLemmas
import HyperCommander.Document.TextRoundTrip
import HyperCommander.Lib.Utf8

/-!
# Editing large texts (`HyperCompare/runtime/largeText.cpp`)

A revision shares the backing files with the one it was made of. `Whole` is what a document is
between two operations; its pieces are never looked at as a text, so nothing but the checks on the
way keeps a character in one piece.

* `replace_replaced`, `Replaced.whole`: a replaced range, with its text.
* `Whole.step`: an operation leaves the documents before it as they are and adds a whole one.
* `large_text_algebra`: the text of a replacement, and every document of a run.
-/

namespace Hc.Compare

open List Slice Pieces Unicode
open Document.TextCodec (latin1 ofUtf8)

/-! ## Editing -/

/-- A backing file that is written. -/
def writeStore (disk : Disk) (store : Nat) (bytes : Bytes) : Disk :=
  Function.update disk store bytes

/-- `EditLargeText`, where `store` is the new backing file; the text is returned with the disk. -/
def editLargeText (limits : Budget) (p : CodePages) (disk : Disk) (store : Nat)
    (target : LargeTextDocument) (begin_ end_ : Nat) (utf8 : Bytes) :
    Run (LargeTextDocument × Disk) := do
  limits.check
  throwIf (utf8.length > largeTextPageMaximum) "LargeTextPageLimit"
  let _ ← decode p utf8 (latin1 "UTF-8")
  let file ← appendFile [] utf8
  let disk := writeStore disk store file
  let replacement : LargeTextDocument := ⟨[⟨store, 0, utf8.length⟩], utf8.length⟩
  let result ← replaceLargeText limits disk target begin_ end_ replacement 0 replacement.bytes
  pure (result, disk)

/-- The loop of `project` that looks for the character with as many others before it. -/
def projectFrom (limit : Nat) : Bytes → (offset remaining : Nat) → Nat
  | [], _, _ => limit
  | byte :: rest, offset, remaining =>
    if isContinuation byte then projectFrom limit rest (offset + 1) remaining
    else if remaining = 0 then offset
    else projectFrom limit rest (offset + 1) (remaining - 1)

/-- The end of a line without the terminator byte in front of it. -/
def dropByte (limits : Budget) (disk : Disk) (document : LargeTextDocument) (line limit : Nat)
    (terminator : UInt8) : Run Nat :=
  if line < limit then do
    let bytes ← readLargeTextRange limits disk document (limit - 1) limit
    pure (if bytes.head? = some terminator then limit - 1 else limit)
  else pure limit

/-- The lines of a change on one side, and the line table of that side. -/
structure ChangeSide where
  document : LargeTextDocument
  lines : List Nat
  first : Nat
  last : Nat

/-- `from[row]` and `to[row]`. -/
def ChangeSide.line (side : ChangeSide) (row : Nat) : Nat := side.lines.getD row 0

/-- `project`: the position in the target that belongs to one in the source. -/
def project (limits : Budget) (disk : Disk) (source target : ChangeSide)
    (position : Nat) : Run Nat :=
  if position = source.line source.last then pure (target.line target.last)
  else do
    let row := (source.lines.takeWhile (· ≤ position)).length - 1
    let targetRow := target.first + row - source.first
    if targetRow ≥ target.last then pure (target.line target.last)
    else do
      let before ← visit limits disk source.document (source.line row) position
      let characters := before.countP fun byte => !isContinuation byte
      let limit ← dropByte limits disk target.document (target.line targetRow)
        (target.line (targetRow + 1)) lf
      let limit ← dropByte limits disk target.document (target.line targetRow) limit cr
      let line ← visit limits disk target.document (target.line targetRow) limit
      pure (projectFrom limit line (target.line targetRow) characters)

/-- `MergeLargeTextChange` of a comparison of the documents `left` and `right`. -/
def mergeLargeTextChange (limits : Budget) (disk : Disk) (left right : LargeTextDocument)
    (comparison : LargeTextComparison) (source : Int) (change : Nat)
    (selection : Option (Nat × Nat)) :
    Run LargeTextDocument := do
  limits.check
  match comparison.changes[change]? with
  | none => throw ⟨"LargeTextChangeInvalid"⟩
  | some edit => do
    throwIf (source < 0 ∨ source > 1) "LargeTextChangeInvalid"
    let a : ChangeSide := ⟨left, comparison.left, edit.begin_, edit.end_⟩
    let b : ChangeSide := ⟨right, comparison.right, edit.otherBegin, edit.otherEnd⟩
    let src := if source = 1 then b else a
    let dst := if source = 1 then a else b
    let begin_ := src.line src.first
    let end_ := src.line src.last
    match selection with
    | none =>
      replaceLargeText limits disk dst.document (dst.line dst.first)
        (dst.line dst.last) src.document
        begin_ end_
    | some (low, high) => do
      let begin_ := max begin_ low
      let end_ := min end_ high
      throwIf (begin_ ≥ end_) "LargeTextSelectionOutsideChange"
      let targetBegin ← project limits disk src dst begin_
      let targetEnd ← project limits disk src dst end_
      replaceLargeText limits disk dst.document targetBegin targetEnd src.document begin_ end_

/-! ## Whole documents -/

/-- The text of a document. -/
def textOf (disk : Disk) (document : LargeTextDocument) : Bytes := content disk document.pieces

/-- The pieces lie in their files, and the size is theirs. -/
structure Sound (disk : Disk) (document : LargeTextDocument) : Prop where
  fits : ∀ q ∈ document.pieces, q.Fits disk
  bytes : document.bytes = size document.pieces

/-- A sound document without an empty piece, whose text is UTF-8. -/
structure Whole (disk : Disk) (document : LargeTextDocument) : Prop
    extends Sound disk document where
  nonempty : ∀ q ∈ document.pieces, 0 < q.bytes
  valid : Utf8.Valid (textOf disk document)

section Whole

variable {limits : Budget} {p : CodePages} {disk : Disk} {d out target source : LargeTextDocument}
  {t : Bytes} {a b c f : Nat}

theorem Sound.holds (h : Sound disk d) : Holds disk d (textOf disk d) where
  fits := h.fits
  bytes := h.bytes.trans (length_content h.fits).symm
  content := rfl

theorem Holds.sound (h : Holds disk d t) : Sound disk d where
  fits := h.fits
  bytes := by rw [h.bytes, ← h.content, length_content h.fits]

/-- A boundary that is accepted lies between two characters. -/
theorem checkBoundary_yields (h : Holds disk d t) :
    Yields (fun _ => True) (checkBoundary limits disk d a) fun _ => Utf8.Boundary t a := by
  refine .ite (fun hlt => ?_) fun hge => .pure fun byte hb => ?_
  · refine (readLargeTextRange_yields h).bind fun byte hb => ?_
    refine (throwIf_yields fun _ => trivial).weaken fun _ hc => ?_
    rw [h.bytes] at hlt
    rw [hb, slice_cons (Nat.lt_succ_self a) (getElem?_eq_getElem hlt)] at hc
    intro x hx
    rw [getElem?_eq_getElem hlt] at hx
    obtain rfl := Option.some.inj hx
    exact Bool.eq_false_iff.mpr hc
  · rw [h.bytes] at hge
    have := (List.getElem?_eq_some_iff.mp hb).1
    omega

/-- The pieces of a replacement, and where the texts were cut. -/
theorem replaceLargeText_cuts (hT : Sound disk target) (hS : Sound disk source) :
    Yields (fun _ => True) (replaceLargeText limits disk target a b source c f) fun out =>
      (c ≤ f ∧ f ≤ (textOf disk source).length) ∧
        (∀ q ∈ out.pieces, 0 < q.bytes ∧ ∃ r ∈ target.pieces ++ source.pieces,
          r.backing = q.backing) ∧
        (Utf8.Boundary (textOf disk target) a ∧ Utf8.Boundary (textOf disk target) b) ∧
        Utf8.Boundary (textOf disk source) c ∧ Utf8.Boundary (textOf disk source) f := by
  refine check_any.skip fun _ => throwIf_past fun hr => ?_
  refine (checkBoundary_yields hT.holds).bind fun _ ha => ?_
  refine (checkBoundary_yields hT.holds).bind fun _ hb => ?_
  refine (checkBoundary_yields hS.holds).bind fun _ hc => ?_
  refine (checkBoundary_yields hS.holds).bind fun _ hf => ?_
  refine throwIf_past fun _ => ?_
  refine throwIf_past fun _ => .pure ⟨?_, ?_, ⟨ha, hb⟩, hc, hf⟩
  · rw [← hS.holds.bytes]
    omega
  · intro q hq
    have hback : ∀ {ps : List LargeTextPiece} {x y}, q ∈ cut x y 0 ps →
      ps ⊆ target.pieces ++ source.pieces →
        0 < q.bytes ∧ ∃ r ∈ target.pieces ++ source.pieces, r.backing = q.backing := by
      intro ps x y hq hsub
      obtain ⟨r, hr, hrq⟩ := exists_of_mem_cut hq
      exact ⟨pos_of_mem_cut hq, r, hsub hr, hrq⟩
    rcases mem_append.mp hq with hq | hq
    · rcases mem_append.mp hq with hq | hq
      · exact hback hq (subset_append_left _ _)
      · exact hback hq (subset_append_right _ _)
    · exact hback hq (subset_append_left _ _)

/-- What a replacement does to the text and its pieces. -/
structure Replaced (disk : Disk) (target : LargeTextDocument) (a b : Nat)
    (source : LargeTextDocument) (c f : Nat) (out : LargeTextDocument) : Prop where
  text : textOf disk out =
    (textOf disk target).take a ++ slice (textOf disk source) c f ++ (textOf disk target).drop b
  sound : Sound disk out
  nonempty : ∀ q ∈ out.pieces, 0 < q.bytes
  backing : ∀ q ∈ out.pieces, ∃ r ∈ target.pieces ++ source.pieces, r.backing = q.backing
  valid : Utf8.Valid (textOf disk target) → Utf8.Valid (textOf disk source) →
    Utf8.Valid (textOf disk out)

theorem replace_replaced (hT : Sound disk target) (hS : Sound disk source)
    (h : Returns (replaceLargeText limits disk target a b source c f) out) :
    Replaced disk target a b source c f out := by
  obtain ⟨hout, hab, hbt⟩ := (replaceLargeText_yields hT.holds hS.holds).of_returns h
  obtain ⟨⟨hcf, hfs⟩, hne, ⟨ha, hb⟩, hc, hf⟩ := (replaceLargeText_cuts hT hS).of_returns h
  have htext : textOf disk out =
      (textOf disk target).take a ++ slice (textOf disk source) c f ++
        (textOf disk target).drop b := by
    rw [textOf, hout.content, splice, Nat.add_sub_cancel' hab]
  refine ⟨htext, hout.sound, fun q hq => (hne q hq).1, fun q hq => (hne q hq).2, fun hvT hvS => ?_⟩
  rw [htext]
  exact ((hvT.cut (hab.trans hbt) ha).1.append (hvS.slice hcf hfs hc hf)).append (hvT.cut hbt hb).2

theorem Replaced.whole (h : Replaced disk target a b source c f out)
    (hT : Utf8.Valid (textOf disk target)) (hS : Utf8.Valid (textOf disk source)) :
    Whole disk out where
  toSound := h.sound
  nonempty := h.nonempty
  valid := h.valid hT hS

/-! ## New files -/

variable {bytes utf8 : Bytes} {store : Nat} {encoding : Units}

theorem valid_of_ofUtf8 (h : ofUtf8 bytes ≠ none) : Utf8.Valid bytes := by
  obtain ⟨q, hq⟩ := Option.ne_none_iff_exists'.mp h
  exact ⟨scalars q, Document.TextCodec.ofUtf8_spec hq⟩

theorem decode_valid :
    Yields (fun _ => True) (decode p bytes (latin1 "UTF-8")) fun _ => Utf8.Valid bytes :=
  throwIf_past fun h => .past fun _ => .past fun _ =>
    .past fun _ => Yields.pure (valid_of_ofUtf8 fun hn => h ⟨rfl, hn⟩)

theorem appendFile_yields {file : Bytes} :
    Yields (fun _ => True) (appendFile file bytes) fun out =>
      out = file ++ bytes ∧ out.length ≤ largeTextMaximum := by
  refine throwIf_past fun h => .pure ⟨rfl, ?_⟩
  rw [length_append]
  exact Nat.le_of_not_lt h

/-- A document keeps its text when a file is written that is none of its own. -/
theorem writeStore_backing {q : LargeTextPiece} (h : q.backing ≠ store) :
    writeStore disk store bytes q.backing = disk q.backing := Function.update_of_ne h _ _

theorem textOf_writeStore {store : Nat} {bytes : Bytes} (h : ∀ q ∈ d.pieces, q.backing ≠ store) :
    textOf (writeStore disk store bytes) d = textOf disk d := by
  refine flatMap_congr fun q hq => ?_
  rw [Piece.text, Piece.text, writeStore_backing (h q hq)]

theorem Sound.writeStore (hd : Sound disk d)
    (h : ∀ q ∈ d.pieces, q.backing ≠ store) : Sound (writeStore disk store bytes) d where
  fits q hq := by
    rw [Piece.Fits, writeStore_backing (h q hq)]
    exact hd.fits q hq
  bytes := hd.bytes

theorem Whole.writeStore (hd : Whole disk d)
    (h : ∀ q ∈ d.pieces, q.backing ≠ store) : Whole (writeStore disk store bytes) d where
  toSound := hd.toSound.writeStore h
  nonempty := hd.nonempty
  valid := by
    rw [textOf_writeStore h]
    exact hd.valid

/-- A document of all of a file. -/
theorem holds_store (store : Nat) (bytes : Bytes) :
    Holds (Compare.writeStore disk store bytes)
      ⟨[⟨store, 0, bytes.length⟩], bytes.length⟩ bytes where
  fits q hq := by
    rw [mem_singleton.mp hq, Piece.Fits, Compare.writeStore, Function.update_self, Nat.zero_add]
  bytes := rfl
  content := by
    rw [content_cons, Piece.text, Compare.writeStore, Function.update_self,
      Nat.zero_add, slice_full]
    exact append_nil _

theorem editLargeText_yields :
    Yields (fun _ => True) (editLargeText limits p disk store target a b utf8) fun out =>
      Utf8.Valid utf8 ∧ out.2 = writeStore disk store utf8 ∧
        Returns (replaceLargeText limits out.2 target a b ⟨[⟨store, 0, utf8.length⟩], utf8.length⟩ 0
          utf8.length) out.1 := by
  refine check_any.skip fun _ => throwIf_past fun _ => ?_
  refine decode_valid.bind fun _ hv => appendFile_yields.bind fun file hf => ?_
  obtain rfl := hf.1
  exact (Yields.returns _).bind fun out ho => Yields.pure ⟨hv, rfl, ho⟩

/-- An edit puts the bytes where the range was. -/
theorem edit_replaced {disk' : Disk} (hT : Sound disk target)
    (hfresh : ∀ q ∈ target.pieces, q.backing ≠ store)
    (h : Returns (editLargeText limits p disk store target a b utf8) (out, disk')) :
    disk' = writeStore disk store utf8 ∧
      textOf disk' out = (textOf disk target).take a ++ utf8 ++ (textOf disk target).drop b ∧
      (∀ q ∈ out.pieces, (∃ r ∈ target.pieces, r.backing = q.backing) ∨ q.backing = store) ∧
      (Utf8.Valid (textOf disk target) → Whole disk' out) := by
  obtain ⟨hv, hd, hr⟩ := editLargeText_yields.of_returns h
  subst hd
  have hs := @holds_store disk store utf8
  have hrep := replace_replaced (hT.writeStore hfresh) hs.sound hr
  have hsame := @textOf_writeStore disk target store utf8 hfresh
  refine ⟨rfl, ?_, fun q hq => ?_, fun hvT => hrep.whole (hsame ▸ hvT) ?_⟩
  · rw [hrep.text, hsame, textOf, textOf, hs.content, slice_full]
  · obtain ⟨r, hr, hrq⟩ := hrep.backing q hq
    rcases mem_append.mp hr with hr | hr
    · exact .inl ⟨r, hr, hrq⟩
    · rw [mem_singleton.mp hr] at hrq
      exact .inr hrq.symm
  · rw [textOf, hs.content]
    exact hv

/-- A change is merged by one replacement. -/
theorem mergeLargeTextChange_yields {left right : LargeTextDocument}
    {comparison : LargeTextComparison} {side : Int} {change : Nat}
    {selection : Option (Nat × Nat)} :
    Yields (fun _ => True)
      (mergeLargeTextChange limits disk left right comparison side change selection) fun out =>
      ∃ x y z w, (side = 1 ∧ Returns (replaceLargeText limits disk left x y right z w) out) ∨
        (side ≠ 1 ∧ Returns (replaceLargeText limits disk right x y left z w) out) := by
  refine check_any.skip fun _ => ?_
  cases comparison.changes[change]? with
  | none => exact .fail trivial
  | some edit =>
    refine throwIf_past fun _ => ?_
    by_cases h : side = 1
    · simp only [if_pos h]
      cases selection with
      | none => exact (Yields.returns _).weaken fun out ho => ⟨_, _, _, _, .inl ⟨h, ho⟩⟩
      | some sel =>
        refine throwIf_past fun _ => .past fun _ =>
          .past fun _ => ?_
        exact (Yields.returns _).weaken fun out ho => ⟨_, _, _, _, .inl ⟨h, ho⟩⟩
    · simp only [if_neg h]
      cases selection with
      | none => exact (Yields.returns _).weaken fun out ho => ⟨_, _, _, _, .inr ⟨h, ho⟩⟩
      | some sel =>
        refine throwIf_past fun _ => .past fun _ =>
          .past fun _ => ?_
        exact (Yields.returns _).weaken fun out ho => ⟨_, _, _, _, .inr ⟨h, ho⟩⟩

/-- Every decoded chunk is UTF-8 in the file. -/
theorem readMore_valid {eof : Bool} {s : Reading} (hs : Utf8.Valid s.file) :
    Yields (fun _ => True) (readMore p eof s) fun s' => Utf8.Valid s'.file := by
  refine .past fun text => appendFile_yields.bind fun file hf => Yields.pure ?_
  obtain rfl := hf.1
  exact hs.append ⟨scalars text, rfl⟩

theorem readFirst_valid {s : Reading} (hs : Utf8.Valid s.file) :
    Yields (fun _ => True) (readFirst encoding s) fun s' => Utf8.Valid s'.file := by
  exact throwIf_past fun _ => .pure hs

theorem readChunk_valid {chunk : Bytes} {eof : Bool} {s : Reading} (hs : Utf8.Valid s.file) :
    Yields (fun _ => True) (readChunk p encoding chunk eof s) fun s' => Utf8.Valid s'.file := by
  refine throwIf_past fun _ => throwIf_past
    fun _ => ?_
  have hfirst : Yields (fun _ => True)
      (if s.first = true ∧ (4 ≤ (s.pending ++ chunk).length ∨ eof = true) then
        readFirst encoding
          { s with readBytes := s.readBytes + chunk.length, pending := s.pending ++ chunk }
      else pure { s with readBytes := s.readBytes + chunk.length, pending := s.pending ++ chunk })
      fun s' => Utf8.Valid s'.file :=
    .ite (fun _ => readFirst_valid hs) fun _ => .pure hs
  refine hfirst.bind fun s' hs' => ?_
  exact .ite (fun _ => .pure hs') fun _ => readMore_valid hs'

theorem readStream_valid {last : Except Storage.Error Bytes} {chunks : List Bytes}
    {s : Reading} (hs : Utf8.Valid s.file) :
    Yields (fun _ => True) (readStream limits p encoding last chunks s) fun s' =>
      Utf8.Valid s'.file := by
  induction chunks generalizing s with
  | nil => exact check_any.skip fun _ => .past fun chunk => readChunk_valid hs
  | cons chunk rest ih =>
    exact check_any.skip fun _ => (readChunk_valid hs).bind fun s' hs' => ih hs'

/-- A document that is read has one piece, all of its file, or none. -/
theorem readLargeText_yields {allowMissing : Bool}
    {inspect : Except Storage.Error (Option SourceFile)}
    {resolve : Except Storage.Error SourceFile} :
    Yields (fun _ => True) (readLargeText limits p store encoding allowMissing inspect resolve)
      fun loaded => Utf8.Valid loaded.file ∧ loaded.document =
        ⟨if loaded.file = [] then [] else [⟨store, 0, loaded.file.length⟩],
          loaded.file.length⟩ := by
  refine check_any.skip fun _ => .past fun entry => ?_
  cases entry with
  | none => exact .pure ⟨.nil, rfl⟩
  | some entry =>
    refine throwIf_past fun _ => throwIf_past
      fun _ => .past fun _ => ?_
    refine (readStream_valid .nil).bind fun s hs => ?_
    exact throwIf_past fun _ => .pure ⟨hs, rfl⟩

variable (disk) in
/-- What is read makes a whole document over the new file. -/
theorem read_whole {store : Nat} {encoding : Units} {allowMissing : Bool}
    {inspect : Except Storage.Error (Option SourceFile)} {resolve : Except Storage.Error SourceFile}
    {loaded : LoadedText}
    (h : Returns (readLargeText limits p store encoding allowMissing inspect resolve) loaded) :
    Whole (writeStore disk store loaded.file) loaded.document ∧
      textOf (writeStore disk store loaded.file) loaded.document = loaded.file ∧
      ∀ q ∈ loaded.document.pieces, q.backing = store := by
  obtain ⟨hv, hd⟩ := readLargeText_yields.of_returns h
  rw [hd]
  by_cases hf : loaded.file = []
  · rw [hf, if_pos rfl]
    exact ⟨⟨⟨(fun q hq => by cases hq), rfl⟩, (fun q hq => by cases hq), .nil⟩, rfl,
      fun q hq => by cases hq⟩
  · rw [if_neg hf]
    have hs := @holds_store disk store loaded.file
    refine ⟨⟨hs.sound, fun q hq => ?_, ?_⟩, hs.content, fun q hq => ?_⟩
    · rw [mem_singleton.mp hq]
      exact length_pos_iff.mpr hf
    · rw [textOf, hs.content]
      exact hv
    · rw [mem_singleton.mp hq]

end Whole

/-! ## Runs -/

/-- The documents of a session and their backing files, numbered below `next`. -/
structure LargeTextStore where
  disk : Disk
  next : Nat
  documents : List LargeTextDocument

/-- One operation; the documents that are there stay. -/
inductive Step (p : CodePages) (lib : Library) : LargeTextStore → LargeTextStore → Prop
  /-- `ReadLargeText`. -/
  | read {s limits encoding allowMissing inspect resolve loaded} :
    Returns (readLargeText limits p s.next encoding allowMissing inspect resolve) loaded →
    Step p lib s ⟨writeStore s.disk s.next loaded.file, s.next + 1, loaded.document :: s.documents⟩
  /-- `ReplaceLargeText`. -/
  | replace {s limits target source a b c f out} : target ∈ s.documents → source ∈ s.documents →
    Returns (replaceLargeText limits s.disk target a b source c f) out →
    Step p lib s { s with documents := out :: s.documents }
  /-- `EditLargeText`. -/
  | edit {s limits target a b utf8 out} : target ∈ s.documents →
    Returns (editLargeText limits p s.disk s.next target a b utf8) out →
    Step p lib s ⟨out.2, s.next + 1, out.1 :: s.documents⟩
  /-- `CompareLargeText` and `MergeLargeTextChange`. -/
  | merge {s limits limits' left right comparison source change selection out} :
    left ∈ s.documents → right ∈ s.documents →
    Returns (compareLargeText limits lib s.disk left right) comparison →
    Returns (mergeLargeTextChange limits' s.disk left right comparison source change
      selection) out →
    Step p lib s { s with documents := out :: s.documents }

/-- Every document is whole, and over files that were made. -/
def LargeTextStore.Whole (s : LargeTextStore) : Prop :=
  ∀ d ∈ s.documents, Compare.Whole s.disk d ∧ ∀ q ∈ d.pieces, q.backing < s.next

/-- The documents of `s` are still there, with the same text. -/
def LargeTextStore.Kept (s s' : LargeTextStore) : Prop :=
  ∀ d ∈ s.documents, d ∈ s'.documents ∧ textOf s'.disk d = textOf s.disk d

namespace LargeTextStore

variable {p : CodePages} {lib : Library} {s s' s'' : LargeTextStore} {out : LargeTextDocument}

theorem Kept.refl (s : LargeTextStore) : s.Kept s := fun _ hd => ⟨hd, rfl⟩

theorem Kept.trans (h : s.Kept s') (h' : s'.Kept s'') : s.Kept s'' := by
  intro d hd
  obtain ⟨hd', ht⟩ := h d hd
  obtain ⟨hd'', ht'⟩ := h' d hd'
  exact ⟨hd'', ht'.trans ht⟩

/-- A document over the files that are there. -/
theorem Whole.add (h : s.Whole) (hout : Compare.Whole s.disk out)
    (hb : ∀ q ∈ out.pieces, q.backing < s.next) :
    Whole { s with documents := out :: s.documents } ∧
      s.Kept { s with documents := out :: s.documents } := by
  refine ⟨fun d hd => ?_, fun d hd => ⟨mem_cons_of_mem _ hd, rfl⟩⟩
  rcases mem_cons.mp hd with rfl | hd
  · exact ⟨hout, hb⟩
  · exact h d hd

/-- A document over the files that are there and a new one. -/
theorem Whole.grow {bytes : Bytes} (h : s.Whole)
    (hout : Compare.Whole (writeStore s.disk s.next bytes) out)
    (hb : ∀ q ∈ out.pieces, q.backing < s.next + 1) :
    Whole ⟨writeStore s.disk s.next bytes, s.next + 1, out :: s.documents⟩ ∧
      s.Kept ⟨writeStore s.disk s.next bytes, s.next + 1, out :: s.documents⟩ := by
  have hne : ∀ d ∈ s.documents, ∀ q ∈ d.pieces, q.backing ≠ s.next := by
    intro d hd q hq
    exact Nat.ne_of_lt ((h d hd).2 q hq)
  refine ⟨fun d hd => ?_, fun d hd => ⟨mem_cons_of_mem _ hd, textOf_writeStore (hne d hd)⟩⟩
  rcases mem_cons.mp hd with rfl | hd
  · exact ⟨hout, hb⟩
  · exact ⟨(h d hd).1.writeStore (hne d hd), fun q hq => Nat.lt_succ_of_lt ((h d hd).2 q hq)⟩

/-- The replaced range lies over the files of both documents. -/
theorem Whole.replaced (h : s.Whole) {target source : LargeTextDocument} {a b c f : Nat}
    (hT : target ∈ s.documents) (hS : source ∈ s.documents)
    (hrep : Replaced s.disk target a b source c f out) :
    Whole { s with documents := out :: s.documents } ∧
      s.Kept { s with documents := out :: s.documents } := by
  refine h.add (hrep.whole (h _ hT).1.valid (h _ hS).1.valid) fun q hq => ?_
  obtain ⟨r, hr, hrq⟩ := hrep.backing q hq
  rw [← hrq]
  rcases mem_append.mp hr with hr | hr
  · exact (h _ hT).2 r hr
  · exact (h _ hS).2 r hr

/-- An operation adds a whole document and leaves the others. -/
theorem Whole.step (h : s.Whole) (hstep : Step p lib s s') : s'.Whole ∧ s.Kept s' := by
  cases hstep with
  | read hr =>
    obtain ⟨hw, -, hb⟩ := read_whole s.disk hr
    exact h.grow hw fun q hq => by rw [hb q hq]; exact Nat.lt_succ_self _
  | replace hT hS hr =>
    exact h.replaced hT hS (replace_replaced (h _ hT).1.toSound (h _ hS).1.toSound hr)
  | @edit _ _ _ _ _ out hT he =>
    obtain ⟨out, disk⟩ := out
    obtain ⟨hdisk, -, hb, hw⟩ := edit_replaced (h _ hT).1.toSound
      (fun q hq => Nat.ne_of_lt ((h _ hT).2 q hq)) he
    subst hdisk
    refine h.grow (hw (h _ hT).1.valid) fun q hq => ?_
    rcases hb q hq with ⟨r, hr, hrq⟩ | hq
    · rw [← hrq]
      exact Nat.lt_succ_of_lt ((h _ hT).2 r hr)
    · rw [hq]
      exact Nat.lt_succ_self _
  | merge hl hr _ hm =>
    obtain ⟨x, y, z, w, ⟨-, hout⟩ | ⟨-, hout⟩⟩ := mergeLargeTextChange_yields.of_returns hm
    · exact h.replaced hl hr (replace_replaced (h _ hl).1.toSound (h _ hr).1.toSound hout)
    · exact h.replaced hr hl (replace_replaced (h _ hr).1.toSound (h _ hl).1.toSound hout)

theorem Whole.run (h : s.Whole) (hrun : Relation.ReflTransGen (Step p lib) s s') :
    s'.Whole ∧ s.Kept s' := by
  induction hrun with
  | refl => exact ⟨h, .refl s⟩
  | tail _ hstep ih =>
    obtain ⟨hw, hk⟩ := ih.1.step hstep
    exact ⟨hw, ih.2.trans hk⟩

end LargeTextStore

/-- A replacement puts the range of one text in the place of the range of the other; every document
of a run has its bytes in files, no empty piece and a text in UTF-8, and keeps the text. -/
theorem large_text_algebra (p : CodePages) (lib : Library) :
    (∀ (limits : Budget) (disk : Disk) (target source out : LargeTextDocument) (a b c f : Nat),
      Sound disk target → Sound disk source →
      Returns (replaceLargeText limits disk target a b source c f) out →
        textOf disk out =
          (textOf disk target).take a ++ slice (textOf disk source) c f ++
            (textOf disk target).drop b ∧
        out.bytes = (out.pieces.map Piece.bytes).sum ∧
        (∀ q ∈ out.pieces, 0 < q.bytes ∧ q.begin_ + q.bytes ≤ (disk q.backing).length) ∧
        (Utf8.Valid (textOf disk target) → Utf8.Valid (textOf disk source) →
          Utf8.Valid (textOf disk out))) ∧
    ∀ s s' : LargeTextStore, s.Whole → Relation.ReflTransGen (Step p lib) s s' →
      s.Kept s' ∧ ∀ d ∈ s'.documents, d.bytes = (d.pieces.map Piece.bytes).sum ∧
        (∀ q ∈ d.pieces, 0 < q.bytes ∧ q.begin_ + q.bytes ≤ (s'.disk q.backing).length) ∧
        Utf8.Valid (textOf s'.disk d) := by
  constructor
  · intro limits disk target source out a b c f hT hS hr
    have h := replace_replaced hT hS hr
    exact ⟨h.text, h.sound.bytes, fun q hq => ⟨h.nonempty q hq, h.sound.fits q hq⟩, h.valid⟩
  · intro s s' hs hrun
    obtain ⟨hw, hk⟩ := hs.run hrun
    refine ⟨hk, fun d hd => ?_⟩
    obtain ⟨h, -⟩ := hw d hd
    exact ⟨h.bytes, fun q hq => ⟨h.nonempty q hq, h.fits q hq⟩, h.valid⟩

/-- A session that holds `héllo` and, in two pieces, `' é'`. -/
def helloStore : LargeTextStore where
  disk store :=
    if store = 0 then [0x68, 0xc3, 0xa9, 0x6c, 0x6c, 0x6f] else if store = 1 then [0x20, 0xc3, 0xa9]
    else []
  next := 2
  documents := [⟨[⟨0, 0, 6⟩], 6⟩, ⟨[⟨1, 0, 1⟩, ⟨1, 1, 2⟩], 3⟩]

/-- The second text behind the first two characters of the first. -/
def helloMerged : LargeTextDocument := ⟨[⟨0, 0, 3⟩, ⟨1, 0, 1⟩, ⟨1, 1, 2⟩, ⟨0, 3, 3⟩], 9⟩

theorem helloStore_whole : helloStore.Whole := by
  intro d hd
  simp only [helloStore, mem_cons, not_mem_nil, or_false] at hd
  rcases hd with rfl | rfl
  · exact ⟨⟨⟨by simp [Piece.Fits, helloStore], rfl⟩, by simp,
      ['h', 'é', 'l', 'l', 'o'], by decide +kernel⟩,
      by simp [helloStore]⟩
  · exact ⟨⟨⟨by simp [Piece.Fits, helloStore], rfl⟩, by simp, [' ', 'é'], by decide +kernel⟩,
      by simp [helloStore]⟩

theorem large_text_algebra_hello :
    textOf helloStore.disk helloMerged = [0x68, 0xc3, 0xa9, 0x20, 0xc3, 0xa9, 0x6c, 0x6c, 0x6f] ∧
      Utf8.Valid (textOf helloStore.disk helloMerged) := by
  have hT := (helloStore_whole _ mem_cons_self).1.toSound
  have hS := (helloStore_whole _ (mem_cons_of_mem _ mem_cons_self)).1.toSound
  have hr : Returns (replaceLargeText .unlimited helloStore.disk ⟨[⟨0, 0, 6⟩], 6⟩ 3 3
      ⟨[⟨1, 0, 1⟩, ⟨1, 1, 2⟩], 3⟩ 0 3) helloMerged := ⟨{}, ⟨0, 8⟩, by decide +kernel⟩
  have halg := large_text_algebra ⟨Document.TextCodec.notSignPlatform, fun _ _ => false⟩
    ⟨fun _ => 0, fun n _ => n⟩
  refine ⟨(halg.1 _ _ _ _ _ 3 3 0 3 hT hS hr).1, ?_⟩
  have hstep : Step ⟨Document.TextCodec.notSignPlatform, fun _ _ => false⟩
      ⟨fun _ => 0, fun n _ => n⟩ helloStore
      { helloStore with documents := helloMerged :: helloStore.documents } :=
    .replace mem_cons_self (mem_cons_of_mem _ mem_cons_self) hr
  exact ((halg.2 _ _ helloStore_whole (.single hstep)).2 _ mem_cons_self).2.2

end Hc.Compare
