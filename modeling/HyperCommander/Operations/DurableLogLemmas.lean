import HyperCommander.Operations.DurableLog

/-!
# A crash-safe array of outcomes

The log keeps the frames of the writes that went through, one after another, with at most the
beginning of one more behind them. Cutting the file anywhere leaves a file of that form.

* `Torn`, `Indexed`, `Log.Is`: what may be behind the frames, what the index says, and the log as
  an array.
* `scan_frames`: opening a file builds the index that the writes had built.
* `Log.Is.step`: a call on the log answers as the array does.
* `crash_safe`: over every run, with a crash at any length.
-/

namespace Hc.Operations.DurableLog

open List Storage Slice

/-! ### Rows and writes -/

section Writes

variable {ws pre : List Write} {w : Write}

theorem rowsOf_concat (ws : List Write) (w : Write) :
    rowsOf (ws ++ [w]) = place (rowsOf ws) w.row w.item := by
  rw [rowsOf, foldl_append]
  rfl

theorem total_append (ws vs : List Write) : total (ws ++ vs) = total ws + total vs := by
  rw [total, map_append, List.sum_append]
  rfl

theorem total_cons (w : Write) (ws : List Write) : total (w :: ws) = w.size + total ws := by
  rw [total, map_cons, sum_cons]
  rfl

theorem total_singleton (w : Write) : total [w] = w.size := by
  rw [total_cons]
  rfl

theorem length_le_total (ws : List Write) : headerBytes * ws.length ≤ total ws := by
  induction ws with
  | nil => exact Nat.zero_le _
  | cons w ws ih =>
    rw [total_cons, length_cons, Nat.mul_succ]
    unfold Write.size
    omega

/-- Every write has a row that is there, or the next one, and a record that is not too long. -/
def Valid (ws : List Write) : Prop :=
  ∀ pre w post, ws = pre ++ w :: post →
    w.row ≤ (rowsOf pre).length ∧ (encodeOutcome w.item).length ≤ maxRecordBytes

theorem Valid.nil : Valid [] := by
  intro pre w post h
  have := congrArg length h
  rw [length_append, length_cons] at this
  exact absurd this (by rw [length_nil]; omega)

theorem Valid.of_append {vs : List Write} (h : Valid (ws ++ vs)) : Valid ws := by
  intro pre w post he
  exact h pre w (post ++ vs) (by rw [he, append_assoc, cons_append])

theorem Valid.concat (h : Valid ws) (hrow : w.row ≤ (rowsOf ws).length)
    (hlen : (encodeOutcome w.item).length ≤ maxRecordBytes) : Valid (ws ++ [w]) := by
  intro pre v post he
  rcases eq_nil_or_concat post with rfl | ⟨post', u, rfl⟩
  · obtain ⟨rfl, hv⟩ := append_inj' he rfl
    obtain rfl : w = v := (cons.inj hv).1
    exact ⟨hrow, hlen⟩
  · rw [concat_eq_append, ← cons_append, ← append_assoc] at he
    exact h pre v post' (append_inj' he rfl).1

theorem Valid.last (h : Valid (ws ++ [w])) :
    w.row ≤ (rowsOf ws).length ∧ (encodeOutcome w.item).length ≤ maxRecordBytes :=
  h ws w [] rfl

theorem length_rowsOf_le (ws : List Write) : (rowsOf ws).length ≤ ws.length := by
  induction ws using reverseRecOn with
  | nil => exact Nat.le_refl _
  | append_singleton ws w ih =>
    rw [rowsOf_concat, length_place, length_append, length_singleton]
    split <;> omega

/-- A row has the item of the last write to it. -/
theorem getElem?_rowsOf (h : Valid ws) (i : Nat) :
    (rowsOf ws)[i]? = (ws.reverse.find? fun w => w.row = i).map Write.item := by
  induction ws using reverseRecOn with
  | nil => rfl
  | append_singleton ws w ih =>
    rw [rowsOf_concat, getElem?_place h.last.1, reverse_append, reverse_singleton,
      singleton_append, find?_cons]
    by_cases hi : w.row = i
    · rw [if_pos hi.symm]
      simp only [hi, decide_true, Option.map_some]
    · rw [if_neg (Ne.symm hi), ih h.of_append]
      simp only [hi, decide_false]

/-- The writes that are whole are the first ones, and the next one is not. -/
theorem completed_spec (length : Nat) (ws : List Write) :
    ∃ rest, ws = completed length ws ++ rest ∧ total (completed length ws) ≤ length ∧
      ∀ w ∈ rest.head?, length < total (completed length ws) + w.size := by
  induction ws generalizing length with
  | nil =>
    refine ⟨[], rfl, Nat.zero_le _, fun w hw => ?_⟩
    rw [head?_nil] at hw
    cases hw
  | cons v ws ih =>
    by_cases hv : v.size ≤ length
    · obtain ⟨rest, he, hle, hnext⟩ := ih (length - v.size)
      rw [completed, if_pos hv, total_cons]
      refine ⟨rest, by rw [cons_append, ← he], by omega, fun w hw => ?_⟩
      have := hnext w hw
      omega
    · rw [completed, if_neg hv]
      refine ⟨v :: ws, rfl, Nat.zero_le _, fun w hw => ?_⟩
      obtain rfl : v = w := Option.some.inj hw
      omega

end Writes

/-! ### Frames -/

section Frames

variable {hash : Str → Str} {ws pre : List Write} {w : Write}

/-- The frames of writes. -/
def framesOf (hash : Str → Str) (ws : List Write) : Str := ws.flatMap (frame hash)

/-- The bytes of a frame before its record. -/
def head (hash : Str → Str) (w : Write) : Str :=
  header w.row (encodeOutcome w.item).length ++
    hash (header w.row (encodeOutcome w.item).length ++ encodeOutcome w.item)

theorem frame_eq (hash : Str → Str) (w : Write) :
    frame hash w = head hash w ++ encodeOutcome w.item := by
  rw [head, append_assoc]
  rfl

theorem length_header (row length : Nat) : (header row length).length = 20 := by
  simp [header]

theorem framesOf_append (ws vs : List Write) :
    framesOf hash (ws ++ vs) = framesOf hash ws ++ framesOf hash vs := flatMap_append

theorem framesOf_cons (w : Write) (ws : List Write) :
    framesOf hash (w :: ws) = frame hash w ++ framesOf hash ws := flatMap_cons

theorem framesOf_singleton (w : Write) : framesOf hash [w] = frame hash w := flatMap_singleton _ _

theorem slice_middle (a b c : Str) {n : Nat} (h : n = b.length) :
    slice (a ++ (b ++ c)) a.length (a.length + n) = b := by
  rw [slice, drop_left, Nat.add_sub_cancel_left, h, take_left]

variable (hh : ∀ bytes, (hash bytes).length = 32)
include hh

theorem length_head (w : Write) : (head hash w).length = headerBytes := by
  rw [head, length_append, length_header, hh]
  rfl

theorem length_frame (w : Write) : (frame hash w).length = w.size := by
  rw [frame_eq, length_append, length_head hh]
  rfl

theorem length_framesOf (ws : List Write) : (framesOf hash ws).length = total ws := by
  induction ws with
  | nil => rfl
  | cons w ws ih => rw [framesOf_cons, length_append, length_frame hh, ih, total_cons]

/-- Behind some bytes, a header is read as it was written. -/
theorem readAt_head (text rest : Str) (w : Write) :
    readAt (text ++ (head hash w ++ rest)) text.length headerBytes = .ok (head hash w) := by
  have hs := slice_middle text (head hash w) rest (length_head hh w).symm
  rw [readAt, if_neg (by decide), hs, if_neg (fun h => h (length_head hh w))]

omit hh in
/-- The numbers of a header. -/
theorem slices_head (hrow : w.row < 2 ^ 64)
    (hlen : (encodeOutcome w.item).length ≤ maxRecordBytes) :
    Bytes.ofBE (slice (head hash w) 0 4) = magic ∧
      Bytes.ofBE (slice (head hash w) 4 12) = w.row ∧
      Bytes.ofBE (slice (head hash w) 12 20) = (encodeOutcome w.item).length := by
  have h4 := Bytes.length_be 4 magic
  have h8 := Bytes.length_be 8 w.row
  have hl := Bytes.length_be 8 (encodeOutcome w.item).length
  have hmax : maxRecordBytes < 256 ^ 8 := by decide
  refine ⟨?_, ?_, ?_⟩
  · rw [head, header, append_assoc, slice, drop_zero, take_left' h4]
    exact Bytes.ofBE_be_of_lt (by decide)
  · rw [head, header, append_assoc, append_assoc, slice, drop_left' h4,
      take_left' h8]
    exact Bytes.ofBE_be_of_lt (by simpa using hrow)
  · rw [head, header, append_assoc, append_assoc, slice, ← append_assoc,
      drop_left' (by rw [length_append, h4, h8]), take_left' hl]
    exact Bytes.ofBE_be_of_lt (by omega)

/-- A whole frame is accepted. -/
theorem readFrame_frame (text rest : Str) {count : Nat} (hcount : w.row ≤ count)
    (hrow : w.row < 2 ^ 64) (hlen : (encodeOutcome w.item).length ≤ maxRecordBytes) :
    readFrame hash (text ++ (frame hash w ++ rest)) count text.length =
      .ok (some (w.row, (encodeOutcome w.item).length)) := by
  obtain ⟨htag, hr, hl⟩ := @slices_head hash _ hrow hlen
  have hhead : (text ++ head hash w).length = text.length + headerBytes := by
    rw [length_append, length_head hh]
  have hfits : ¬ (encodeOutcome w.item).length >
      (text ++ (frame hash w ++ rest)).length - text.length - headerBytes := by
    rw [length_append, length_append, length_frame hh, Write.size]
    omega
  have hpayload : readAt (text ++ (frame hash w ++ rest)) (text.length + headerBytes)
      (encodeOutcome w.item).length = .ok (encodeOutcome w.item) := by
    have hs := slice_middle (text ++ head hash w) (encodeOutcome w.item) rest rfl
    rw [hhead, append_assoc, ← append_assoc (head hash w), ← frame_eq] at hs
    rw [readAt, if_neg (Nat.not_lt.2 hlen), hs, if_neg (fun h => h rfl)]
  have hread : readAt (text ++ (frame hash w ++ rest)) text.length headerBytes =
      .ok (head hash w) := by
    rw [frame_eq, append_assoc]
    exact readAt_head hh text _ w
  have hdecode : decodeOutcome (encodeOutcome w.item) = .ok w.item :=
    decodeOutcome_encodeOutcome (Nat.lt_of_le_of_lt hlen (by decide))
  have hsum : hash ((head hash w).take 20 ++ encodeOutcome w.item) =
      (head hash w).drop (headerBytes - 32) := by
    show _ = (head hash w).drop 20
    rw [head, take_left' (length_header _ _), drop_left' (length_header _ _)]
  rw [readFrame, hread]
  simp only [Outcome.ok_bind, htag, hr, hl]
  rw [if_neg (by omega), if_neg hfits, hpayload, Outcome.ok_bind, if_neg (fun h => h hsum),
    hdecode]
  rfl

/-- A frame that is not whole is the end, if its header is. -/
theorem readFrame_torn (text : Str) {count n : Nat} (hcount : w.row ≤ count)
    (hrow : w.row < 2 ^ 64) (hlen : (encodeOutcome w.item).length ≤ maxRecordBytes)
    (hge : headerBytes ≤ n) (hlt : n < w.size) :
    readFrame hash (text ++ (frame hash w).take n) count text.length = .ok none := by
  obtain ⟨htag, hr, hl⟩ := @slices_head hash _ hrow hlen
  have htake : (frame hash w).take n =
      head hash w ++ (encodeOutcome w.item).take (n - headerBytes) := by
    rw [frame_eq, take_append, length_head hh,
      take_of_length_le (by rw [length_head hh]; exact hge)]
  have hfits : (encodeOutcome w.item).length >
      (text ++ (frame hash w).take n).length - text.length - headerBytes := by
    rw [length_append, length_take, length_frame hh]
    unfold Write.size at *
    omega
  rw [readFrame]
  rw [htake] at hfits ⊢
  rw [readAt_head hh]
  simp only [Outcome.ok_bind, htag, hr, hl]
  rw [if_neg (by omega), if_pos hfits]
  rfl

end Frames

/-! ### The index of a file -/

section Index

variable {hash : Str → Str} {text : Str} {rows : List ItemOutcome} {ps : List Pointer}
  {index : PointerIndex} {ws : List Write} {w : Write} {updates : Nat}

/-- The pointer of every row leads to its record. -/
structure Points (text : Str) (ps : List Pointer) (rows : List ItemOutcome) : Prop where
  length : ps.length = rows.length
  row : ∀ (i : Nat) (item : ItemOutcome), rows[i]? = some item → ∃ p, ps[i]? = some p ∧
    p.2 = (encodeOutcome item).length ∧ p.2 ≤ maxRecordBytes ∧ p.1 + p.2 ≤ text.length ∧
      slice text p.1 (p.1 + p.2) = encodeOutcome item

theorem Points.append (h : Points text ps rows) (rest : Str) : Points (text ++ rest) ps rows where
  length := h.length
  row i item hi := by
    obtain ⟨p, hp, hlen, hmax, hle, hs⟩ := h.row i item hi
    refine ⟨p, hp, hlen, hmax, by rw [length_append]; omega, ?_⟩
    rw [slice, drop_append_of_le_length (by omega),
      take_append_of_le_length (by rw [length_drop]; omega)]
    exact hs

theorem Points.place (h : Points text ps rows) {row : Nat} {p : Pointer} {item : ItemOutcome}
    (hrow : row ≤ rows.length) (hlen : p.2 = (encodeOutcome item).length)
    (hmax : p.2 ≤ maxRecordBytes) (hle : p.1 + p.2 ≤ text.length)
    (hs : slice text p.1 (p.1 + p.2) = encodeOutcome item) :
    Points text (place ps row p) (place rows row item) where
  length := by rw [length_place, length_place, h.length]
  row i b hi := by
    rw [getElem?_place hrow] at hi
    rw [getElem?_place (h.length ▸ hrow)]
    by_cases hir : i = row
    · rw [if_pos hir] at hi ⊢
      obtain rfl := Option.some.inj hi
      exact ⟨p, rfl, hlen, hmax, hle, hs⟩
    · rw [if_neg hir] at hi ⊢
      exact h.row i b hi

/-- The index leads to the rows; it was updated at most so often. -/
def Indexed (text : Str) (updates : Nat) (rows : List ItemOutcome) (index : PointerIndex) : Prop :=
  ∃ ps n, index.Holds ps n ∧ n ≤ updates ∧ Points text ps rows

theorem indexed_open (isBuffered : Bool) : Indexed [] 0 [] (PointerIndex.open_ isBuffered) :=
  ⟨[], 0, PointerIndex.open_holds isBuffered, Nat.le_refl _, ⟨rfl, fun i item hi => by simp at hi⟩⟩

theorem Indexed.count_eq (h : Indexed text updates rows index) : index.count = rows.length := by
  obtain ⟨ps, n, hh, -, hp⟩ := h
  rw [hh.count_eq, hp.length]

theorem Indexed.append (h : Indexed text updates rows index) (rest : Str) {more : Nat}
    (hle : updates ≤ more) : Indexed (text ++ rest) more rows index := by
  obtain ⟨ps, n, hh, hn, hp⟩ := h
  exact ⟨ps, n, hh, Nat.le_trans hn hle, hp.append rest⟩

/-- The frame behind the bytes becomes the record of its row. -/
theorem Indexed.update (hh : ∀ bytes, (hash bytes).length = 32)
    (h : Indexed text updates rows index) (hrow : w.row ≤ rows.length)
    (hlen : (encodeOutcome w.item).length ≤ maxRecordBytes) (hrows : rows.length ≤ updates)
    (hup : updates < int64Max / 16) :
    ∃ index', index.update w.row (text.length + headerBytes) (encodeOutcome w.item).length =
      .ok index' ∧
        Indexed (text ++ frame hash w) (updates + 1) (place rows w.row w.item) index' := by
  obtain ⟨ps, n, hx, hn, hp⟩ := h
  have hrow' : w.row ≤ ps.length := by rw [hp.length]; exact hrow
  obtain ⟨index', hu, hx'⟩ := PointerIndex.update_holds hx hrow' (by omega) (by omega)
    (text.length + headerBytes, (encodeOutcome w.item).length)
  refine ⟨index', hu, _, n + 1, hx', by omega, ?_⟩
  have hhead : (text ++ head hash w).length = text.length + headerBytes := by
    rw [length_append, length_head hh]
  have hs := slice_middle (text ++ head hash w) (encodeOutcome w.item) [] rfl
  rw [hhead, append_nil, append_assoc, ← frame_eq] at hs
  refine (hp.append (frame hash w)).place hrow rfl hlen ?_ hs
  rw [length_append, length_frame hh]
  unfold Write.size
  omega

/-- The pointer of a row that is there is read, and what it leads to is the record. -/
theorem Indexed.read (h : Indexed text updates rows index) {row : Nat} {item : ItemOutcome}
    (hrow : rows[row]? = some item) (hrows : rows.length ≤ updates)
    (hup : updates < int64Max / 16) (htext : text.length ≤ int64Max) :
    ∃ p index', index.read row = .ok (p, index') ∧ Indexed text updates rows index' ∧
      readAt text p.1 p.2 >>= decodeOutcome = .ok item := by
  obtain ⟨ps, n, hx, hn, hp⟩ := h
  obtain ⟨p, hpi, hlen, hmax, hle, hs⟩ := hp.row row item hrow
  have hlt : row < rows.length := (List.getElem?_eq_some_iff.1 hrow).1
  have hsmall : int64Max < 2 ^ 64 := by decide
  obtain ⟨index', hr, hx'⟩ := PointerIndex.read_holds hx hpi (by omega) ⟨by omega, by omega⟩
  refine ⟨p, index', hr, ⟨ps, n, hx', hn, hp⟩, ?_⟩
  have hread : readAt text p.1 p.2 = .ok (encodeOutcome item) := by
    rw [readAt, if_neg (Nat.not_lt.2 hmax), hs, if_neg (fun hne => hne hlen.symm)]
  rw [hread, Outcome.ok_bind]
  exact decodeOutcome_encodeOutcome (Nat.lt_of_le_of_lt (hlen ▸ hmax) (by decide))

end Index

/-! ### Opening -/

section Open

variable {hash : Str → Str} {ws pre : List Write} {w : Write} {t : Str}

/-- What may lie behind the frames: nothing, or the beginning of one more. -/
def Torn (hash : Str → Str) (ws : List Write) (t : Str) : Prop :=
  t = [] ∨ ∃ w n, Valid (ws ++ [w]) ∧ n < w.size ∧ t = (frame hash w).take n

theorem Torn.take (h : Torn hash ws t) (n : Nat) : Torn hash ws (t.take n) := by
  rcases h with rfl | ⟨w, m, hv, hm, rfl⟩
  · exact .inl take_nil
  · exact .inr ⟨w, min n m, hv, by omega, take_take⟩

variable (hh : ∀ bytes, (hash bytes).length = 32)
include hh

/-- Cutting a file of frames leaves a file of frames, those that are whole. -/
theorem take_framesOf (hv : Valid (pre ++ ws)) (ht : Torn hash (pre ++ ws) t) (length : Nat) :
    ∃ t', (framesOf hash ws ++ t).take length = framesOf hash (completed length ws) ++ t' ∧
      Torn hash (pre ++ completed length ws) t' := by
  induction ws generalizing pre length with
  | nil => exact ⟨t.take length, rfl, ht.take length⟩
  | cons w ws ih =>
    have hcat : pre ++ w :: ws = (pre ++ [w]) ++ ws := by
      rw [append_assoc, singleton_append]
    have hw : Valid (pre ++ [w]) := (hcat ▸ hv).of_append
    rw [framesOf_cons, append_assoc, completed]
    split
    · rename_i hle
      obtain ⟨t', htake, ht'⟩ := ih (hcat ▸ hv) (hcat ▸ ht) (length - w.size)
      refine ⟨t', ?_, ?_⟩
      · rw [take_append, length_frame hh,
          take_of_length_le (by rw [length_frame hh]; exact hle), htake, framesOf_cons,
          append_assoc]
      · rw [append_assoc, singleton_append] at ht'
        exact ht'
    · rename_i hlt
      have hlt : length < w.size := Nat.not_le.1 hlt
      refine ⟨(frame hash w).take length, ?_, .inr ⟨w, length, ?_, hlt, rfl⟩⟩
      · rw [take_append_of_le_length (by rw [length_frame hh]; omega)]
        rfl
      · rwa [append_nil]

/-- The loop reads every frame, and stops before what is torn. -/
theorem scan_frames {index : PointerIndex} (hv : Valid (pre ++ ws)) (ht : Torn hash (pre ++ ws) t)
    (hsmall : total (pre ++ ws) ≤ int64Max)
    (hi : Indexed (framesOf hash pre) pre.length (rowsOf pre) index) :
    ∃ index', scan hash (framesOf hash (pre ++ ws) ++ t) index (total pre) =
      .ok (index', total (pre ++ ws)) ∧
        Indexed (framesOf hash (pre ++ ws)) (pre ++ ws).length (rowsOf (pre ++ ws)) index' := by
  induction ws generalizing pre index with
  | nil =>
    rw [append_nil] at *
    refine ⟨index, ?_, hi⟩
    have hrows : (rowsOf pre).length < 2 ^ 64 := by
      have h1 := length_rowsOf_le pre
      have h2 := length_le_total pre
      unfold headerBytes int64Max at *
      omega
    rw [scan, length_append, length_framesOf hh, Nat.add_sub_cancel_left]
    rcases ht with rfl | ⟨w, n, hw, hn, rfl⟩
    · rw [if_neg (by rw [length_nil]; omega)]
    · have hlen : ((frame hash w).take n).length = n := by
        rw [length_take, length_frame hh]
        omega
      rw [hlen]
      by_cases hn0 : n < headerBytes
      · rw [if_pos hn0, ite_self]
      · rw [if_neg hn0, if_pos (by unfold headerBytes at hn0; omega), hi.count_eq,
          ← length_framesOf hh, readFrame_torn hh _ hw.last.1 (by have := hw.last.1; omega)
            hw.last.2 (Nat.not_lt.1 hn0) hn]
  | cons w ws ih =>
    have hcat : pre ++ w :: ws = (pre ++ [w]) ++ ws := by
      rw [append_assoc, singleton_append]
    rw [hcat] at hv ht hsmall ⊢
    have hw := hv.of_append.last
    have h1 := length_rowsOf_le pre
    have h2 := length_le_total pre
    have h3 : total (pre ++ [w] ++ ws) = total pre + w.size + total ws := by
      rw [total_append, total_append, total_singleton]
    have hsize : w.size = headerBytes + (encodeOutcome w.item).length := rfl
    have hpre : pre.length < int64Max / 16 := by
      unfold headerBytes int64Max at *
      omega
    have hrow : w.row < 2 ^ 64 := by
      unfold int64Max at hpre
      omega
    obtain ⟨index', hu, hi'⟩ := hi.update hh hw.1 hw.2 h1 hpre
    have hframes : framesOf hash (pre ++ [w] ++ ws) ++ t =
        framesOf hash pre ++ (frame hash w ++ (framesOf hash ws ++ t)) := by
      rw [framesOf_append, framesOf_append, framesOf_singleton, append_assoc,
        append_assoc]
    have hread : readFrame hash (framesOf hash (pre ++ [w] ++ ws) ++ t) index.count (total pre) =
        .ok (some (w.row, (encodeOutcome w.item).length)) := by
      rw [hframes, hi.count_eq, ← length_framesOf hh]
      exact readFrame_frame hh _ _ hw.1 hrow hw.2
    have hlen : (framesOf hash (pre ++ [w] ++ ws) ++ t).length =
        total pre + w.size + total ws + t.length := by
      rw [length_append, length_framesOf hh, h3]
    rw [← framesOf_singleton, ← framesOf_append, ← rowsOf_concat] at hi'
    obtain ⟨index'', hs, hi''⟩ := @ih _ index' hv ht hsmall (by
      rw [length_append, length_singleton]
      exact hi')
    refine ⟨index'', ?_, hi''⟩
    rw [scan, if_pos (by unfold headerBytes at hsize; omega), if_neg (by omega), hread]
    simp only
    rw [← length_framesOf hh pre, hu]
    simp only
    rw [length_framesOf hh, Nat.add_assoc, ← hsize, ← total_singleton, ← total_append]
    exact hs

end Open

/-! ### The log as an array -/

/-- The log stands for the array. -/
structure Log.Is (hash : Str → Str) (log : Log) (a : Outcomes) : Prop where
  text : ∃ t, log.file = framesOf hash a.writes ++ t ∧ Torn hash a.writes t ∧
    (a.failed = false → t = [])
  failed : log.failed = a.failed
  end_ : a.failed = false → log.end_ = total a.writes
  rows : a.failed = false → a.rows = rowsOf a.writes
  index : Indexed log.file a.writes.length a.rows log.index
  few : a.rows.length ≤ a.writes.length
  valid : Valid a.writes
  small : log.file.length ≤ int64Max

section Calls

variable {hash : Str → Str} {log : Log} {a : Outcomes} {ws : List Write} {w : Write} {t : Str}

/-- The next write has the next row of the index. -/
theorem Log.Is.index_update (h : log.Is hash a) {index : PointerIndex}
    (hi : Indexed log.file a.writes.length a.rows index) :
    Log.Is hash { log with index := index } a :=
  ⟨h.text, h.failed, h.end_, h.rows, hi, h.few, h.valid, h.small⟩

variable (hh : ∀ bytes, (hash bytes).length = 32)
include hh

/-- A log has room in its index for one more write. -/
theorem Log.Is.length_writes (h : log.Is hash a) : a.writes.length < int64Max / 16 := by
  obtain ⟨t, hf, -, -⟩ := h.text
  have hle := length_le_total a.writes
  have hlen := congrArg length hf
  rw [length_append, length_framesOf hh] at hlen
  have hsmall := h.small
  unfold headerBytes int64Max at *
  omega

/-- Opening frames, with something torn behind them, gives the array of their rows. -/
theorem openLog_frames (isBuffered : Bool) (hv : Valid ws) (ht : Torn hash ws t)
    (hsmall : total ws ≤ int64Max) :
    ∃ log, openLog hash isBuffered (framesOf hash ws ++ t) = .ok log ∧
      log.file = framesOf hash ws ∧ log.Is hash { rows := rowsOf ws, writes := ws } := by
  obtain ⟨index, hs, hi⟩ := @scan_frames _ _ [] _ hh _ hv ht hsmall (indexed_open isBuffered)
  have htake : (framesOf hash ws ++ t).take (total ws) = framesOf hash ws := by
    rw [← length_framesOf hh, take_left]
  refine ⟨{ file := framesOf hash ws, index := index, end_ := total ws }, ?_, rfl, ?_⟩
  · rw [openLog]
    rw [nil_append] at hs
    show (scan hash (framesOf hash ws ++ t) (PointerIndex.open_ isBuffered) (total []) >>= _) = _
    rw [hs, Outcome.ok_bind]
    show Except.ok (Log.mk ((framesOf hash ws ++ t).take (total ws)) index (total ws) false) = _
    rw [htake]
  · refine ⟨⟨[], (append_nil _).symm, .inl rfl, fun _ => rfl⟩, rfl, fun _ => rfl,
      fun _ => rfl, hi, length_rowsOf_le ws, hv, ?_⟩
    rw [length_framesOf hh]
    exact hsmall

/-- Wherever its file is cut, the log opens with the writes that are whole, and only the
beginning of a frame goes. -/
theorem Log.Is.cut (h : log.Is hash a) (isBuffered : Bool) (length : Nat) :
    ∃ log', openLog hash isBuffered (log.file.take length) = .ok log' ∧
      log'.file = framesOf hash (completed length a.writes) ∧
      (∃ t, log.file.take length = log'.file ++ t ∧ Torn hash (completed length a.writes) t) ∧
      log'.Is hash
        { rows := rowsOf (completed length a.writes), writes := completed length a.writes } := by
  obtain ⟨t, hf, ht, -⟩ := h.text
  obtain ⟨t', htake, ht'⟩ := @take_framesOf _ _ [] _ hh h.valid ht length
  rw [nil_append] at ht'
  obtain ⟨rest, hrest, -, -⟩ := completed_spec length a.writes
  have htotal : total (completed length a.writes) ≤ int64Max := by
    have hlen := congrArg List.length hf
    have hsum := congrArg total hrest
    rw [total_append] at hsum
    rw [length_append, length_framesOf hh] at hlen
    have := h.small
    omega
  obtain ⟨log', ho, hfile, his⟩ :=
    openLog_frames hh isBuffered ((hrest ▸ h.valid).of_append) ht' htotal
  rw [← htake, ← hf] at ho
  exact ⟨log', ho, hfile, ⟨t', by rw [hfile, hf, htake], ht'⟩, his⟩

/-- A write that is reached goes behind the frames. -/
theorem overwrite_end (h : log.Is hash a) (hf : a.failed = false) (bytes : Str) :
    overwrite log.file log.end_ bytes = framesOf hash a.writes ++ bytes := by
  obtain ⟨t, htext, -, hnil⟩ := h.text
  rw [htext, hnil hf, append_nil, h.end_ hf, ← length_framesOf hh,
    overwrite_eq (Nat.le_refl _), splice_end]

/-- A write does to the log what it does to the array. -/
theorem Log.Is.write (h : log.Is hash a) (hrow : w.row ≤ a.rows.length) (written : Written) :
    (log.write hash w written).1 = (a.write w written).1 ∧
      (log.write hash w written).2.Is hash (a.write w written).2 := by
  have hroom := h.length_writes hh
  unfold Log.write Outcomes.write
  dsimp only
  rw [h.failed, length_frame hh]
  by_cases hf : a.failed = true
  · rw [if_pos hf, if_pos hf]
    exact ⟨rfl, h⟩
  have hf' : a.failed = false := Bool.eq_false_iff.2 hf
  rw [if_neg hf, if_neg hf, h.end_ hf']
  by_cases hlen : (encodeOutcome w.item).length > maxRecordBytes
  · rw [if_pos hlen, if_pos hlen]
    exact ⟨rfl, h⟩
  rw [if_neg hlen, if_neg hlen]
  by_cases hoff : total a.writes > int64Max - w.size
  · rw [if_pos hoff, if_pos hoff]
    exact ⟨rfl, h⟩
  rw [if_neg hoff, if_neg hoff]
  have hlen : (encodeOutcome w.item).length ≤ maxRecordBytes := Nat.not_lt.1 hlen
  have hvalid : Valid (a.writes ++ [w]) := h.valid.concat (by rw [← h.rows hf']; exact hrow) hlen
  have hfile : framesOf hash a.writes = log.file := by
    obtain ⟨t, htext, -, hnil⟩ := h.text
    rw [htext, hnil hf', append_nil]
  have hsmall : (log.file ++ frame hash w).length ≤ int64Max := by
    rw [← hfile, length_append, length_framesOf hh, length_frame hh]
    unfold Write.size headerBytes maxRecordBytes int64Max at *
    omega
  have hframes : log.file ++ frame hash w = framesOf hash (a.writes ++ [w]) ++ [] := by
    rw [append_nil, framesOf_append, framesOf_singleton, hfile]
  have hend := overwrite_end hh h hf'
  rw [h.end_ hf', hfile] at hend
  have hmore : a.writes.length ≤ (a.writes ++ [w]).length := by
    rw [length_append]
    omega
  cases written with
  | done =>
    obtain ⟨index, hu, hi⟩ := h.index.update hh hrow hlen h.few hroom
    rw [← hfile, length_framesOf hh] at hu
    simp only [hend, hu]
    refine ⟨trivial, ⟨[], hframes, .inl rfl, fun _ => rfl⟩, rfl, fun _ => ?_, fun _ => ?_,
      ?_, ?_, hvalid, hsmall⟩
    · show total a.writes + w.size = total (a.writes ++ [w])
      rw [total_append, total_singleton]
    · show place a.rows w.row w.item = rowsOf (a.writes ++ [w])
      rw [rowsOf_concat, h.rows hf']
    · show Indexed _ (a.writes ++ [w]).length _ _
      rw [length_append, length_singleton]
      exact hi
    · show (place a.rows w.row w.item).length ≤ (a.writes ++ [w]).length
      have := h.few
      rw [length_place, length_append, length_singleton]
      split <;> omega
  | unindexed =>
    simp only [hend]
    exact ⟨trivial, ⟨[], hframes, .inl rfl, fun _ => rfl⟩, rfl, nofun, nofun,
      h.index.append _ hmore, Nat.le_trans h.few hmore, hvalid, hsmall⟩
  | torn n =>
    simp only [hend]
    have hsmall' : (log.file ++ (frame hash w).take n).length ≤ int64Max := by
      rw [length_append] at hsmall ⊢
      have := length_take_le' n (frame hash w)
      omega
    by_cases hn : w.size ≤ n
    · rw [if_pos hn, take_of_length_le (by rw [length_frame hh]; exact hn)]
      exact ⟨trivial, ⟨[], hframes, .inl rfl, fun _ => rfl⟩, rfl, nofun, nofun,
        h.index.append _ hmore, Nat.le_trans h.few hmore, hvalid, hsmall⟩
    · rw [if_neg hn]
      refine ⟨trivial, ⟨(frame hash w).take n, by rw [hfile], .inr ⟨w, n, hvalid, ?_, rfl⟩, nofun⟩,
        rfl, nofun, nofun, h.index.append _ (Nat.le_refl _), h.few, h.valid, hsmall'⟩
      exact Nat.not_le.1 hn

/-- The rows of a page are read one after another. -/
theorem Log.Is.readRows (h : log.Is hash a) (check : Nat → Option Error) {n offset : Nat}
    (hle : offset + n ≤ a.rows.length) :
    (log.readRows check n offset).2.Is hash a ∧
      (log.readRows check n offset).1 = match (List.range' offset n).findSome? check with
        | some e => .error e
        | none => .ok ((a.rows.drop offset).take n) := by
  induction n generalizing log offset with
  | zero => exact ⟨h, by rw [take_zero]; rfl⟩
  | succ n ih =>
    obtain ⟨item, hitem⟩ : ∃ item, a.rows[offset]? = some item :=
      ⟨_, getElem?_eq_getElem (by omega)⟩
    obtain ⟨p, index, hr, hi, hread⟩ := h.index.read hitem h.few (h.length_writes hh) h.small
    obtain ⟨his, heq⟩ := @ih _ (h.index_update hi) (offset + 1) (by omega)
    have htake : (a.rows.drop offset).take (n + 1) =
        item :: (a.rows.drop (offset + 1)).take n := by
      rw [drop_eq_getElem?_toList_append, hitem]
      rfl
    rw [Log.readRows, range'_succ, findSome?_cons, htake]
    cases check offset with
    | some e => exact ⟨h, rfl⟩
    | none =>
      simp only [hr, hread]
      refine ⟨his, ?_⟩
      rw [heq]
      cases (range' (offset + 1) n).findSome? check <;> rfl

/-- A call on the log answers as the array does. -/
theorem Log.Is.step (h : log.Is hash a) (call : Call) :
    (log.step hash call).1 = (a.step call).1 ∧ (log.step hash call).2.Is hash (a.step call).2 := by
  have hcount : log.index.count = a.rows.length := h.index.count_eq
  cases call with
  | append item written =>
    obtain ⟨hr, his⟩ := h.write (w := ⟨log.index.count, item⟩) hh (Nat.le_of_eq hcount) written
    simp only [Log.step, Log.append, Outcomes.step, ← hcount]
    refine ⟨?_, his⟩
    rw [hr]
    cases (a.write ⟨log.index.count, item⟩ written).1 <;> rfl
  | replace row item written =>
    simp only [Log.step, Log.replace, Outcomes.step, hcount]
    split
    · exact ⟨rfl, h⟩
    · rename_i hlt
      obtain ⟨hr, his⟩ := h.write (w := ⟨row, item⟩) hh (Nat.le_of_lt (Nat.not_le.1 hlt)) written
      exact ⟨by rw [hr], his⟩
  | read offset maxItems check =>
    simp only [Log.step, Log.read, Outcomes.step, hcount]
    split
    · exact ⟨rfl, h⟩
    · rename_i hok
      have hpage : (a.page offset maxItems).length = min maxItems (a.rows.length - offset) := by
        rw [Outcomes.page, length_take, length_drop]
      have hle : offset + min maxItems (a.rows.length - offset) ≤ a.rows.length := by omega
      obtain ⟨his, heq⟩ := h.readRows hh check hle
      rw [hpage, heq]
      have htake : (a.rows.drop offset).take (min maxItems (a.rows.length - offset)) =
          a.page offset maxItems := by
        rw [Outcomes.page, ← length_drop, ← take_eq_take_min]
      cases (range' offset (min maxItems (a.rows.length - offset))).findSome? check with
      | some e => exact ⟨rfl, his⟩
      | none => exact ⟨by rw [htake]; rfl, his⟩
  | reopen isBuffered length =>
    obtain ⟨log', ho, -, -, his⟩ := h.cut hh isBuffered length
    simp only [Log.step, Outcomes.step, ho]
    exact ⟨trivial, his⟩

/-- So do calls one after another. -/
theorem Log.Is.run (h : log.Is hash a) (calls : List Call) :
    (log.run hash calls).1 = (a.run calls).1 ∧
      (log.run hash calls).2.Is hash (a.run calls).2 := by
  induction calls generalizing log a with
  | nil => exact ⟨rfl, h⟩
  | cons call calls ih =>
    obtain ⟨hr, his⟩ := h.step hh call
    obtain ⟨hrs, hiss⟩ := ih his
    exact ⟨congrArg₂ cons hr hrs, hiss⟩

end Calls

/-- Whatever was called and however the file was cut before, the log answers as the array, and
wherever its file is cut it opens with the last whole record of every row, losing only the
beginning of one frame, and goes on as the array of these rows. -/
theorem crash_safe (hash : Str → Str) (hh : ∀ bytes, (hash bytes).length = 32)
    (isBuffered : Bool) (calls : List Call) :
    ∃ log, openLog hash isBuffered [] = .ok log ∧
      (log.run hash calls).1 = (Outcomes.run {} calls).1 ∧
      ∀ (length : Nat) (isBuffered' : Bool),
        let file := (log.run hash calls).2.file.take length
        let writes := (Outcomes.run {} calls).2.writes
        let whole := completed length writes
        ∃ log', openLog hash isBuffered' file = .ok log' ∧
          log'.file = whole.flatMap (frame hash) ∧
          (∃ torn w, file = log'.file ++ torn ∧ torn <+: frame hash w ∧ torn.length < w.size) ∧
          (∃ rest, writes = whole ++ rest ∧ total whole ≤ length ∧
            ∀ w ∈ rest.head?, length < total whole + w.size) ∧
          (∀ row, (rowsOf whole)[row]? =
            (whole.reverse.find? fun w => w.row = row).map Write.item) ∧
          ∀ calls', (log'.run hash calls').1 =
            (Outcomes.run { rows := rowsOf whole, writes := whole } calls').1 := by
  obtain ⟨log, ho, -, his⟩ :=
    @openLog_frames _ [] [] hh isBuffered .nil (.inl rfl) (Nat.zero_le _)
  obtain ⟨hr, hrun⟩ := his.run hh calls
  refine ⟨log, ho, hr, fun length isBuffered' => ?_⟩
  obtain ⟨log', ho', hfile, ⟨t, ht, htorn⟩, his'⟩ := hrun.cut hh isBuffered' length
  refine ⟨log', ho', hfile, ?_, completed_spec length _, getElem?_rowsOf his'.valid,
    fun calls' => (his'.run hh calls').1⟩
  rcases htorn with rfl | ⟨w, n, -, hn, rfl⟩
  · refine ⟨[], ⟨0, {}⟩, ht, nil_prefix, ?_⟩
    rw [length_nil]
    unfold Write.size headerBytes
    omega
  · refine ⟨_, w, ht, take_prefix n _, ?_⟩
    rw [length_take]
    omega

/-- Two rows, one of them written again, and a crash in the last frame. -/
theorem crash_safe_sample :
    ∃ log, openLog (fun _ => List.replicate 32 0) true [] = .ok log ∧
      (log.run (fun _ => List.replicate 32 0)
        [.append { item := [65] } .done, .append { item := [66] } .done,
          .replace 0 { item := [67] } .done, .replace 0 { item := [68] } (.torn 60)]).1 =
        [.ok (.row 0), .ok (.row 1), .ok .unit, .error (failure "outcome-log-write")] := by
  obtain ⟨log, ho, hr, -⟩ := crash_safe (fun _ => replicate 32 0)
    (fun _ => length_replicate) true
    [.append { item := [65] } .done, .append { item := [66] } .done,
      .replace 0 { item := [67] } .done, .replace 0 { item := [68] } (.torn 60)]
  exact ⟨log, ho, hr.trans (by decide)⟩

end Hc.Operations.DurableLog
