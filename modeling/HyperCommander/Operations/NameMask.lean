import HyperCommander.Lib.Utf8Sequences
import HyperCommander.Lib.Wildcard
import HyperCommander.Storage.Types
import Mathlib.Data.List.DropRight
import Mathlib.Tactic.Ring

/-!
# File-name masks (`Matches` in `commonLibs/operations/fileOperation.cpp`)

A mask has parts between semicolons; the loop reads one part against a name with a single place to
come back to. It tests equality before it tests for a star, so a star of the mask that meets a `*`
of the name takes it as a letter.

* `walk_spec`: the loop ends, and it has found the name exactly when the part fits it with every
  star that meets a `*` taking this letter alone.
* `matchesMask_exactly`: when the result is the plain meaning of the mask; `kept_of_plain`: always
  for a name that is not empty and has no `*`.
-/

namespace Hc.Operations.NameMask

open Option List Storage Wildcard

/-! ## The code -/

/-- The bytes that follow a first byte. -/
def following (first : Nat) : Nat :=
  if first < 0x80 then 0 else if first < 0xe0 then 1 else if first < 0xf0 then 2 else 3

/-- `Value <= U'Z'`: the capitals of ASCII. -/
def lower (value : Nat) : Nat := if 0x41 ≤ value ∧ value ≤ 0x5a then value + 0x20 else value

/-- The character whose bytes begin with `first`, and the bytes behind it. -/
def scalar (first : UInt8) (text : Str) : Nat × Str :=
  let more := following first.toNat
  let value := if more = 0 then first.toNat else first.toNat % 2 ^ (6 - more)
  ((text.take more).foldl (fun v b => v * 64 + b.toNat % 64) value, text.drop more)

/-- `Scalars`. -/
def scalars : Str → List Nat
  | [] => []
  | first :: text => lower (scalar first text).1 :: scalars (scalar first text).2
termination_by text => text.length
decreasing_by simp only [scalar, length_drop, length_cons]; omega

/-- `?` and `*`. -/
def question : Nat := 0x3f
def asterisk : Nat := 0x2a

/-- The locals of the loop; `star` is `npos` where there is none. -/
structure Walk where
  n : Nat := 0
  m : Nat := 0
  star : Option Nat := none
  retry : Nat := 0
deriving DecidableEq, Repr

/-- One pass of the loop at a letter of the name; `none` is its `break`. -/
def pass (text mask : List Nat) (w : Walk) : Option Walk :=
  if w.m < mask.length ∧ (mask[w.m]? = some question ∨ mask[w.m]? = text[w.n]?) then
    some { w with m := w.m + 1, n := w.n + 1 }
  else if w.m < mask.length ∧ mask[w.m]? = some asterisk then
    some { w with star := some w.m, m := w.m + 1, retry := w.n }
  else
    w.star.map fun star => { w with m := star + 1, n := w.retry + 1, retry := w.retry + 1 }

/-- The loop, for as many passes as are given. -/
def walk (text mask : List Nat) : Nat → Walk → Option Walk
  | 0, _ => none
  | passes + 1, w =>
    if w.n < text.length then
      match pass text mask w with
      | some w => walk text mask passes w
      | none => some w
    else some w

/-- `while (M < Mask.size() && Mask[M] == U'*') ++M;` and the test behind it. -/
def reached (text mask : List Nat) (w : Walk) : Bool :=
  w.n = text.length && w.m + ((mask.drop w.m).takeWhile (· = asterisk)).length = mask.length

def semicolon : UInt8 := 0x3b
def blank : UInt8 := 0x20

/-- The part without the blanks around it. -/
def trim (part : Str) : Str := (part.dropWhile (· = blank)).rdropWhile (· = blank)

/-- `*.*`. -/
def allFiles : Str := [0x2a, 0x2e, 0x2a]

def maskOf (part : Str) : List Nat := scalars (if trim part = allFiles then [0x2a] else trim part)

/-- The loop over the parts of the mask from `Begin` on; it ends behind the last semicolon or
part. -/
def matchesFrom (passes : Nat) (text : List Nat) : Str → Option Bool
  | [] => some false
  | c :: patterns => do
    let part := (c :: patterns).takeWhile (· ≠ semicolon)
    let w ← walk text (maskOf part) passes {}
    if reached text (maskOf part) w then
      return true
    else
      matchesFrom passes text ((c :: patterns).dropWhile (· ≠ semicolon)).tail
termination_by patterns => patterns.length
decreasing_by
  have := (List.dropWhile_suffix (· ≠ semicolon) (l := c :: patterns)).length_le
  simp only [List.length_tail, List.length_cons] at this ⊢
  omega

/-- `Matches`, with the passes each part may take. -/
def matchesMask (passes : Nat) (name patterns : Str) : Option Bool :=
  matchesFrom passes (scalars name) patterns

/-! ## One part -/

section

variable {text mask f a ms q b xs : List Nat} {x : Nat} {w w' : Walk}

theorem question_ne_asterisk : question ≠ asterisk := by decide

/-- The part that a star comes back to: the mask from behind the star, read at any later place. -/
def Later (mask text : List Nat) : Prop := ∃ ys, ys <:+ text ∧ Steady question asterisk mask ys

/-- Where the loop stands: `a` is matched with `b` one by one since the last star, and to come back
to this star suffices. -/
structure Walks (text mask : List Nat) (w : Walk) (f a ms q b xs : List Nat) : Prop where
  mask_eq : mask = f ++ (a ++ ms)
  text_eq : text = q ++ (b ++ xs)
  m_eq : w.m = f.length + a.length
  n_eq : w.n = q.length + b.length
  locked : Locked question a b
  star : (w.star = none ∧ f = [] ∧ q = []) ∨
    w.retry = q.length ∧ (∃ s, w.star = some s ∧ f.length = s + 1) ∧
      (Steady question asterisk mask text ↔ Later (a ++ ms) (b ++ xs))

theorem Walks.start (text mask : List Nat) : Walks text mask {} [] [] mask [] [] text :=
  ⟨rfl, rfl, rfl, rfl, .nil, .inl ⟨rfl, rfl, rfl⟩⟩

/-- At the end of the name only stars may be left of the mask. -/
theorem Walks.finished (h : Walks text mask w f a ms q b []) :
    Steady question asterisk mask text ↔ ∀ m ∈ ms, m = asterisk := by
  have hnil : Steady question asterisk ms [] ↔ ∀ m ∈ ms, m = asterisk := steady_nil
  rw [← hnil]
  rcases h.star with ⟨-, rfl, rfl⟩ | ⟨-, -, hs⟩
  · rw [h.mask_eq, h.text_eq]
    exact h.locked.steady_iff question_ne_asterisk
  · rw [hs]
    constructor
    · rintro ⟨ys, hy, hr⟩
      obtain ⟨zs, hz, hr⟩ := h.locked.exists_suffix question_ne_asterisk hy hr
      rwa [suffix_nil.1 hz] at hr
    · intro hr
      exact ⟨_, suffix_rfl, (h.locked.steady_iff question_ne_asterisk).2 hr⟩

/-- A star before a letter that is none: from here on it is enough to come back to it. -/
theorem Walks.commit (h : Walks text mask w f a (asterisk :: ms) q b xs)
    (hx : xs.head? ≠ some asterisk) : Steady question asterisk mask text ↔ Later ms xs := by
  rcases h.star with ⟨-, rfl, rfl⟩ | ⟨-, -, hs⟩
  · rw [h.mask_eq, h.text_eq]
    exact (h.locked.steady_iff question_ne_asterisk).trans (steady_star hx)
  · rw [hs]
    constructor
    · rintro ⟨ys, hy, hr⟩
      obtain ⟨zs, hz, hr⟩ := h.locked.exists_suffix question_ne_asterisk hy hr
      obtain ⟨part, us, rfl, -, hr⟩ := fits_star.1 hr
      exact ⟨us, (suffix_append part us).trans hz, hr⟩
    · intro hr
      exact ⟨_, suffix_rfl, (h.locked.steady_iff question_ne_asterisk).2 ((steady_star hx).2 hr)⟩

/-- Where the mask cannot go on, no reading begins at the place that was tried. -/
theorem Walks.not_steady (h : Walks text mask w f a ms q b (x :: xs))
    (h1 : ms.head? ≠ some question) (h2 : ms.head? ≠ some x) (h3 : ms.head? ≠ some asterisk) :
    ¬Steady question asterisk (a ++ ms) (b ++ x :: xs) := by
  intro hr
  have hr := (h.locked.steady_iff question_ne_asterisk).1 hr
  cases ms with
  | nil => exact absurd (fits_nil.1 hr) (by simp)
  | cons m ms =>
    simp only [head?_cons, ne_eq, some.injEq] at h1 h2 h3
    obtain ⟨y, ys, he, hy, -⟩ := (fits_letter h3).1 hr
    obtain ⟨rfl, -⟩ := cons.inj he
    exact hy.elim h1 h2

/-- What is left of the mask decides a pass. -/
theorem Walks.pass_eq (h : Walks text mask w f a ms q b (x :: xs)) : pass text mask w =
    if ms.head? = some question ∨ ms.head? = some x then some { w with m := w.m + 1, n := w.n + 1 }
    else if ms.head? = some asterisk then
      some { w with star := some w.m, m := w.m + 1, retry := w.n }
    else w.star.map fun star =>
      { w with m := star + 1, n := w.retry + 1, retry := w.retry + 1 } := by
  have h1 : mask[w.m]? = ms.head? := by
    rw [h.mask_eq, h.m_eq, ← append_assoc, ← length_append,
      getElem?_append_right (Nat.le_refl _), Nat.sub_self, head?_eq_getElem?]
  have h2 : text[w.n]? = some x := by
    rw [h.text_eq, h.n_eq, ← append_assoc, ← length_append,
      getElem?_append_right (Nat.le_refl _), Nat.sub_self]
    rfl
  have h3 : w.m < mask.length ↔ ms ≠ [] := by
    rw [h.mask_eq, h.m_eq, length_append, length_append, ← length_pos_iff]
    omega
  simp only [pass, h1, h2, h3]
  cases ms with
  | nil => simp
  | cons m ms => simp

/-- What is left to do: stars of the mask first, then places to come back to, then letters. -/
def Walk.rank (text mask : List Nat) (w : Walk) : Nat :=
  ((mask.length - w.star.elim 0 (· + 1)) * (text.length + 1) + (text.length - w.retry)) *
    (text.length + 1) + (text.length - w.n)

theorem lex_lt {i j r s t : Nat} (h : i < j) (hr : r ≤ t) : i * (t + 1) + r < j * (t + 1) + s := by
  have h1 : (i + 1) * (t + 1) ≤ j * (t + 1) := Nat.mul_le_mul_right _ h
  rw [Nat.add_mul] at h1
  omega

/-- Some split of the mask and the name says where the loop stands. -/
def Stands (text mask : List Nat) (w : Walk) : Prop :=
  ∃ f a ms q b xs, Walks text mask w f a ms q b xs

/-- A letter is matched. -/
theorem Walks.match_letter {m : Nat} (h : Walks text mask w f a (m :: ms) q b (x :: xs))
    (hm : m = question ∨ m = x) :
    Walks text mask { w with m := w.m + 1, n := w.n + 1 } f (a ++ [m]) ms q (b ++ [x]) xs := by
  refine ⟨?_, ?_, ?_, ?_, h.locked.concat hm, ?_⟩
  · rw [h.mask_eq, append_assoc, singleton_append]
  · rw [h.text_eq, append_assoc, singleton_append]
  · rw [length_append, length_singleton, ← Nat.add_assoc, h.m_eq]
  · rw [length_append, length_singleton, ← Nat.add_assoc, h.n_eq]
  · simpa only [append_assoc, singleton_append] using h.star

/-- A star is found. -/
theorem Walks.take_star (h : Walks text mask w f a (asterisk :: ms) q b xs)
    (hx : xs.head? ≠ some asterisk) :
    Walks text mask { w with star := some w.m, m := w.m + 1, retry := w.n }
      (f ++ a ++ [asterisk]) [] ms (q ++ b) [] xs := by
  refine ⟨?_, ?_, ?_, ?_, .nil, .inr ⟨?_, ⟨_, rfl, ?_⟩, h.commit hx⟩⟩
  · simp [h.mask_eq]
  · simp [h.text_eq]
  · simp [h.m_eq, Nat.add_assoc]
  · simp [h.n_eq]
  · simp [h.n_eq]
  · simp [h.m_eq, Nat.add_assoc]

/-- The loop comes back to its star, one place further on. -/
theorem Walks.come_back {s y : Nat} {rest : List Nat} (h : Walks text mask w f a ms q b xs)
    (hs : w.star = some s) (hy : b ++ xs = y :: rest)
    (hn : ¬Steady question asterisk (a ++ ms) (b ++ xs)) :
    Walks text mask { w with m := s + 1, n := w.retry + 1, retry := w.retry + 1 }
      f [] (a ++ ms) (q ++ [y]) [] rest := by
  rcases h.star with ⟨hnone, -⟩ | ⟨hretry, ⟨s', hs', hf⟩, hiff⟩
  · rw [hs] at hnone
    cases hnone
  obtain rfl : s = s' := some.inj (hs.symm.trans hs')
  refine ⟨h.mask_eq, ?_, hf.symm, ?_, .nil, .inr ⟨?_, ⟨s, hs, hf⟩, ?_⟩⟩
  · rw [h.text_eq, hy, append_assoc]
    rfl
  · simp [hretry]
  · simp [hretry]
  · rw [hiff]
    constructor
    · rintro ⟨ys, hys, hr⟩
      rw [hy] at hys hn
      rcases suffix_cons_iff.1 hys with rfl | hys
      · exact absurd hr hn
      · exact ⟨ys, hys, hr⟩
    · rintro ⟨ys, hys, hr⟩
      rw [hy]
      exact ⟨ys, hys.trans (suffix_cons y rest), hr⟩

/-- A pass keeps the place and leaves less to do, or the name does not fit. -/
theorem Walks.next (h : Walks text mask w f a ms q b (x :: xs)) :
    (∃ w', pass text mask w = some w' ∧ w'.rank text mask < w.rank text mask ∧
      Stands text mask w') ∨
      pass text mask w = none ∧ ¬Steady question asterisk mask text := by
  have hn : w.n < text.length := by
    rw [h.n_eq, h.text_eq, length_append, length_append, length_cons]
    omega
  have hstar : w.star.elim 0 (· + 1) ≤ w.m ∧ (w.star ≠ none → w.retry < text.length) := by
    have hm := h.m_eq
    have hn' := h.n_eq
    rcases h.star with ⟨hs, -⟩ | ⟨hretry, ⟨s, hs, hf⟩, -⟩
    · simp [hs]
    · rw [hs]
      exact ⟨by simp only [elim_some]; omega, fun _ => by omega⟩
  rw [h.pass_eq]
  by_cases h1 : ms.head? = some question ∨ ms.head? = some x
  · left
    obtain ⟨m, ms, rfl⟩ : ∃ m ms', ms = m :: ms' := by
      cases ms with
      | nil => simp at h1
      | cons m ms => exact ⟨m, ms, rfl⟩
    simp only [head?_cons, some.injEq] at h1
    refine ⟨_, if_pos (by simpa using h1), ?_, _, _, _, _, _, _, h.match_letter h1⟩
    simp only [Walk.rank]
    omega
  rw [if_neg h1]
  push Not at h1
  by_cases h2 : ms.head? = some asterisk
  · left
    obtain ⟨ms, rfl⟩ : ∃ ms', ms = asterisk :: ms' := head?_eq_some_iff.1 h2
    have hx : (x :: xs).head? ≠ some asterisk := by
      intro hx
      exact h1.2 (by rw [head?_cons, ← hx, head?_cons])
    have hm : w.m < mask.length := by
      rw [h.m_eq, h.mask_eq, length_append, length_append, length_cons]
      omega
    refine ⟨_, if_pos h2, ?_, _, _, _, _, _, _, h.take_star hx⟩
    simp only [Walk.rank, elim_some]
    exact lex_lt (t := text.length) (lex_lt (by omega) (by omega)) (by omega)
  rw [if_neg h2]
  have hno := h.not_steady h1.1 h1.2 h2
  cases hs : w.star with
  | none =>
    refine .inr ⟨rfl, ?_⟩
    rcases h.star with ⟨-, rfl, rfl⟩ | ⟨-, ⟨s, hs', -⟩, -⟩
    · rwa [h.mask_eq, h.text_eq]
    · rw [hs] at hs'
      cases hs'
  | some s =>
    left
    obtain ⟨y, rest, hy⟩ : ∃ y rest, b ++ x :: xs = y :: rest := by
      cases b with
      | nil => exact ⟨x, xs, rfl⟩
      | cons y b => exact ⟨y, _, rfl⟩
    have hr := hstar.2 (by simp [hs])
    have hback := h.come_back hs hy hno
    rw [hs] at hback
    refine ⟨_, rfl, ?_, _, _, _, _, _, _, hback⟩
    simp only [Walk.rank, hs, elim_some]
    exact lex_lt (t := text.length) (by omega) (by omega)

/-- The loop ends, and has then reached the end of both exactly when the mask fits the name. -/
theorem walk_spec (passes : Nat) (w : Walk) (h : Stands text mask w)
    (hp : w.rank text mask < passes) :
    ∃ w', walk text mask passes w = some w' ∧
      (reached text mask w' = true ↔ Steady question asterisk mask text) := by
  induction passes generalizing w with
  | zero => omega
  | succ passes ih =>
    obtain ⟨f, a, ms, q, b, xs, h⟩ := h
    rw [walk]
    cases xs with
    | nil =>
      have hn : w.n = text.length := by simp [h.n_eq, h.text_eq]
      have hd : mask.drop w.m = ms := by
        rw [h.mask_eq, h.m_eq, ← append_assoc, ← length_append, drop_left]
      have hl : mask.length = w.m + ms.length := by simp [h.mask_eq, h.m_eq, Nat.add_assoc]
      refine ⟨w, if_neg (by omega), ?_⟩
      rw [h.finished, reached, hd, hn, hl]
      have htake : (ms.takeWhile (· = asterisk)).length = ms.length ↔ ∀ m ∈ ms, m = asterisk := by
        have hiff := takeWhile_eq_self_iff (p := (· = asterisk)) (l := ms)
        simp only [decide_eq_true_eq] at hiff
        rw [← hiff]
        have hfront : ms.takeWhile (· = asterisk) <+: ms := takeWhile_prefix _
        exact ⟨fun h => hfront.eq_of_length h, fun h => by rw [h]⟩
      simp [← htake]
    | cons x xs =>
      have hn : w.n < text.length := by
        rw [h.n_eq, h.text_eq, length_append, length_append, length_cons]
        omega
      rw [if_pos hn]
      rcases h.next with ⟨w', hw, hr, hw'⟩ | ⟨hw, hno⟩
      · rw [hw]
        exact ih w' hw' (by omega)
      · rw [hw]
        refine ⟨w, rfl, iff_of_false ?_ hno⟩
        simp only [reached, Bool.and_eq_true, decide_eq_true_eq]
        omega

end

/-! ## Characters -/

theorem length_scalars_le (text : Str) : (scalars text).length ≤ text.length := by
  fun_induction scalars text with
  | case1 => simp
  | case2 first text ih =>
    simp only [scalar, length_drop] at ih
    simp only [length_cons, scalar]
    omega

/-! ## The parts -/

/-- The parts the loop looks at: not an empty one at the end of the mask. -/
def Examined (patterns part : Str) : Prop :=
  part ∈ patterns.splitOn semicolon ∧ (part ≠ [] ∨ part ∈ (patterns.splitOn semicolon).dropLast)

section

variable {text : List Nat} {name patterns part : Str} {passes : Nat}

theorem not_examined_nil : ¬Examined [] part := by
  rintro ⟨h1, h2⟩
  simp_all

/-- The front part, and the parts behind its semicolon. -/
theorem examined_iff (hp : patterns ≠ []) : Examined patterns part ↔
    part = patterns.takeWhile (· ≠ semicolon) ∨
      Examined (patterns.dropWhile (· ≠ semicolon)).tail part := by
  have hsplit := takeWhile_append_dropWhile (p := (· ≠ semicolon)) (l := patterns)
  have hfront : semicolon ∉ patterns.takeWhile (· ≠ semicolon) := by
    intro h
    simpa using mem_takeWhile_imp h
  generalize patterns.takeWhile (· ≠ semicolon) = front at hsplit hfront
  cases hd : patterns.dropWhile (· ≠ semicolon) with
  | nil =>
    rw [hd, append_nil] at hsplit
    subst hsplit
    rw [tail_nil, Examined, splitOn_eq_singleton hfront, mem_singleton]
    constructor
    · exact fun h => .inl h.1
    · rintro (rfl | h)
      · exact ⟨rfl, .inl hp⟩
      · exact absurd h not_examined_nil
  | cons c rest =>
    have hc : c = semicolon := by
      have := head?_dropWhile_not (· ≠ semicolon) patterns
      rw [hd] at this
      simpa using this
    subst hc
    rw [hd] at hsplit
    have hs : patterns.splitOn semicolon = front :: rest.splitOn semicolon := by
      rw [← hsplit]
      exact splitOn_append_cons_self_of_not_mem hfront rest
    have hne := splitOn_ne_nil semicolon rest
    rw [Examined, Examined, hs, tail_cons, dropLast_cons_of_ne_nil hne, mem_cons,
      mem_cons]
    constructor
    · rintro ⟨rfl | h1, h2⟩
      · exact .inl rfl
      · rcases h2 with h2 | rfl | h2
        · exact .inr ⟨h1, .inl h2⟩
        · exact .inl rfl
        · exact .inr ⟨h1, .inr h2⟩
    · rintro (rfl | ⟨h1, h2⟩)
      · exact ⟨.inl rfl, .inr (.inl rfl)⟩
      · exact ⟨.inr h1, h2.imp_right .inr⟩

theorem length_maskOf_le (part : Str) : (maskOf part).length ≤ part.length := by
  have htrim : (trim part).length ≤ part.length := by
    have hfront : trim part <+: part.dropWhile (· = blank) := rdropWhile_prefix _ _
    exact hfront.length_le.trans (dropWhile_suffix _).length_le
  refine (length_scalars_le _).trans ?_
  split
  · rename_i h
    rw [h] at htrim
    exact Nat.le_trans (by decide) htrim
  · exact htrim

theorem start_rank_lt (text mask : List Nat) :
    Walk.rank text mask {} < (mask.length + 1) * (text.length + 1) ^ 2 := by
  have : (mask.length + 1) * (text.length + 1) ^ 2 =
      (mask.length * (text.length + 1) + text.length) * (text.length + 1) + text.length + 1 := by
    ring
  rw [this]
  exact Nat.lt_succ_self _

/-- Every part that is looked at is read to the end, and one that fits is found. -/
theorem matchesFrom_spec (text : List Nat) (patterns : Str)
    (hp : (patterns.length + 1) * (text.length + 1) ^ 2 ≤ passes) :
    ∃ b, matchesFrom passes text patterns = some b ∧ (b = true ↔
      ∃ part, Examined patterns part ∧ Steady question asterisk (maskOf part) text) := by
  fun_induction matchesFrom passes text patterns with
  | case1 => exact ⟨false, rfl, by simp [not_examined_nil]⟩
  | case2 c patterns front ih =>
    have hcut : front <+: c :: patterns := takeWhile_prefix _
    have hfront : (maskOf front).length ≤ (c :: patterns).length :=
      (length_maskOf_le front).trans hcut.length_le
    obtain ⟨w, hw, hiff⟩ := walk_spec passes {} ⟨_, _, _, _, _, _, Walks.start text (maskOf front)⟩
      ((start_rank_lt _ _).trans_le ((Nat.mul_le_mul_right _ (by omega)).trans hp))
    have hrest : ((c :: patterns).dropWhile (· ≠ semicolon)).tail.length ≤ (c :: patterns).length :=
      length_tail.le.trans ((Nat.sub_le _ _).trans (dropWhile_suffix _).length_le)
    obtain ⟨b, hb, hbiff⟩ := ih ((Nat.mul_le_mul_right _ (by omega)).trans hp)
    rw [hw, bind_eq_bind, bind_some]
    simp only [examined_iff (cons_ne_nil c patterns)]
    by_cases hr : reached text (maskOf front) w = true
    · rw [if_pos hr]
      exact ⟨true, rfl, iff_of_true rfl ⟨front, .inl rfl, hiff.1 hr⟩⟩
    · rw [if_neg hr]
      refine ⟨b, hb, hbiff.trans ⟨?_, ?_⟩⟩
      · rintro ⟨part, hpart, h⟩
        exact ⟨part, .inr hpart, h⟩
      · rintro ⟨part, rfl | hpart, h⟩
        · exact absurd (hiff.2 h) hr
        · exact ⟨part, hpart, h⟩

/-! ## The meaning of a mask -/

/-- `?` is any character, `*` any sequence of them, and `*.*` every name. -/
def Names (part : Str) (name : List Nat) : Prop :=
  trim part = allFiles ∨ Reads question asterisk (scalars (trim part)) name

/-- Some part between the semicolons names it. -/
def Meant (name patterns : Str) : Prop :=
  ∃ part ∈ patterns.splitOn semicolon, Names part (scalars name)

/-- If some part names it, then some part does so with every star that meets a `*` of the name
taking this character alone; and this part is not an empty one at the end of the mask. -/
def Unspoiled (name patterns : Str) : Prop := Meant name patterns →
  ∃ part, Examined patterns part ∧ Steady question asterisk (maskOf part) (scalars name)

theorem scalars_asterisk : scalars [0x2a] = [asterisk] := by
  rw [scalars, scalar]
  simp [following, lower, asterisk, scalars]

theorem reads_asterisk (xs : List Nat) : Reads question asterisk [asterisk] xs :=
  fits_star.2 ⟨xs, [], by rw [append_nil], trivial, .nil⟩

theorem reads_maskOf {xs : List Nat} :
    Reads question asterisk (maskOf part) xs ↔ Names part xs := by
  unfold maskOf Names
  by_cases h : trim part = allFiles
  · rw [if_pos h, scalars_asterisk]
    exact iff_of_true (reads_asterisk xs) (.inl h)
  · rw [if_neg h, or_iff_right h]

/-- No mask is spoiled by a name that is not empty and has no `*`. -/
theorem kept_of_plain (hne : name ≠ []) (hplain : asterisk ∉ scalars name) :
    Unspoiled name patterns := by
  rintro ⟨part, hpart, hnames⟩
  refine ⟨part, ⟨hpart, .inl ?_⟩, (reads_maskOf.2 hnames).steady hplain⟩
  -- an empty part names only the empty name
  rintro rfl
  rcases hnames with hall | hreads
  · exact absurd hall (by decide)
  · have hnil : scalars name = [] := by
      rw [show scalars (trim []) = [] from scalars.eq_1] at hreads
      exact fits_nil.1 hreads
    cases name with
    | nil => exact hne rfl
    | cons first rest =>
      rw [scalars] at hnil
      cases hnil

/-- The loop ends within the passes given for every mask and name. Its result is the meaning of the
mask exactly when the name is not spoiled by a `*` of its own. -/
theorem matchesMask_exactly (name patterns : Str) :
    ∃ b, (∀ passes, (patterns.length + 1) * (name.length + 1) ^ 2 ≤ passes →
        matchesMask passes name patterns = some b) ∧
      ((b = true ↔ Meant name patterns) ↔ Unspoiled name patterns) := by
  have hlen : (patterns.length + 1) * ((scalars name).length + 1) ^ 2 ≤
      (patterns.length + 1) * (name.length + 1) ^ 2 :=
    Nat.mul_le_mul_left _ (Nat.pow_le_pow_left (Nat.succ_le_succ (length_scalars_le name)) 2)
  obtain ⟨b, -, hiff⟩ := matchesFrom_spec (scalars name) patterns hlen
  refine ⟨b, fun passes hp => ?_, ?_⟩
  · obtain ⟨b', hb', hiff'⟩ := matchesFrom_spec (scalars name) patterns (hlen.trans hp)
    rw [matchesMask, hb', Bool.eq_iff_iff.2 (hiff'.trans hiff.symm)]
  · rw [hiff]
    constructor
    · exact fun h => h.2
    · refine fun h => ⟨?_, h⟩
      rintro ⟨part, hp, hr⟩
      exact ⟨part, hp.1, reads_maskOf.1 hr.reads⟩

end

/-- The name `*a` is not found by the mask `*`: the loop takes the star for the letter. -/
theorem star_name_missed :
    ¬(∃ b, (∀ passes, 18 ≤ passes → matchesMask passes [0x2a, 0x61] [0x2a] = some b) ∧
    (b = true ↔ Meant [0x2a, 0x61] [0x2a])) := by
  rintro ⟨b, hb, hiff⟩
  have hfalse : matchesMask 18 [0x2a, 0x61] [0x2a] = some false := by decide +kernel
  obtain rfl : b = false := some.inj ((hb 18 (Nat.le_refl _)).symm.trans hfalse)
  have hm : Meant [0x2a, 0x61] [0x2a] :=
    ⟨[0x2a], by simp [splitOn_eq_singleton (show semicolon ∉ [0x2a] by decide)],
      .inr (by
        rw [show scalars (trim [0x2a]) = [asterisk] by decide +kernel]
        exact reads_asterisk _)⟩
  exact absurd (hiff.2 hm) (by decide)

end Hc.Operations.NameMask
