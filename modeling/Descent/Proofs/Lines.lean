import Mathlib.Algebra.GroupWithZero.Nat
import Mathlib.Data.List.Induction
import Mathlib.Data.Nat.Find
import Mathlib.Data.Prod.Lex
import Mathlib.Order.Bounds.Defs
import Descent.Proofs.Slicing

/-!
# Rows and columns

A byte offset stands for the greatest character boundary that it does not lie before
(`isGreatest_clampToBoundary`), and a row and a column stand for a byte offset: the bytes of the
lines before the row, each with its line feed, and those of the characters before the column
(`offsetOf`).  `findLine` undoes this (`findLine_locates`), so rows and columns are in the order of
the offsets.

Everything about lines comes from one cut of a text (`exists_lines_around`): before the cut stand
some finished lines and the beginning of a line, and after it the rest of that line.  The rest can
be read character by character as well, with a count of those that may still be shown
(`excerptAt?`), and gives the same excerpt as the line and the column
(`nextOnLine_agrees_findLine`).
-/

namespace Descent

variable {t u : Text}

/-! ## The boundary of an offset -/

/-- A cut that is not before the end of a text lies in what follows it. -/
theorem splitAtByte_append {offset : Nat} (h : byteLength t ≤ offset) (u : Text) :
    splitAtByte offset (t ++ u) = (t ++ (splitAtByte (offset - byteLength t) u).1,
      (splitAtByte (offset - byteLength t) u).2) := by
  induction t generalizing offset with
  | nil => rfl
  | cons c t ih =>
    rw [byteLength_cons] at h
    rw [List.cons_append, splitAtByte_cons, if_pos (by omega), ih (by omega), byteLength_cons,
      Nat.sub_add_eq]
    rfl

theorem isBoundary_clampToBoundary (t : Text) (offset : Nat) :
    IsBoundary t (clampToBoundary t offset) :=
  ⟨_, _, (splitAtByte_fst_append_snd offset t).symm, rfl⟩

theorem IsBoundary.le_clampToBoundary {n offset : Nat} (h : IsBoundary t n) (hle : n ≤ offset) :
    n ≤ clampToBoundary t offset := by
  obtain ⟨before, after, rfl, rfl⟩ := h
  rw [clampToBoundary, splitAtByte_append hle, byteLength_append]
  exact Nat.le_add_right _ _

theorem isGreatest_clampToBoundary (t : Text) (offset : Nat) :
    IsGreatest {n | IsBoundary t n ∧ n ≤ min offset (byteLength t)} (clampToBoundary t offset) := by
  have hboundary := isBoundary_clampToBoundary t offset
  constructor
  · exact ⟨hboundary, Nat.le_min.2 ⟨byteLength_splitAtByte_fst_le offset t, hboundary.le⟩⟩
  · rintro n ⟨hn, hle⟩
    exact hn.le_clampToBoundary (Nat.le_min.1 hle).1

theorem clampToBoundary_mono (t : Text) {offset offset' : Nat} (h : offset ≤ offset') :
    clampToBoundary t offset ≤ clampToBoundary t offset' := by
  apply (isBoundary_clampToBoundary t offset).le_clampToBoundary
  exact Nat.le_trans (byteLength_splitAtByte_fst_le offset t) h

theorem isBoundary_iff (t : Text) (n : Nat) : IsBoundary t n ↔ clampToBoundary t n = n := by
  constructor
  · intro h
    exact Nat.le_antisymm (byteLength_splitAtByte_fst_le n t) (h.le_clampToBoundary (Nat.le_refl n))
  · intro h
    exact h ▸ isBoundary_clampToBoundary t n

instance (t : Text) : DecidablePred (IsBoundary t) :=
  fun n => decidable_of_iff _ (isBoundary_iff t n).symm

/-- Stepping back byte by byte, from the offset or the end of the text, finds the boundary. -/
theorem findGreatest_isBoundary (t : Text) (offset : Nat) :
    Nat.findGreatest (IsBoundary t) (min offset (byteLength t)) = clampToBoundary t offset := by
  obtain ⟨⟨hboundary, hle⟩, hgreatest⟩ := isGreatest_clampToBoundary t offset
  apply Nat.le_antisymm
  · exact hgreatest ⟨Nat.findGreatest_spec hle hboundary, Nat.findGreatest_le _⟩
  · exact Nat.le_findGreatest hle hboundary

/-! ## Lines -/

/-- The lines of a text are what its line feeds keep apart. -/
def lines (t : Text) : List Text := t.splitOn '\n'

theorem lines_of_not_mem (h : '\n' ∉ t) : lines t = [t] := List.splitOn_eq_singleton h

theorem lines_append_newline (h : '\n' ∉ t) (u : Text) : lines (t ++ '\n' :: u) = t :: lines u :=
  List.splitOn_append_cons_self_of_not_mem h u

theorem newline_not_mem_untilLineEnd (t : Text) : '\n' ∉ untilLineEnd t := by
  intro h
  have hall := List.all_eq_true.1 (List.all_takeWhile (p := (· ≠ '\n')) (l := t)) '\n' h
  simp at hall

theorem newline_not_mem_sinceLineStart (t : Text) : '\n' ∉ sinceLineStart t := by
  rw [sinceLineStart, List.mem_reverse]
  exact newline_not_mem_untilLineEnd _

theorem sinceLineStart_append_singleton (t : Text) (c : Char) :
    sinceLineStart (t ++ [c]) = if c = '\n' then [] else sinceLineStart t ++ [c] := by
  rw [sinceLineStart, List.reverse_append, List.reverse_singleton, List.singleton_append]
  split
  · subst c
    rfl
  · rw [untilLineEnd_cons ‹_›, List.reverse_cons, sinceLineStart]

/-- A text without line feeds goes on with the line that it is put behind. -/
theorem sinceLineStart_append (t : Text) (h : '\n' ∉ u) :
    sinceLineStart (t ++ u) = sinceLineStart t ++ u := by
  rw [sinceLineStart, List.reverse_append, untilLineEnd_append, if_neg (by simpa using h),
    List.reverse_append, List.reverse_reverse, sinceLineStart]

/-- A text without line feeds begins the first line of what it is put before. -/
theorem exists_lines_append (h : '\n' ∉ t) (u : Text) :
    ∃ later, lines (t ++ u) = (t ++ untilLineEnd u) :: later := by
  induction u generalizing t with
  | nil => exact ⟨[], by rw [untilLineEnd_nil, List.append_nil, lines_of_not_mem h]⟩
  | cons c u ih =>
    by_cases hc : c = '\n'
    · subst hc
      exact ⟨lines u, by rw [lines_append_newline h, untilLineEnd_newline, List.append_nil]⟩
    · have hnot : '\n' ∉ t ++ [c] := by simp [h, Ne.symm hc]
      obtain ⟨later, hlater⟩ := ih hnot
      refine ⟨later, ?_⟩
      rw [List.append_cons, hlater, untilLineEnd_cons hc, ← List.append_cons]

/-- The text of some lines, each with the line feed that ends it. -/
def finished (ls : List Text) : Text := ls.flatMap (· ++ ['\n'])

theorem finished_append (ls ls' : List Text) : finished (ls ++ ls') = finished ls ++ finished ls' :=
  List.flatMap_append

theorem finished_singleton (l : Text) : finished [l] = l ++ ['\n'] := List.flatMap_singleton _ l

theorem byteLength_finished (ls : List Text) :
    byteLength (finished ls) = (ls.map fun l => byteLength l + 1).sum := by
  induction ls with
  | nil => rfl
  | cons l ls ih =>
    rw [finished, List.flatMap_cons, byteLength_append, byteLength_append, List.map_cons,
      List.sum_cons, ← ih]
    rfl

theorem lines_finished_append {ls : List Text} (h : ∀ l ∈ ls, '\n' ∉ l) (u : Text) :
    lines (finished ls ++ u) = ls ++ lines u := by
  induction ls with
  | nil => rfl
  | cons l ls ih =>
    obtain ⟨hl, hls⟩ := List.forall_mem_cons.1 h
    rw [finished, List.flatMap_cons, List.append_assoc, List.append_assoc, List.singleton_append,
      lines_append_newline hl, List.cons_append, ← ih hls]
    rfl

/-- Before the end of a text stand finished lines, one for each line feed, and the line it stops
in. -/
theorem exists_finished (t : Text) :
    ∃ ls, t = finished ls ++ sinceLineStart t ∧ (∀ l ∈ ls, '\n' ∉ l) ∧
      ls.length = t.count '\n' := by
  induction t using List.reverseRecOn with
  | nil => exact ⟨[], rfl, by simp, rfl⟩
  | append_singleton t c ih =>
    obtain ⟨ls, ht, hls, hlength⟩ := ih
    rw [sinceLineStart_append_singleton, List.count_append, ← hlength]
    by_cases hc : c = '\n'
    · subst hc
      refine ⟨ls ++ [sinceLineStart t], ?_, ?_, by simp⟩
      · rw [if_pos rfl, finished_append, finished_singleton, List.append_nil, ← List.append_assoc,
          ← ht]
      · intro l hl
        rcases List.mem_append.1 hl with hl | hl
        · exact hls l hl
        · rw [List.mem_singleton.1 hl]
          exact newline_not_mem_sinceLineStart t
    · refine ⟨ls, ?_, hls, by simp [hc]⟩
      rw [if_neg hc, ← List.append_assoc, ← ht]

/-- The lines of a text around a place in it. -/
theorem exists_lines_around (before after : Text) :
    ∃ earlier later, before = finished earlier ++ sinceLineStart before ∧
      earlier.length = before.count '\n' ∧
      lines (before ++ after) =
        earlier ++ (sinceLineStart before ++ untilLineEnd after) :: later := by
  obtain ⟨earlier, hbefore, hearlier, hlength⟩ := exists_finished before
  obtain ⟨later, hlater⟩ := exists_lines_append (newline_not_mem_sinceLineStart before) after
  refine ⟨earlier, later, hbefore, hlength, ?_⟩
  rw [← hlater, ← lines_finished_append hearlier, ← List.append_assoc, ← hbefore]

/-! ## Bytes -/

/-- The bytes of a text in UTF-8. -/
def utf8 (t : Text) : List UInt8 := t.flatMap String.utf8EncodeChar

theorem utf8_append (t u : Text) : utf8 (t ++ u) = utf8 t ++ utf8 u := List.flatMap_append

theorem length_utf8 (t : Text) : (utf8 t).length = byteLength t := by
  induction t with
  | nil => rfl
  | cons c t ih =>
    rw [utf8, List.flatMap_cons, List.length_append, String.length_utf8EncodeChar, byteLength_cons,
      ← ih]
    rfl

theorem ten_ne_ofNat {n : Nat} (h : n < 256) (hn : n ≠ 10) : (10 : UInt8) ≠ UInt8.ofNat n := by
  intro heq
  apply hn
  rw [← UInt8.toNat_ofNat_of_lt' h, ← heq]
  rfl

/-- Only a line feed has the byte 10: the bytes of a character that has several are above 127. -/
theorem ten_not_mem_utf8EncodeChar {c : Char} (hc : c ≠ '\n') : 10 ∉ String.utf8EncodeChar c := by
  have hval : c.val.toNat ≠ 10 := fun h => hc (Char.ext (UInt32.toNat_inj.1 h))
  simp only [String.utf8EncodeChar]
  split_ifs <;> simp only [List.mem_cons, List.not_mem_nil, or_false, not_or]
  · exact ten_ne_ofNat (by omega) hval
  · refine ⟨ten_ne_ofNat ?_ ?_, ten_ne_ofNat ?_ ?_⟩ <;> omega
  · refine ⟨ten_ne_ofNat ?_ ?_, ten_ne_ofNat ?_ ?_, ten_ne_ofNat ?_ ?_⟩ <;> omega
  · refine ⟨ten_ne_ofNat ?_ ?_, ten_ne_ofNat ?_ ?_, ten_ne_ofNat ?_ ?_, ten_ne_ofNat ?_ ?_⟩ <;>
      omega

theorem count_utf8 (t : Text) : (utf8 t).count 10 = t.count '\n' := by
  induction t with
  | nil => rfl
  | cons c t ih =>
    rw [utf8, List.flatMap_cons, List.count_append]
    by_cases hc : c = '\n'
    · subst hc
      rw [List.count_cons_self, ← ih, Nat.add_comm]
      rfl
    · rw [List.count_cons_of_ne hc, ← ih, List.count_eq_zero.2 (ten_not_mem_utf8EncodeChar hc),
        Nat.zero_add]
      rfl

/-! ## Places -/

/-- The byte offset of a column of a row, among given lines. -/
def offsetOf (ls : List Text) (row column : Nat) : Nat :=
  ((ls.take row).map fun l => byteLength l + 1).sum + byteLength ((ls.getD row []).take column)

/-- The row and the column after a text grow with the text. -/
theorem place_mono (before middle : Text) :
    toLex (before.count '\n', (sinceLineStart before).length) ≤
      toLex ((before ++ middle).count '\n', (sinceLineStart (before ++ middle)).length) := by
  rw [Prod.Lex.toLex_le_toLex, List.count_append]
  by_cases hmiddle : '\n' ∈ middle
  · have hcount := List.count_pos_iff.2 hmiddle
    left
    show _ < _ + _
    omega
  · right
    rw [List.count_eq_zero.2 hmiddle, sinceLineStart_append before hmiddle, List.length_append]
    exact ⟨rfl, Nat.le_add_right _ _⟩

/-- The part of a text before a boundary grows with the offset. -/
theorem exists_fst_splitAtByte_eq_append (t : Text) {offset offset' : Nat} (h : offset ≤ offset') :
    ∃ middle, (splitAtByte offset' t).1 = (splitAtByte offset t).1 ++ middle := by
  have hwhole := (splitAtByte_fst_append_snd offset t).trans
    (splitAtByte_fst_append_snd offset' t).symm
  obtain ⟨middle, hmiddle, -⟩ := exists_append_of_byteLength_le hwhole (clampToBoundary_mono t h)
  exact ⟨middle, hmiddle⟩

theorem column_le_length_line (t : Text) (offset : Nat) :
    (findLine t offset).column ≤ (findLine t offset).line.length :=
    (List.prefix_append _ _).length_le

theorem newline_not_mem_line (t : Text) (offset : Nat) : '\n' ∉ (findLine t offset).line := by
  intro h
  rcases List.mem_append.1 h with h | h
  · exact newline_not_mem_sinceLineStart _ h
  · exact newline_not_mem_untilLineEnd _ h

theorem clampToBoundary_eq_offsetOf (t : Text) (offset : Nat) :
    (lines t)[(findLine t offset).row]? = some (findLine t offset).line ∧
      clampToBoundary t offset =
        offsetOf (lines t) (findLine t offset).row (findLine t offset).column := by
  obtain ⟨earlier, later, hbefore, hlength, hlines⟩ :=
    exists_lines_around (splitAtByte offset t).1 (splitAtByte offset t).2
  rw [splitAtByte_fst_append_snd] at hlines
  have hline : (lines t)[(findLine t offset).row]? = some (findLine t offset).line := by
    show (lines t)[(splitAtByte offset t).1.count '\n']? = _
    rw [hlines, ← hlength, List.getElem?_append_right (Nat.le_refl _), Nat.sub_self]
    rfl
  refine ⟨hline, ?_⟩
  have hearlier : (lines t).take (findLine t offset).row = earlier := by
    show (lines t).take ((splitAtByte offset t).1.count '\n') = _
    rw [hlines, ← hlength, List.take_left]
  have hcolumn : (findLine t offset).line.take (findLine t offset).column =
      sinceLineStart (splitAtByte offset t).1 := List.take_left
  rw [offsetOf, hearlier, List.getD_eq_getElem?_getD, hline, Option.getD_some, hcolumn,
    ← byteLength_finished, ← byteLength_append, ← hbefore]
  rfl

/-- **Location.**  The boundary that an offset stands for is the greatest one not beyond it; its row
is the number of line feeds before it, its line is the one that a split at line feeds has in that
row, and the bytes before it are those of the earlier lines and of the characters before its column.
So no two boundaries have the same row and column, and rows and columns are in the order of the
offsets. -/
theorem findLine_locates (t : Text) (offset : Nat) :
    let place := findLine t offset
    let boundary := clampToBoundary t offset
    findLine? t offset = some place ∧
      IsGreatest {n | IsBoundary t n ∧ n ≤ min offset (byteLength t)} boundary ∧
      ((utf8 t).take boundary).count 10 = place.row ∧
      (lines t)[place.row]? = some place.line ∧
      place.column ≤ place.line.length ∧
      boundary = offsetOf (lines t) place.row place.column ∧
      (∀ offset', (findLine t offset').row = place.row →
        (findLine t offset').column = place.column →
        clampToBoundary t offset' = boundary) ∧
      ∀ offset', offset ≤ offset' → toLex (place.row, place.column) ≤
        toLex ((findLine t offset').row, (findLine t offset').column) := by
  intro place boundary
  obtain ⟨hline, hoffset⟩ := clampToBoundary_eq_offsetOf t offset
  refine ⟨findLine?_eq t offset, isGreatest_clampToBoundary t offset, ?_, hline,
    column_le_length_line t offset, hoffset, ?_, ?_⟩
  · have hbytes : utf8 t = utf8 (splitAtByte offset t).1 ++ utf8 (splitAtByte offset t).2 := by
      rw [← utf8_append, splitAtByte_fst_append_snd]
    show ((utf8 t).take (byteLength (splitAtByte offset t).1)).count 10 = _
    rw [hbytes, ← length_utf8, List.take_left, count_utf8]
    rfl
  · intro offset' hrow hcolumn
    rw [(clampToBoundary_eq_offsetOf t offset').2, hrow, hcolumn]
    exact hoffset.symm
  · intro offset' hle
    obtain ⟨middle, hmiddle⟩ := exists_fst_splitAtByte_eq_append t hle
    show _ ≤ toLex ((splitAtByte offset' t).1.count '\n',
      (sinceLineStart (splitAtByte offset' t).1).length)
    rw [hmiddle]
    exact place_mono _ middle

/-- An offset inside a character of two bytes, behind another one and a line feed. -/
theorem findLine_locates_inside_character :
    let t : Text := ['é', '\n', 'ñ', 'x']
    (findLine t 4).row = 1 ∧ (findLine t 4).column = 0 ∧ clampToBoundary t 4 = 3 ∧
      offsetOf (lines t) 1 0 = 3 ∧
      ((findLine t 3).row = (findLine t 4).row ∧ (findLine t 3).column = (findLine t 4).column ∧
        clampToBoundary t 3 = clampToBoundary t 4) ∧
      4 ≤ 100 ∧ toLex ((findLine t 4).row, (findLine t 4).column) ≤
        toLex ((findLine t 100).row, (findLine t 100).column) := by
  intro t
  obtain ⟨-, -, -, -, -, hoffset, hsame, hmono⟩ := findLine_locates t 4
  have hboundary : clampToBoundary t 4 = 3 := by decide
  refine ⟨by decide, by decide, hboundary, ?_, ⟨by decide, by decide, ?_⟩, by decide, ?_⟩
  · exact hoffset.symm.trans hboundary
  · exact hsame 3 (by decide) (by decide)
  · exact hmono 100 (by decide)

/-! ## Excerpts -/

/-- Reads up to `width` characters that are no line feeds and puts them behind `out`; gives back
what was read and what is left. -/
def readOn : Nat → Text → Text → Text × Text
  | 0, out, rest => (out, rest)
  | _ + 1, out, [] => (out, [])
  | width + 1, out, c :: rest =>
    if c = '\n' then (out, c :: rest) else readOn width (out ++ [c]) rest

/-- What was read on a line, with an ellipsis if the line goes on. -/
def readOff (width : Nat) (out rest : Text) : Text :=
  let (read, left) := readOn width out rest
  if left.head?.any (· ≠ '\n') then read ++ ellipsis else read

/-- What follows a byte offset on its line, read character by character from the boundary that
stepping back from the offset finds. -/
def excerptAt? (t : Text) (offset width : Nat) : Option Text := do
  let rest ← restAt? t (Nat.findGreatest (IsBoundary t) (min offset (byteLength t)))
  return readOff width [] rest

theorem clip_cons (width : Nat) (c : Char) (t : Text) :
    clip (width + 1) (c :: t) = c :: clip width t := by
  simp only [clip, List.length_cons, Nat.add_le_add_iff_right, List.take_succ_cons,
    List.cons_append]
  split <;> rfl

/-- The loop reads what is left of the line, clipped: by induction on the characters to come, with
the width and the buffer general. -/
theorem readOff_eq (width : Nat) (out rest : Text) :
    readOff width out rest = out ++ clip width (untilLineEnd rest) := by
  induction rest generalizing width out with
  | nil => cases width <;> simp [readOff, readOn, clip]
  | cons c rest ih =>
    by_cases hc : c = '\n'
    · subst hc
      cases width <;> simp [readOff, readOn, clip]
    · rw [untilLineEnd_cons hc]
      cases width with
      | zero => simp [readOff, readOn, clip, hc]
      | succ width =>
        have hstep : readOff (width + 1) out (c :: rest) = readOff width (out ++ [c]) rest := by
          simp only [readOff, readOn, if_neg hc]
        rw [hstep, ih, clip_cons, List.append_assoc, List.singleton_append]

theorem excerptAt?_eq (t : Text) (offset width : Nat) :
    excerptAt? t offset width = some (nextOnLine t offset width) := by
  have hrest := restAt?_append (splitAtByte offset t).1 (splitAtByte offset t).2
  rw [splitAtByte_fst_append_snd] at hrest
  rw [excerptAt?, findGreatest_isBoundary, clampToBoundary, hrest]
  exact congrArg some (readOff_eq width [] _)

/-- The line of an offset without the characters before the column is what follows on the line. -/
theorem drop_column_line (t : Text) (offset : Nat) :
    (findLine t offset).line.drop (findLine t offset).column =
      untilLineEnd (splitAtByte offset t).2 :=
  List.drop_left

/-- **Excerpts.**  What is read character by character from an offset on, up to `width` characters,
and what a search for line feeds on both sides of the offset finds as its line and column fit
together: the excerpt is the line without the characters before the column, cut off with an ellipsis
if more than `width` of them are left. -/
theorem nextOnLine_agrees_findLine (t : Text) (offset width : Nat) :
    ∃ place excerpt, findLine? t offset = some place ∧ findLine t offset = place ∧
      excerptAt? t offset width = some excerpt ∧ nextOnLine t offset width = excerpt ∧
      excerpt =
        if (place.line.drop place.column).length ≤ width then place.line.drop place.column
        else (place.line.drop place.column).take width ++ ['.', '.', '.'] := by
  refine ⟨_, _, findLine?_eq t offset, rfl, excerptAt?_eq t offset width, rfl, ?_⟩
  rw [drop_column_line]
  rfl

end Descent
