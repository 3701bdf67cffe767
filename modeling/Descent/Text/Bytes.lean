/-!
# Texts and byte offsets

A text is the list of its characters, while places in it are named by byte offsets into its UTF-8
encoding.  `byteLength` measures a text in bytes, and `splitAtByte` cuts a text at an offset: past
the end it cuts at the end, and inside a character it cuts before that character
(`splitAtByte_fst_append_snd`, `splitAtByte_byteLength`).
-/

namespace Descent

/-- A text is the list of its characters. -/
abbrev Text := List Char

/-- The number of bytes of a text in UTF-8. -/
def byteLength : Text → Nat
  | [] => 0
  | c :: t => c.utf8Size + byteLength t

@[simp]
theorem byteLength_nil : byteLength [] = 0 := rfl

@[simp]
theorem byteLength_cons (c : Char) (t : Text) :
    byteLength (c :: t) = c.utf8Size + byteLength t := rfl

@[simp]
theorem byteLength_append (t u : Text) : byteLength (t ++ u) = byteLength t + byteLength u := by
  induction t with
  | nil => simp
  | cons c t ih => rw [List.cons_append, byteLength_cons, ih, byteLength_cons, Nat.add_assoc]

@[simp]
theorem byteLength_reverse (t : Text) : byteLength t.reverse = byteLength t := by
  induction t with
  | nil => rfl
  | cons c t ih => simp [ih, Nat.add_comm]

/-- The measure is the size of the string of the characters. -/
theorem utf8ByteSize_ofList (t : Text) : (String.ofList t).utf8ByteSize = byteLength t := by
  induction t with
  | nil => rfl
  | cons c t ih =>
    rw [← List.singleton_append, String.ofList_append, String.utf8ByteSize_append, ih,
      ← String.singleton_eq_ofList, String.utf8ByteSize_singleton]
    simp

/-- Only the empty text has no bytes. -/
theorem byteLength_eq_zero_iff (t : Text) : byteLength t = 0 ↔ t = [] := by
  cases t with
  | nil => simp
  | cons c t =>
    have := c.utf8Size_pos
    simp only [byteLength_cons, reduceCtorEq, iff_false]
    omega

/-- An end of a text has at most as many bytes as the text. -/
theorem byteLength_le_of_suffix {t u : Text} (h : t <:+ u) : byteLength t ≤ byteLength u := by
  obtain ⟨r, rfl⟩ := h
  simp

/-! ## Cutting at an offset -/

/-- Cuts a text at the last character boundary that is at most `offset` bytes in. -/
def splitAtByte (offset : Nat) : Text → Text × Text
  | [] => ([], [])
  | c :: t =>
    if c.utf8Size ≤ offset then
      let (before, after) := splitAtByte (offset - c.utf8Size) t
      (c :: before, after)
    else
      ([], c :: t)

@[simp]
theorem splitAtByte_nil (offset : Nat) : splitAtByte offset [] = ([], []) := rfl

theorem splitAtByte_cons (offset : Nat) (c : Char) (t : Text) :
    splitAtByte offset (c :: t) =
      if c.utf8Size ≤ offset then
        (c :: (splitAtByte (offset - c.utf8Size) t).1, (splitAtByte (offset - c.utf8Size) t).2)
      else ([], c :: t) := rfl

/-- A cut loses nothing. -/
theorem splitAtByte_fst_append_snd (offset : Nat) (t : Text) :
    (splitAtByte offset t).1 ++ (splitAtByte offset t).2 = t := by
  induction t generalizing offset with
  | nil => rfl
  | cons c t ih =>
    rw [splitAtByte_cons]
    split
    · simp [ih]
    · rfl

/-- A cut never lies beyond the offset. -/
theorem byteLength_splitAtByte_fst_le (offset : Nat) (t : Text) :
    byteLength (splitAtByte offset t).1 ≤ offset := by
  induction t generalizing offset with
  | nil => simp
  | cons c t ih =>
    rw [splitAtByte_cons]
    split
    · have := ih (offset - c.utf8Size)
      simp only [byteLength_cons]
      omega
    · simp

/-- At a character boundary the cut is exact. -/
theorem splitAtByte_byteLength (t u : Text) : splitAtByte (byteLength t) (t ++ u) = (t, u) := by
  induction t with
  | nil =>
    cases u with
    | nil => rfl
    | cons c u =>
      have := c.utf8Size_pos
      rw [List.nil_append, splitAtByte_cons, byteLength_nil, if_neg (by omega)]
  | cons c t ih =>
    rw [List.cons_append, splitAtByte_cons, byteLength_cons, if_pos (by omega),
      Nat.add_sub_cancel_left, ih]

end Descent
