import Descent.Text.Bytes

/-!
# Lines

Only a line feed ends a line, and rows and columns count from zero.  `findLine` gives the place of
a byte offset as row, column and line; `nextOnLine` gives what follows the offset on its line, cut
off after a number of characters.
-/

namespace Descent

/-- A place in a text: its row, its column in characters, and the line it lies on. -/
structure LinePlace where
  row : Nat
  column : Nat
  line : Text
deriving DecidableEq, Repr

/-- The part of a text before its first line feed. -/
def untilLineEnd (t : Text) : Text := t.takeWhile (· ≠ '\n')

/-- The part of a text after its last line feed. -/
def sinceLineStart (t : Text) : Text := (untilLineEnd t.reverse).reverse

/-- The row, column and line of a byte offset.  An offset past the end means the end, one inside a
character the start of that character; a line feed lies on the line that it ends. -/
def findLine (t : Text) (offset : Nat) : LinePlace :=
  let (before, after) := splitAtByte offset t
  { row := before.count '\n'
    column := (sinceLineStart before).length
    line := sinceLineStart before ++ untilLineEnd after }

/-- What an excerpt ends with when it leaves something out. -/
def ellipsis : Text := ['.', '.', '.']

/-- The first `width` characters of a text, with an ellipsis if there are more. -/
def clip (width : Nat) (t : Text) : Text :=
  if t.length ≤ width then t else t.take width ++ ellipsis

/-- What follows a byte offset on its line, clipped to `width` characters. -/
def nextOnLine (t : Text) (offset width : Nat) : Text :=
  clip width (untilLineEnd (splitAtByte offset t).2)

@[simp]
theorem untilLineEnd_nil : untilLineEnd [] = [] := rfl

@[simp]
theorem untilLineEnd_newline (t : Text) : untilLineEnd ('\n' :: t) = [] := rfl

theorem untilLineEnd_cons {c : Char} (h : c ≠ '\n') (t : Text) :
    untilLineEnd (c :: t) = c :: untilLineEnd t := by
  simp [untilLineEnd, h]

theorem untilLineEnd_append_dropWhile (t : Text) :
    untilLineEnd t ++ t.dropWhile (· ≠ '\n') = t := List.takeWhile_append_dropWhile

theorem clip_eq_self {width : Nat} {t : Text} (h : t.length ≤ width) : clip width t = t :=
  if_pos h

end Descent
