import Descent.Text.Bytes

/-!
# Classes of characters

The named classes are ASCII classes, except `space`, which is the Unicode property White_Space.
A `CharTest` is a decidable set of characters described by data.
-/

namespace Descent

/-- The characters with the Unicode property White_Space. -/
def isSpace (c : Char) : Bool :=
  let n := c.toNat
  (0x09 ≤ n && n ≤ 0x0D) || n == 0x20 || n == 0x85 || n == 0xA0 || n == 0x1680 ||
    (0x2000 ≤ n && n ≤ 0x200A) || n == 0x2028 || n == 0x2029 || n == 0x202F || n == 0x205F ||
    n == 0x3000

/-- The whitespace of ASCII is whitespace. -/
theorem isSpace_of_isWhitespace {c : Char} (h : c.isWhitespace = true) : isSpace c = true := by
  simp only [Char.isWhitespace, Bool.or_eq_true, decide_eq_true_eq] at h
  rcases h with ((rfl | rfl) | rfl) | rfl <;> decide

/-- The control characters: Unicode category Cc. -/
def isControl (c : Char) : Bool :=
  let n := c.toNat
  n ≤ 0x1F || (0x7F ≤ n && n ≤ 0x9F)

/-- The classes of characters that have a name. -/
inductive CharClass where
  | digit
  | space
  | word
  | letter
  | upper
  | lower
deriving DecidableEq, Repr

namespace CharClass

/-- All named classes. -/
def all : List CharClass := [digit, space, word, letter, upper, lower]

/-- Membership of a character in a class; an underscore is a word character. -/
def holds : CharClass → Char → Bool
  | digit, c => c.isDigit
  | space, c => isSpace c
  | word, c => c.isAlphanum || c == '_'
  | letter, c => c.isAlpha
  | upper, c => c.isUpper
  | lower, c => c.isLower

/-- The classes a character belongs to. -/
def classesOf (c : Char) : List CharClass := all.filter (·.holds c)

theorem mem_all (k : CharClass) : k ∈ all := by cases k <;> decide

theorem mem_classesOf_iff (k : CharClass) (c : Char) : k ∈ classesOf c ↔ k.holds c = true := by
  simp [classesOf, mem_all]

/-- What a parser of the class says it wants. -/
def description : CharClass → String
  | digit => "a digit"
  | space => "whitespace"
  | word => "a word character"
  | letter => "a letter"
  | upper => "an upper case letter"
  | lower => "a lower case letter"

/-- What a parser of all characters outside the class says it wants. -/
def complementDescription : CharClass → String
  | digit => "a non-digit"
  | space => "a non-whitespace character"
  | word => "a non-word character"
  | letter => "a non-letter"
  | upper => "anything but an upper case letter"
  | lower => "anything but a lower case letter"

end CharClass

/-- A set of characters: a named class, a list of characters, or the complement of a set. -/
inductive CharTest where
  | inClass (k : CharClass)
  | oneOf (chars : Text)
  | not (test : CharTest)
deriving Repr

/-- Membership of a character in the set. -/
def CharTest.holds : CharTest → Char → Bool
  | inClass k, c => k.holds c
  | oneOf chars, c => chars.contains c
  | not test, c => !test.holds c

end Descent
