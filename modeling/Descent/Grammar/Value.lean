import Descent.Fragment
import Descent.Lexeme.Number

/-!
# Values of grammars

The parsers of a grammar all have values of one type.  A `Kind` says what is known beforehand about
the values of a parser; all it decides is the value that stands in when there is none.
-/

namespace Descent

/-- A value of a parser of a grammar. -/
inductive Value where
  | null
  | char (c : Char)
  | str (t : Text)
  | int (n : Int)
  | float (x : Binary64)
  | list (vs : List Value)
  | absent
  | present (v : Value)

namespace Value

mutual

/-- The text of a value: characters and texts are themselves, integers are in decimal, lists and
options are made up of what they hold, and all else is empty. -/
def text : Value → Text
  | null => []
  | char c => [c]
  | str t => t
  | int n => decimal n
  | float _ => []
  | list vs => texts vs
  | absent => []
  | present v => text v

/-- The texts of values, put together. -/
def texts : List Value → Text
  | [] => []
  | v :: vs => text v ++ texts vs

end

instance : Fragment Value := ⟨text⟩

@[simp]
theorem fragment_text (v : Value) : Fragment.text v = v.text := rfl

theorem texts_eq_flatMap (vs : List Value) : texts vs = vs.flatMap text := by
  induction vs with
  | nil => rfl
  | cons v vs ih => simp [texts, ih]

/-- The length of a value: the characters of a text, the elements of a list or option, and one for
any other value but `null`. -/
def length : Value → Nat
  | null => 0
  | char _ => 1
  | str t => t.length
  | int _ => 1
  | float _ => 1
  | list vs => vs.length
  | absent => 0
  | present _ => 1

/-- The most repetitions an integer asks for. -/
def maxRepetitions : Nat := 100

/-- How many repetitions a value asks for: an integer that many, within bounds, and any other value
as many as it is long. -/
def repetitions : Value → Nat
  | int n => min maxRepetitions n.toNat
  | v => v.length

mutual

/-- Equality of values; numbers are compared as numbers. -/
def same : Value → Value → Bool
  | null, null => true
  | char c, char d => c == d
  | str t, str u => t == u
  | int m, int n => m == n
  | float x, float y => x.same y
  | list vs, list ws => allSame vs ws
  | absent, absent => true
  | present v, present w => same v w
  | _, _ => false

/-- Equality of lists of values. -/
def allSame : List Value → List Value → Bool
  | [], [] => true
  | v :: vs, w :: ws => same v w && allSame vs ws
  | _, _ => false

end

end Value

/-- What is known beforehand about the values of a parser. -/
inductive Kind where
  | char
  | str
  | int
  | float
  | unit
  | list
  | option
  | any
deriving DecidableEq, Repr

namespace Kind

/-- The value that stands in for a missing value of the kind. -/
def default : Kind → Value
  | char => .char (Char.ofNat 0)
  | str => .str []
  | int => .int 0
  | float => .float .zero
  | unit => .null
  | list => .list []
  | option => .absent
  | any => .null

/-- The kind that all of some parsers share, or else `any`. -/
def common : List Kind → Kind
  | [] => any
  | k :: ks => if ks.all (· == k) then k else any

end Kind

end Descent
