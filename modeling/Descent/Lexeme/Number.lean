import Descent.Binary64
import Descent.Parser.Program
import Descent.Parser.Repeat

/-!
# Numbers

Decimal integers that fit into 64 bits, and decimal numbers read as binary64.  `decimal` writes an
integer the way `Parser.integer` reads it.
-/

namespace Descent

/-- An integer in decimal, with a minus sign if it is negative. -/
def decimal (n : Int) : Text :=
  if n < 0 then '-' :: Nat.toDigits 10 n.natAbs else Nat.toDigits 10 n.natAbs

namespace Parser

variable {src : Source}

/-- The integers of 64 bits. -/
def isInt64 (n : Int) : Bool := -0x8000000000000000 ≤ n && n < 0x8000000000000000

/-- The number that decimal digits stand for. -/
def digitsValue (digits : Text) : Nat := Nat.ofDigitChars 10 digits 0

/-- An integer: a minus sign or none, and digits.  It fails after the digits if the number is out of
range. -/
def integer : Parser src Int := label "an integer" <| program do
  let sign ← Steps.run (optional (char '-'))
  let digits ← Steps.run (many1 (ofClass .digit))
  let magnitude : Int := digitsValue digits
  let value := if sign.isSome then -magnitude else magnitude
  if isInt64 value then return value else Steps.fail

/-- A number: a minus sign or none, digits, and a point followed by digits or none; one of the two
runs of digits must be there. -/
def number : Parser src Binary64 := label "a number" <| program do
  let sign ← Steps.run (optional (char '-'))
  let whole ← Steps.run (many (ofClass .digit))
  let fraction ← Steps.run (optional ((char '.').andThen (many1 (ofClass .digit))))
  if whole.isEmpty && fraction.isNone then Steps.fail
  else
    let decimals := fraction.getD []
    return .ofRatio sign.isSome (digitsValue (whole ++ decimals)) (Nat.pow 10 decimals.length)

end Parser

end Descent
