import Descent.Parser.Program
import Descent.Parser.Repeat

/-!
# Quoted texts

A quoted text stands between double quotes; inside, a backslash stands before a character that is
to be taken as it is.  `quote` writes the form that needs the fewest backslashes.
-/

namespace Descent

/-- One character of a quoted text as it is written. -/
def quoteChar (c : Char) : Text := if c = '"' ∨ c = '\\' then ['\\', c] else [c]

/-- Writes a text in double quotes. -/
def quote (t : Text) : Text := ['"'] ++ t.flatMap quoteChar ++ ['"']

namespace Parser

variable {src : Source}

/-- One character of a quoted text: the one after a backslash, or any but a quote. -/
def quotedItem : Parser src Char := orElse ((char '\\').andThen item) (notChar '"')

/-- Reads a quoted text and gives what was quoted. -/
def quoted : Parser src Text := label "a quoted string" <| program do
  let _ ← Steps.run (char '"')
  let content ← Steps.run (many quotedItem)
  let _ ← Steps.run (char '"')
  return content

end Parser

end Descent
