import Descent.Failure
import Descent.Text.CharClass
import Descent.Text.Line

/-!
# Reports of failures

`Failure.report` gathers what a reader is told about a failure: the place, the line it lies on, what
was expected there and what stands there instead.  `Report.toString` is the wording.
-/

namespace Descent

/-- Writes a control character visibly, and any other character as itself. -/
def escapeControl (c : Char) : Text :=
  if c = '\t' then ['\\', 't']
  else if c = '\r' then ['\\', 'r']
  else if c = '\n' then ['\\', 'n']
  else if isControl c then ['\\', 'u', '\x7b'] ++ Nat.toDigits 16 c.toNat ++ ['\x7d']
  else [c]

/-- What stands at a place: nothing, or the characters that follow. -/
inductive Saw where
  | endOfInput
  | excerpt (shown : Text)
deriving DecidableEq, Repr

/-- The wording of what stands at a place. -/
def Saw.toText : Saw → Text
  | endOfInput => ['E', 'O', 'F']
  | excerpt shown => ['"'] ++ shown.flatMap escapeControl ++ ['"']

/-- What a reader is told about a failure. -/
structure Report where
  place : LinePlace
  expected : List String
  saw : Saw
deriving DecidableEq, Repr

namespace Report

/-- The line with a marker below the column, or nothing if the line is blank. -/
def excerpt (place : LinePlace) : String :=
  if place.line.all isSpace then ""
  else
    let pad := String.ofList (List.replicate place.column ' ')
    String.ofList place.line ++ "\n" ++ pad ++ "^\n" ++ pad ++ "|\n"

/-- The sentence that says what went wrong. -/
def sentence (expected : List String) (saw : Saw) : String :=
  match expected with
  | [] => "Error: unexpected " ++ String.ofList saw.toText
  | ds => "Error: expected " ++ " or ".intercalate ds ++ ", saw " ++ String.ofList saw.toText

/-- The wording of a report. -/
protected def toString (r : Report) : String :=
  "At line " ++ toString r.place.row ++ ", column " ++ toString r.place.column ++ ":\n\n" ++
    excerpt r.place ++ sentence r.expected r.saw

end Report

namespace Failure

variable {src : Source}

/-- How many characters of the source a report shows when nothing else is asked for. -/
def defaultWidth : Nat := 6

/-- What stands at the place of a failure: up to `width` characters of its line, and at least the
character that the parse stopped at. -/
def saw (f : Failure src) (width : Nat) : Saw :=
  match f.position.rest with
  | [] => .endOfInput
  | c :: _ =>
    match nextOnLine src.text f.cursor width with
    | [] => .excerpt [c]
    | shown => .excerpt shown

/-- The report of a failure. -/
def report (f : Failure src) (width : Nat) : Report :=
  { place := findLine src.text f.cursor
    expected := f.expected
    saw := f.saw width }

/-- The wording of a failure, with an excerpt of the given width. -/
def renderWith (f : Failure src) (width : Nat) : String := (f.report width).toString

/-- The wording of a failure. -/
def render (f : Failure src) : String := f.renderWith defaultWidth

end Failure

end Descent
