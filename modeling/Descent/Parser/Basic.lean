import Descent.Outcome
import Descent.Text.CharClass

/-!
# Parsers

A parser takes a place in a source to an outcome.  This file has the parsers that read at most one
character and those that change the outcome of another parser without running anything else.
-/

namespace Descent

/-- A parser of values of type `α`. -/
abbrev Parser (src : Source) (α : Type) := Stream src → Outcome src (Success src α)

namespace Parser

variable {src : Source} {α β : Type}

/-! ## Without reading -/

/-- Succeeds where it stands, and claims to have matched a text of the caller's choice. -/
def succeedWith (value : α) (matched : Text) : Parser src α := fun input =>
  .success { value, start := input, next := input, matched }

/-- Succeeds where it stands. -/
def succeed (value : α) : Parser src α := succeedWith value []

/-- Fails where it stands. -/
def fail : Parser src α := fun input => .failure (.unexpected input)

/-- Succeeds only where nothing is left to read. -/
def endOfInput : Parser src Unit := fun input =>
  if input.atEnd then succeed () input else .failure (.expecting input "end of file")

theorem succeedWith_apply (value : α) (matched : Text) (input : Stream src) :
    succeedWith value matched input = .success ⟨value, input, input, matched⟩ := rfl

@[simp]
theorem succeed_apply (value : α) (input : Stream src) :
    succeed value input = .success ⟨value, input, input, []⟩ := rfl

@[simp]
theorem fail_apply (input : Stream src) :
    (fail : Parser src α) input = .failure (.unexpected input) := rfl

theorem endOfInput_of_rest_eq_nil {input : Stream src} (h : input.rest = []) :
    endOfInput input = .success ⟨(), input, input, []⟩ := by
  simp [endOfInput, Stream.atEnd, h]

theorem endOfInput_of_rest_ne_nil {input : Stream src} (h : input.rest ≠ []) :
    endOfInput input = .failure (.expecting input "end of file") := by
  simp [endOfInput, Stream.atEnd, h]

/-! ## One character -/

/-- Reads one character that passes a test. -/
def satisfy (test : Char → Bool) : Parser src Char := fun input =>
  match input.uncons with
  | none => .failure (.unexpected input)
  | some (c, next) =>
    if test c then .success { value := c, start := input, next, matched := [c] }
    else .failure (.unexpected input)

/-- Reads any one character. -/
def item : Parser src Char := satisfy fun _ => true

theorem satisfy_of_uncons_eq_none {test : Char → Bool} {input : Stream src}
    (h : input.uncons = none) : satisfy test input = .failure (.unexpected input) := by
  rw [satisfy, h]

theorem satisfy_of_uncons_eq_some {test : Char → Bool} {input next : Stream src} {c : Char}
    (h : input.uncons = some (c, next)) :
    satisfy test input =
      if test c then .success ⟨c, input, next, [c]⟩ else .failure (.unexpected input) := by
  rw [satisfy, h]

/-! ## Changing the outcome -/

/-- Changes the value of a success. -/
def map (f : α → β) (p : Parser src α) : Parser src β := fun input => do
  let success ← p input
  return success.map f

/-- Says in one description what is expected, whatever the parser itself expected. -/
def label (description : String) (p : Parser src α) : Parser src α := fun input =>
  (p input).mapFailure (·.relabel description)

/-- Makes every failure fatal. -/
def cut (p : Parser src α) : Parser src α := fun input => (p input).mapFailure Failure.escalate

/-- Runs a parser and goes back to where it started, keeping its value and its text. -/
def peek (p : Parser src α) : Parser src α := fun input => do
  let success ← p input
  return { success with start := input, next := input }

/-- Runs a parser and goes back to the beginning of the source, keeping its value and its text. -/
def rewind (p : Parser src α) : Parser src α := fun input => do
  let success ← p input
  return { success with next := .first src }

section Apply

variable {p : Parser src α} {input : Stream src} {s : Success src α} {f : Failure src}

theorem map_of_success (g : α → β) (h : p input = .success s) :
    map g p input = .success (s.map g) := by
  rw [map, h, Outcome.success_bind, Outcome.pure_eq_success]

theorem map_of_failure (g : α → β) (h : p input = .failure f) : map g p input = .failure f := by
  rw [map, h, Outcome.failure_bind]

theorem map_of_undecided (g : α → β) (h : p input = .undecided) :
    map g p input = .undecided := by
  rw [map, h, Outcome.undecided_bind]

theorem label_of_success (description : String) (h : p input = .success s) :
    label description p input = .success s := by
  rw [label, h, Outcome.mapFailure_success]

theorem label_of_failure (description : String) (h : p input = .failure f) :
    label description p input = .failure (f.relabel description) := by
  rw [label, h, Outcome.mapFailure_failure]

theorem cut_of_success (h : p input = .success s) : cut p input = .success s := by
  rw [cut, h, Outcome.mapFailure_success]

theorem cut_of_failure (h : p input = .failure f) : cut p input = .failure f.escalate := by
  rw [cut, h, Outcome.mapFailure_failure]

end Apply

/-! ## Named characters -/

/-- Reads a character of a class. -/
def ofClass (k : CharClass) : Parser src Char := label k.description (satisfy k.holds)

/-- Reads a character outside a class. -/
def notOfClass (k : CharClass) : Parser src Char :=
  label k.complementDescription (satisfy fun c => !k.holds c)

/-- Reads a given character. -/
def char (c : Char) : Parser src Char :=
  label ("the character \"" ++ c.toString ++ "\"") (satisfy (· == c))

/-- Reads any character but a given one. -/
def notChar (c : Char) : Parser src Char :=
  label ("anything but the character \"" ++ c.toString ++ "\"") (satisfy (· != c))

end Parser

end Descent
