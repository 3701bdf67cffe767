import Descent.Parser.Basic

/-!
# Executions

Running a parser from the beginning of a source, with a record of the event it gives rise to, and
running several parsers one after another.
-/

namespace Descent

/-- What is recorded about a parse. -/
inductive Event where
  /-- The parse succeeded and ended at this cursor. -/
  | succeeded (consumed : Nat)
  /-- The parse failed at this cursor, fatally or not, and this is what was expected there. -/
  | failed (cursor : Nat) (fatal : Bool) (expected : List String)
deriving DecidableEq, Repr

namespace Event

/-- How important an event is. -/
def level : Event → String
  | succeeded _ => "TRACE"
  | failed _ _ _ => "DEBUG"

/-- What an event says. -/
def message : Event → String
  | succeeded _ => "parse succeeded"
  | failed _ _ _ => "parse failed"

/-- What an event says about one detail. -/
inductive Detail where
  | number (n : Nat)
  | flag (b : Bool)
  | texts (ts : List String)
deriving DecidableEq, Repr

/-- The details of an event, with their names. -/
def details : Event → List (String × Detail)
  | succeeded consumed => [("consumed", .number consumed)]
  | failed cursor fatal expected =>
    [("cursor", .number cursor), ("fatal", .flag fatal), ("expected", .texts expected)]

/-- A number or a flag as it is printed. -/
def Detail.printed? : Detail → Option String
  | number n => some (toString n)
  | flag b => some (toString b)
  | texts _ => none

/-- The details of an event that are numbers or flags, as they are printed. -/
def fields (e : Event) : List (String × String) :=
  e.details.filterMap fun (name, detail) => detail.printed?.map fun text => (name, text)

variable {src : Source} {α : Type}

/-- The events an outcome gives rise to: one, unless it is undecided. -/
def ofOutcome : Outcome src (Success src α) → List Event
  | .success s => [succeeded s.next.cursor]
  | .failure f => [failed f.cursor f.fatal f.expected]
  | .undecided => []

end Event

/-- The result of running a parser, and the events recorded. -/
structure Execution (src : Source) (α : Type) where
  result : Outcome src α
  log : List Event

namespace Parser

variable {src : Source} {α : Type}

/-- Runs a parser from the beginning. -/
def execute (p : Parser src α) : Execution src α :=
  let outcome := p (.first src)
  { result := do return (← outcome).value
    log := Event.ofOutcome outcome }

/-- Requires that nothing is left to read after a parser. -/
def complete (p : Parser src α) : Parser src α := fun input => do
  let success ← p input
  let last ← endOfInput success.next
  return { success with next := last.next }

/-- Runs a parser from the beginning over the whole source. -/
def executeComplete (p : Parser src α) : Execution src α := execute (complete p)

section Execute

variable {p : Parser src α} {s : Success src α} {f : Failure src}

/-- A parser that succeeds is reported with its value and the cursor where it ended. -/
theorem execute_of_success (h : p (.first src) = .success s) :
    p.execute = ⟨.success s.value, [.succeeded s.next.cursor]⟩ := by
  simp only [execute, h, Event.ofOutcome, Outcome.success_bind, Outcome.pure_eq_success]

/-- A parser that fails is reported with its failure, and the event has the whole of it. -/
theorem execute_of_failure (h : p (.first src) = .failure f) :
    p.execute = ⟨.failure f, [.failed f.cursor f.fatal f.expected]⟩ := by
  simp only [execute, h, Event.ofOutcome, Outcome.failure_bind]

variable {input : Stream src}

theorem complete_of_success (h : p input = .success s) (hend : s.next.rest = []) :
    p.complete input = .success s := by
  rw [complete, h, Outcome.success_bind, endOfInput_of_rest_eq_nil hend]
  rfl

/-- Where something is left to read, the end of the text is expected. -/
theorem complete_of_rest_ne_nil (h : p input = .success s) (hrest : s.next.rest ≠ []) :
    p.complete input = .failure (.expecting s.next "end of file") := by
  rw [complete, h, Outcome.success_bind, endOfInput_of_rest_ne_nil hrest, Outcome.failure_bind]

theorem complete_of_failure (h : p input = .failure f) : p.complete input = .failure f := by
  rw [complete, h, Outcome.failure_bind]

end Execute

/-- Runs parsers one after another, each from where the last success ended. -/
def inTurn (input : Stream src) : List (Parser src α) → List (Outcome src (Success src α))
  | [] => []
  | p :: ps =>
    let outcome := p input
    outcome :: match outcome with
      | .success s => inTurn s.next ps
      | _ => inTurn input ps

end Parser

end Descent
