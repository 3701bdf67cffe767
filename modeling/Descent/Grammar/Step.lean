import Descent.Grammar.Value
import Descent.Parser.Program
import Descent.Parser.Sequence

/-!
# Steps with variables

Programs described as data: a list of steps that read and write variables.
-/

namespace Descent

/-- The values of the variables of a program. -/
abbrev Bindings := String → Value

/-- All variables unset. -/
def Bindings.empty : Bindings := fun _ => .null

/-- Stores a value if there is a variable to store it in. -/
def Bindings.store (vars : Bindings) (name : Option String) (v : Value) : Bindings := fun x =>
  if some x = name then v else vars x

/-- A step of a program, `π` standing for parsers. -/
inductive Step (π : Type) where
  /-- Run a parser. -/
  | run (p : π) (target : Option String)
  /-- Run a parser and go on if it fails. -/
  | attempt (p : π) (target : Option String)
  /-- Read the text of a variable. -/
  | same (var : String)
  /-- Store the cursor. -/
  | position (target : String)
  /-- Fail if the value of a variable is longer than a limit. -/
  | failIfLonger (var : String) (limit : Nat)
  /-- Fail unless two variables have the same value. -/
  | failUnlessSame (var other : String)
  /-- Fail. -/
  | fail

namespace Step

variable {src : Source}

/-- Performs a step, and gives the variables after it. -/
def perform (vars : Bindings) : Step (Parser src Value) → Steps src Bindings
  | run p target => do return vars.store target (← Steps.run p)
  | attempt p target => do return vars.store target ((← Steps.attempt p).getD .null)
  | same var => do
    let _ ← Steps.run (.literal (vars var).text)
    return vars
  | position target => do return vars.store (some target) (.int (← Steps.position).cursor)
  | failIfLonger var limit => if limit < (vars var).length then Steps.fail else return vars
  | failUnlessSame var other => if (vars var).same (vars other) then return vars else Steps.fail
  | fail => Steps.fail

/-- Performs steps in order. -/
def performAll (vars : Bindings) : List (Step (Parser src Value)) → Steps src Bindings
  | [] => return vars
  | step :: steps => do performAll (← step.perform vars) steps

end Step

/-- The parser that performs steps and gives the list of the values of some variables. -/
def Parser.ofSteps {src : Source} (steps : List (Step (Parser src Value))) (result : List String) :
    Parser src Value :=
  .program do
    let vars ← Step.performAll .empty steps
    return .list (result.map vars)

end Descent
