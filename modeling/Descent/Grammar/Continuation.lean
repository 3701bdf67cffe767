import Descent.Grammar.Value
import Descent.Parser.Sequence

/-!
# Continuations

How a sequence goes on depends on the value of its first step.  A `Continuation` describes this as
data, over whatever stands for parsers: descriptions of parsers, or the parsers themselves.
-/

namespace Descent

/-- A description of how a sequence goes on after its first step, `π` standing for parsers. -/
inductive Continuation (π : Type) where
  /-- Run a parser and pair the two values. -/
  | pair (p : π)
  /-- Read nothing, and pair the value with the cursor where the sequence started. -/
  | start
  /-- Read the text of the value again. -/
  | same
  /-- Run a parser as often as the value asks for. -/
  | times (p : π)
  /-- Run the parser that is listed with the text of the value. -/
  | switch (cases : List (Text × π)) (otherwise : π)

namespace Continuation

variable {src : Source}

/-- The parser a sequence goes on with, for the value of its first step and the place where the
sequence started. -/
def resume : Continuation (Parser src Value) → Value → Stream src → Parser src Value
  | pair p, v, _ => p.map fun w => .list [v, w]
  | start, v, s => .succeed (.list [v, .int s.cursor])
  | same, v, _ => (Parser.literal v.text).map .str
  | times p, v, _ => .sequence .null (List.replicate v.repetitions p)
  | switch cases otherwise, v, _ => (cases.lookup v.text).getD otherwise

end Continuation

end Descent
