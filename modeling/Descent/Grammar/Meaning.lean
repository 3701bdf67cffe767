import Descent.Grammar.Expr
import Descent.Lexeme.Quoted

/-!
# The meaning of grammars

A parsing expression stands for a parser, given parsers for the rules it refers to.  A grammar is a
table of rules that may refer to each other; following references at most `depth` deep turns it
into parsers that always return, with the outcome `undecided` where the depth was used up.

A rule that is entered again at the same place before it has returned will be entered there for
ever.  So a source with `n` characters and a grammar with `k` rules need depth `k * (n + 1)` at
most, and one more to find that a name is not in the table; `Grammar.parser` takes just that.
-/

namespace Descent

namespace Expr

variable {src : Source}

mutual

/-- The parser an expression stands for. -/
def toParser (rules : String → Parser src Value) : Expr → Parser src Value
  | item => Parser.item.map .char
  | ofClass k => (Parser.ofClass k).map .char
  | notOfClass k => (Parser.notOfClass k).map .char
  | char c => (Parser.char c).map .char
  | notChar c => (Parser.notChar c).map .char
  | satisfy test => (Parser.satisfy test.holds).map .char
  | spaces => Parser.spaces.map .str
  | spaces1 => Parser.spaces1.map .str
  | notSpaces => Parser.notSpaces.map .str
  | notSpaces1 => Parser.notSpaces1.map .str
  | literal t => (Parser.literal t).map .str
  | integer => Parser.integer.map .int
  | number => Parser.number.map .float
  | quoted => Parser.quoted.map .str
  | endOfInput => Parser.endOfInput.map fun _ => .null
  | succeed v matched => .succeedWith v matched
  | default k => .succeed k.default
  | fail _ => .fail
  | map f e => .map f.apply (toParser rules e)
  | label description e => .label description (toParser rules e)
  | cut e => .cut (toParser rules e)
  | cutAfter guard rest => .cutAfter (toParser rules guard) (toParser rules rest)
  | orElse left right => .orElse (toParser rules left) (toParser rules right)
  | choice es => .choice (toParsers rules es)
  | andThen first second => .andThen (toParser rules first) (toParser rules second)
  | bind first next => .bind (toParser rules first) (toContinuation rules next).resume
  | sequence empty es => .sequence empty.default (toParsers rules es)
  | concat es => .map .str (.concat (toParsers rules es))
  | many e => .map .str (.many (toParser rules e))
  | many1 e => .map .str (.many1 (toParser rules e))
  | collect e => .map .list (.collect (toParser rules e))
  | collect1 e => .map .list (.collect1 (toParser rules e))
  | sepBy e separator => .map .list (.sepBy (toParser rules e) (toParser rules separator))
  | sepBy1 e separator => .map .list (.sepBy1 (toParser rules e) (toParser rules separator))
  | between opening e closing =>
    .between (toParser rules opening) (toParser rules e) (toParser rules closing)
  | withDefault e => .withDefault (kind e).default (toParser rules e)
  | optional e => .map (fun v => v.elim .absent .present) (.optional (toParser rules e))
  | textOf e => .map .str (.textOf (toParser rules e))
  | program steps result => .ofSteps (toSteps rules steps) result
  | rule name => rules name
  | peek e => .peek (toParser rules e)
  | rewind e => .rewind (toParser rules e)

/-- The parsers several expressions stand for. -/
def toParsers (rules : String → Parser src Value) : List Expr → List (Parser src Value)
  | [] => []
  | e :: es => toParser rules e :: toParsers rules es

/-- A continuation with parsers in place of expressions. -/
def toContinuation (rules : String → Parser src Value) :
    Continuation Expr → Continuation (Parser src Value)
  | .pair e => .pair (toParser rules e)
  | .start => .start
  | .same => .same
  | .times e => .times (toParser rules e)
  | .switch cases otherwise => .switch (toCases rules cases) (toParser rules otherwise)

/-- The cases of a continuation with parsers in place of expressions. -/
def toCases (rules : String → Parser src Value) :
    List (Text × Expr) → List (Text × Parser src Value)
  | [] => []
  | (t, e) :: cases => (t, toParser rules e) :: toCases rules cases

/-- A step with parsers in place of expressions. -/
def toStep (rules : String → Parser src Value) : Step Expr → Step (Parser src Value)
  | .run e target => .run (toParser rules e) target
  | .attempt e target => .attempt (toParser rules e) target
  | .same var => .same var
  | .position target => .position target
  | .failIfLonger var limit => .failIfLonger var limit
  | .failUnlessSame var other => .failUnlessSame var other
  | .fail => .fail

/-- Steps with parsers in place of expressions. -/
def toSteps (rules : String → Parser src Value) : List (Step Expr) → List (Step (Parser src Value))
  | [] => []
  | step :: steps => toStep rules step :: toSteps rules steps

end

variable (rules : String → Parser src Value)

theorem toParsers_eq_map (es : List Expr) : toParsers rules es = es.map (toParser rules) := by
  induction es with
  | nil => rfl
  | cons e es ih => rw [toParsers, ih, List.map_cons]

theorem toCases_eq_map (cases : List (Text × Expr)) :
    toCases rules cases = cases.map fun c => (c.1, toParser rules c.2) := by
  induction cases with
  | nil => rfl
  | cons c cases ih => rw [toCases, ih, List.map_cons]

theorem toSteps_eq_map (steps : List (Step Expr)) :
    toSteps rules steps = steps.map (toStep rules) := by
  induction steps with
  | nil => rfl
  | cons step steps ih => rw [toSteps, ih, List.map_cons]

end Expr

/-- A table of named rules. -/
structure Grammar where
  rules : List (String × Expr)

namespace Grammar

variable {src : Source}

/-- The parser of a rule, with references followed at most `depth` deep.  A rule that is not in the
table fails. -/
def rule (g : Grammar) : (depth : Nat) → String → Parser src Value
  | 0, _ => fun _ => .undecided
  | depth + 1, name =>
    match g.rules.lookup name with
    | none => .fail
    | some e => e.toParser (g.rule depth)

@[simp]
theorem rule_zero (g : Grammar) (name : String) (input : Stream src) :
    g.rule 0 name input = .undecided := rfl

theorem rule_succ_of_lookup {g : Grammar} {name : String} {e : Expr}
    (h : g.rules.lookup name = some e) (depth : Nat) :
    (g.rule (depth + 1) name : Parser src Value) = e.toParser (g.rule depth) := by
  rw [rule, h]

/-- A depth that is enough for every parse of the source that comes to an end. -/
def depth (g : Grammar) (src : Source) : Nat := g.rules.length * (src.text.length + 1) + 1

/-- The parser of an expression over the rules of a grammar. -/
def parser (g : Grammar) (e : Expr) : Parser src Value := e.toParser (g.rule (g.depth src))

end Grammar

end Descent
