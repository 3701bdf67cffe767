import Descent.Grammar.Continuation
import Descent.Grammar.Step

/-!
# Parsing expressions

`Expr` describes parsers as data: everything that can be built from the parsers of this library,
with continuations, programs and references to named rules in place of functions.
-/

namespace Descent

/-- A function on values. -/
inductive Transform where
  /-- Pair the value with a tag in front. -/
  | tag (t : Text)
  /-- Put another value in its place. -/
  | const (v : Value)
  /-- Take its length. -/
  | length

/-- Applies a function to a value. -/
def Transform.apply : Transform → Value → Value
  | tag t, v => .list [.str t, v]
  | const w, _ => w
  | length, v => .int v.length

/-- A description of a parser. -/
inductive Expr where
  | item
  | ofClass (k : CharClass)
  | notOfClass (k : CharClass)
  | char (c : Char)
  | notChar (c : Char)
  | satisfy (test : CharTest)
  | spaces
  | spaces1
  | notSpaces
  | notSpaces1
  | literal (t : Text)
  | integer
  | number
  | quoted
  | endOfInput
  | succeed (v : Value) (matched : Text)
  | default (k : Kind)
  | fail (k : Kind)
  | map (f : Transform) (e : Expr)
  | label (description : String) (e : Expr)
  | cut (e : Expr)
  | cutAfter (guard rest : Expr)
  | orElse (left right : Expr)
  | choice (es : List Expr)
  | andThen (first second : Expr)
  | bind (first : Expr) (next : Continuation Expr)
  | sequence (empty : Kind) (es : List Expr)
  | concat (es : List Expr)
  | many (e : Expr)
  | many1 (e : Expr)
  | collect (e : Expr)
  | collect1 (e : Expr)
  | sepBy (e separator : Expr)
  | sepBy1 (e separator : Expr)
  | between (opening e closing : Expr)
  | withDefault (e : Expr)
  | optional (e : Expr)
  | textOf (e : Expr)
  | program (steps : List (Step Expr)) (result : List String)
  | rule (name : String)
  | peek (e : Expr)
  | rewind (e : Expr)

namespace Expr

mutual

/-- The kind of the values of a parser. -/
def kind : Expr → Kind
  | item | ofClass _ | notOfClass _ | char _ | notChar _ | satisfy _ => .char
  | spaces | spaces1 | notSpaces | notSpaces1 | literal _ | quoted => .str
  | concat _ | many _ | many1 _ | textOf _ => .str
  | integer => .int
  | number => .float
  | endOfInput => .unit
  | succeed _ _ | map _ _ | bind _ _ | program _ _ | rule _ => .any
  | default k | fail k => k
  | label _ e | cut e | between _ e _ | withDefault e | peek e | rewind e => kind e
  | cutAfter _ rest => kind rest
  | orElse left right => .common [kind left, kind right]
  | choice es => .common (kinds es)
  | andThen _ second => kind second
  | sequence empty es => match kinds es with
    | [] => empty
    | ks => .common ks
  | collect _ | collect1 _ | sepBy _ _ | sepBy1 _ _ => .list
  | optional _ => .option

/-- The kinds of several parsers. -/
def kinds : List Expr → List Kind
  | [] => []
  | e :: es => kind e :: kinds es

end

end Expr

end Descent
