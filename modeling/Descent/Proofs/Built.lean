import Descent.Lexeme.Quoted
import Descent.Lexeme.Number

/-!
# Parsers made with the library

`Built allowed p` says that the parser `p` is put together from the parsers and combinators of the
library in any nesting, with any functions as continuations and any programs of steps.  What not
every parser may do is a `Feature`, and `allowed` lists the features that `p` may use.

A property of all parsers of a class is proved by induction on `Built`, with one case for each
combinator that is not itself written with others; the combinators that are come as lemmas here.
Programs enter through `Steps.MadeOf S`, the programs whose steps run parsers of a class `S`.

A rule of a recursive grammar is built from the parser that is always `undecided`, by putting it
into the body of the rule once for every level of recursion.
-/

namespace Descent

variable {src : Source} {α β γ : Type}

/-! ## Programs over a class of parsers -/

/-- The steps of a program run parsers of the class `S` only. -/
inductive Steps.MadeOf (S : (α : Type) → Parser src α → Prop) :
    {α : Type} → Steps src α → Prop where
  | pure {α : Type} (value : α) : MadeOf S (Pure.pure value : Steps src α)
  | bind {α β : Type} {body : Steps src α} {next : α → Steps src β} :
      MadeOf S body → (∀ value, MadeOf S (next value)) → MadeOf S (body >>= next)
  | run {α : Type} {p : Parser src α} : S α p → MadeOf S (Steps.run p)
  | attempt {α : Type} {p : Parser src α} : S α p → MadeOf S (Steps.attempt p)
  | position : MadeOf S Steps.position
  | fail {α : Type} : MadeOf S (Steps.fail : Steps src α)

theorem Steps.MadeOf.ite {S : (α : Type) → Parser src α → Prop} {c : Prop} [Decidable c]
    {body other : Steps src α} (hbody : body.MadeOf S) (hother : other.MadeOf S) :
    (if c then body else other : Steps src α).MadeOf S := by
  split
  · exact hbody
  · exact hother

/-! ## Built parsers -/

/-- What a parser may be made with beyond what every parser may be made with. -/
inductive Feature where
  /-- Successes that claim to have matched a text of the caller's choice. -/
  | injection
  /-- Going back to an earlier place after a success. -/
  | jump
  /-- Making failures fatal. -/
  | cut
deriving DecidableEq

/-- The parsers that can be put together from those of the library and the `allowed` features. -/
inductive Built (allowed : List Feature) : {α : Type} → Parser src α → Prop where
  /-- A rule that is not followed any further. -/
  | undecided {α : Type} : Built allowed (fun _ => .undecided : Parser src α)
  | succeed {α : Type} (value : α) : Built allowed (Parser.succeed value)
  | succeedWith {α : Type} (h : .injection ∈ allowed) (value : α) (matched : Text) :
      Built allowed (Parser.succeedWith value matched)
  | fail {α : Type} : Built allowed (Parser.fail : Parser src α)
  | endOfInput : Built allowed Parser.endOfInput
  | satisfy (test : Char → Bool) : Built allowed (Parser.satisfy test)
  | literal (t : Text) : Built allowed (Parser.literal t)
  | map {α β : Type} {p : Parser src α} (f : α → β) : Built allowed p → Built allowed (p.map f)
  | label {α : Type} {p : Parser src α} (description : String) :
      Built allowed p → Built allowed (p.label description)
  | cut {α : Type} {p : Parser src α} (h : .cut ∈ allowed) : Built allowed p → Built allowed p.cut
  | peek {α : Type} {p : Parser src α} (h : .jump ∈ allowed) :
      Built allowed p → Built allowed p.peek
  | rewind {α : Type} {p : Parser src α} (h : .jump ∈ allowed) :
      Built allowed p → Built allowed p.rewind
  | orElse {α : Type} {p q : Parser src α} :
      Built allowed p → Built allowed q → Built allowed (p.orElse q)
  | choice {α : Type} {ps : List (Parser src α)} :
      (∀ p ∈ ps, Built allowed p) → Built allowed (Parser.choice ps)
  | bind {α β : Type} {p : Parser src α} {next : α → Stream src → Parser src β} :
      Built allowed p → (∀ value start, Built allowed (next value start)) →
        Built allowed (p.bind next)
  | between {α β γ : Type} {opening : Parser src α} {p : Parser src β} {closing : Parser src γ} :
      Built allowed opening → Built allowed p → Built allowed closing →
        Built allowed (opening.between p closing)
  | sequence {α : Type} (empty : α) {ps : List (Parser src α)} :
      (∀ p ∈ ps, Built allowed p) → Built allowed (Parser.sequence empty ps)
  | repeated {α : Type} {p : Parser src α} (least : Nat) :
      Built allowed p → Built allowed (p.repeated least)
  | program {α : Type} {body : Steps src α} (S : (β : Type) → Parser src β → Prop) :
      (∀ β p, S β p → Built allowed p) → body.MadeOf S → Built allowed (Parser.program body)

namespace Built

variable {allowed : List Feature} {p q : Parser src α} {separator : Parser src β}

/-! ## Parsers written with others -/

theorem item : Built allowed (Parser.item : Parser src Char) := .satisfy _

theorem ofClass (k : CharClass) : Built allowed (Parser.ofClass k : Parser src Char) :=
  .label _ (.satisfy _)

theorem notOfClass (k : CharClass) : Built allowed (Parser.notOfClass k : Parser src Char) :=
  .label _ (.satisfy _)

theorem char (c : Char) : Built allowed (Parser.char c : Parser src Char) := .label _ (.satisfy _)

theorem notChar (c : Char) : Built allowed (Parser.notChar c : Parser src Char) :=
  .label _ (.satisfy _)

theorem andThen (hp : Built allowed p) (hq : Built allowed separator) :
    Built allowed (p.andThen separator) :=
  hp.bind fun _ _ => hq

theorem cutAfter (h : .cut ∈ allowed) (hp : Built allowed p) (hq : Built allowed separator) :
    Built allowed (p.cutAfter separator) := by
  rw [Parser.cutAfter_eq_andThen]
  exact hp.andThen (hq.cut h)

theorem withDefault (default : α) (hp : Built allowed p) : Built allowed (p.withDefault default) :=
  hp.orElse (.succeed default)

theorem optional (hp : Built allowed p) : Built allowed p.optional :=
  withDefault none (hp.map some)

theorem textOf [Fragment α] (hp : Built allowed p) : Built allowed p.textOf := hp.map _

theorem concat [Fragment α] {ps : List (Parser src α)} (hps : ∀ p ∈ ps, Built allowed p) :
    Built allowed (Parser.concat ps) := by
  induction ps with
  | nil => exact .succeed []
  | cons p ps ih =>
    have hrest : Built allowed (Parser.concat ps) :=
      ih fun q hq => hps q (List.mem_cons_of_mem _ hq)
    rw [Parser.concat_cons]
    exact (hps p List.mem_cons_self).bind fun _ _ => hrest.map _

theorem collect (hp : Built allowed p) : Built allowed p.collect := hp.repeated 0

theorem collect1 (hp : Built allowed p) : Built allowed p.collect1 := hp.repeated 1

theorem many [Fragment α] (hp : Built allowed p) : Built allowed p.many := hp.collect.textOf

theorem many1 [Fragment α] (hp : Built allowed p) : Built allowed p.many1 := hp.collect1.textOf

theorem sepBy1 (hp : Built allowed p) (hs : Built allowed separator) :
    Built allowed (p.sepBy1 separator) :=
  hp.bind fun _ _ => (hs.andThen hp).collect.map _

theorem sepBy (hp : Built allowed p) (hs : Built allowed separator) :
    Built allowed (p.sepBy separator) :=
  withDefault [] (hp.sepBy1 hs)

theorem spaces : Built allowed (Parser.spaces : Parser src Text) := (ofClass _).many

theorem spaces1 : Built allowed (Parser.spaces1 : Parser src Text) := .label _ (ofClass _).many1

theorem notSpaces : Built allowed (Parser.notSpaces : Parser src Text) := many (.satisfy _)

theorem notSpaces1 : Built allowed (Parser.notSpaces1 : Parser src Text) :=
  .label _ (many1 (.satisfy _))

/-! ## Lexemes -/

theorem integer : Built allowed (Parser.integer : Parser src Int) := by
  refine .label _ (.program (fun _ p => Built allowed p) (fun _ _ hp => hp) ?_)
  refine .bind (.run (char '-').optional) fun sign => ?_
  refine .bind (.run (ofClass .digit).many1) fun digits => ?_
  exact .ite (.pure _) .fail

theorem number : Built allowed (Parser.number : Parser src Binary64) := by
  refine .label _ (.program (fun _ p => Built allowed p) (fun _ _ hp => hp) ?_)
  refine .bind (.run (char '-').optional) fun sign => ?_
  refine .bind (.run (ofClass .digit).many) fun whole => ?_
  refine .bind (.run ((char '.').andThen (ofClass .digit).many1).optional) fun fraction => ?_
  exact .ite .fail (.pure _)

theorem quotedItem : Built allowed (Parser.quotedItem : Parser src Char) :=
  ((char '\\').andThen item).orElse (notChar '"')

theorem quoted : Built allowed (Parser.quoted : Parser src Text) := by
  refine .label _ (.program (fun _ p => Built allowed p) (fun _ _ hp => hp) ?_)
  refine .bind (.run (char '"')) fun _ => ?_
  refine .bind (.run quotedItem.many) fun content => ?_
  exact .bind (.run (char '"')) fun _ => .pure content

end Built

end Descent
