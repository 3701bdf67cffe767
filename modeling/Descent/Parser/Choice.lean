import Descent.Parser.Basic

/-!
# Alternatives

Later alternatives are tried only after failures that are not fatal, and always from the same place.
-/

namespace Descent

namespace Parser

variable {src : Source} {α : Type}

/-- Tries a second parser after the first.  If both fail the failures are merged. -/
def orElse (p q : Parser src α) : Parser src α := fun input =>
  (p input).recover fun first => (q input).mapFailure first.merge

section OrElse

variable {p q : Parser src α} {input : Stream src} {s : Success src α} {f g : Failure src}

theorem orElse_of_success (h : p input = .success s) : orElse p q input = .success s := by
  rw [orElse, h, Outcome.recover_success]

theorem orElse_of_fatal (h : p input = .failure f) (hf : f.fatal = true) :
    orElse p q input = .failure f := by
  rw [orElse, h, Outcome.recover_failure_of_fatal _ hf]

theorem orElse_of_failure (h : p input = .failure f) (hf : f.fatal = false) :
    orElse p q input = (q input).mapFailure f.merge := by
  rw [orElse, h, Outcome.recover_failure _ hf]

theorem orElse_of_undecided (h : p input = .undecided) : orElse p q input = .undecided := by
  rw [orElse, h, Outcome.recover_undecided]

end OrElse

/-- Tries alternatives in order, `earlier` being the merged failure of those already tried. -/
def choiceAfter (earlier : Failure src) : List (Parser src α) → Parser src α
  | [], _ => .failure earlier
  | p :: ps, input => (p input).recover fun f => choiceAfter (earlier.merge f) ps input

/-- Tries alternatives in order.  A fatal failure is given as it is; if all alternatives fail the
failures are merged. -/
def choice : List (Parser src α) → Parser src α
  | [] => fail
  | p :: ps => fun input => (p input).recover fun f => choiceAfter f ps input

@[simp]
theorem choice_nil (input : Stream src) :
    choice ([] : List (Parser src α)) input = .failure (.unexpected input) := rfl

theorem choice_cons (p : Parser src α) (ps : List (Parser src α)) (input : Stream src) :
    choice (p :: ps) input = (p input).recover fun f => choiceAfter f ps input := rfl

theorem choiceAfter_nil (earlier : Failure src) (input : Stream src) :
    choiceAfter earlier ([] : List (Parser src α)) input = .failure earlier := rfl

theorem choiceAfter_cons (earlier : Failure src) (p : Parser src α) (ps : List (Parser src α))
    (input : Stream src) :
    choiceAfter earlier (p :: ps) input =
      (p input).recover fun f => choiceAfter (earlier.merge f) ps input := rfl

/-- Gives a default value where a parser fails. -/
def withDefault (default : α) (p : Parser src α) : Parser src α := orElse p (succeed default)

/-- Gives no value where a parser fails. -/
def optional (p : Parser src α) : Parser src (Option α) := withDefault none (map some p)

end Parser

end Descent
