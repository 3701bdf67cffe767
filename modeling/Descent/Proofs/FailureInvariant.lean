import Descent.Proofs.Postcondition

/-!
# What all failures have in common

Every failure starts out as `Failure.unexpected` or `Failure.expecting` and is then only relabelled,
merged and, where cuts are allowed, made fatal.  So a property that these operations keep is a
property of every failure of every built parser: `Built.ensures_failures`.
-/

namespace Descent

variable {src : Source} {α : Type} {allowed : List Feature}

/-- A property of failures that new failures have and that the operations on failures keep. -/
structure FailureInvariant (allowed : List Feature) (Q : Failure src → Prop) : Prop where
  unexpected : ∀ place, Q (.unexpected place)
  expecting : ∀ place description, Q (.expecting place description)
  relabel : ∀ f description, Q f → Q (f.relabel description)
  merge : ∀ f g, Q f → Q g → Q (f.merge g)
  escalate : .cut ∈ allowed → ∀ f, Q f → Q f.escalate

/-- A failure invariant holds of all failures of a built parser. -/
theorem Built.ensures_failures {Q : Failure src → Prop} (hQ : FailureInvariant allowed Q)
    {p : Parser src α} (h : Built allowed p) (input : Stream src) :
    (p input).Ensures (fun _ => True) Q := by
  induction h generalizing input with
  | undecided => trivial
  | succeed value => trivial
  | succeedWith _ value matched => trivial
  | fail => exact hQ.unexpected input
  | endOfInput =>
    by_cases hrest : input.rest = []
    · rw [Parser.endOfInput_of_rest_eq_nil hrest]
      trivial
    · rw [Parser.endOfInput_of_rest_ne_nil hrest]
      exact hQ.expecting input _
  | satisfy test =>
    rcases huncons : input.uncons with _ | ⟨c, next⟩
    · rw [Parser.satisfy_of_uncons_eq_none huncons]
      exact hQ.unexpected input
    · rw [Parser.satisfy_of_uncons_eq_some huncons]
      split
      · trivial
      · exact hQ.unexpected input
  | literal t =>
    unfold Parser.literal
    rcases Parser.follow t input with place | next
    · exact hQ.expecting place _
    · trivial
  | map f _ ih => exact (ih input).bind fun _ _ => trivial
  | label description _ ih => exact (ih input).mapFailure fun f hf => hQ.relabel f description hf
  | cut hcut _ ih => exact (ih input).mapFailure fun f hf => hQ.escalate hcut f hf
  | peek _ _ ih => exact (ih input).bind fun _ _ => trivial
  | rewind _ _ ih => exact (ih input).bind fun _ _ => trivial
  | orElse _ _ ihp ihq =>
    refine (ihp input).recover fun f hf => ?_
    exact (ihq input).mapFailure fun g hg => hQ.merge f g hf hg
  | choice _ ih =>
    exact Parser.ensures_choice (fun p hp => ih p hp input) hQ.merge (hQ.unexpected input)
  | bind _ _ ihp ihnext =>
    refine (ihp input).bind fun first _ => ?_
    exact (ihnext first.value input first.next).bind fun _ _ => trivial
  | between _ _ _ ihopening ihp ihclosing =>
    refine (ihopening input).bind fun first _ => ?_
    refine (ihp first.next).bind fun middle _ => ?_
    exact (ihclosing middle.next).bind fun _ _ => trivial
  | sequence empty _ ih =>
    exact Parser.ensures_continueWith (fun p hp done _ => ih p hp done.next) trivial
  | repeated least _ ih =>
    refine Parser.ensures_repeated (R := fun _ _ => True) (Q := fun _ => Q) ih ?_ ?_ ?_ ?_ least
      input
    · exact fun _ => trivial
    · exact fun _ _ _ _ => trivial
    · exact fun _ _ _ _ _ _ => trivial
    · exact fun _ _ _ _ hf => hf
  | program S _ hbody ih =>
    refine Parser.ensures_program ?_
    refine Steps.MadeOf.ensures (I := fun _ => True) (fun β p hp progress _ => ?_)
      (fun progress _ => hQ.unexpected progress.current) hbody trivial
    exact ih β p hp progress.current

end Descent
