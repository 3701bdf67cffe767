import Descent.Proofs.Built

/-!
# Parsers that come to an end

Only parsers that follow rules can be undecided.  All others end everywhere (`Parser.Ends`), the
lexemes among them, and combinators end where the parsers end that they run.
-/

namespace Descent

variable {src : Source} {α β : Type}

namespace Outcome

variable {σ τ : Type} {o : Outcome src σ}

theorem exists_of_ne_undecided (h : o ≠ .undecided) :
    (∃ s, o = .success s) ∨ ∃ f, o = .failure f := by
  cases o with
  | success s => exact .inl ⟨s, rfl⟩
  | failure f => exact .inr ⟨f, rfl⟩
  | undecided => exact absurd rfl h

theorem bind_ne_undecided_of_success {next : σ → Outcome src τ} (h : o ≠ .undecided)
    (hnext : ∀ s, o = .success s → next s ≠ .undecided) : (o >>= next) ≠ .undecided := by
  cases o with
  | success s => exact hnext s rfl
  | failure f => exact nofun
  | undecided => exact absurd rfl h

theorem bind_ne_undecided {next : σ → Outcome src τ} (h : o ≠ .undecided)
    (hnext : ∀ s, next s ≠ .undecided) : (o >>= next) ≠ .undecided :=
  bind_ne_undecided_of_success h fun s _ => hnext s

theorem mapFailure_ne_undecided (h : o ≠ .undecided) (g : Failure src → Failure src) :
    o.mapFailure g ≠ .undecided := by
  cases o with
  | success s => exact nofun
  | failure f => exact nofun
  | undecided => exact absurd rfl h

theorem recover_ne_undecided {resume : Failure src → Outcome src σ} (h : o ≠ .undecided)
    (hresume : ∀ f, resume f ≠ .undecided) : o.recover resume ≠ .undecided := by
  cases o with
  | success s => exact h
  | failure f =>
    by_cases hf : f.fatal = true
    · rw [recover_failure_of_fatal _ hf]
      exact h
    · rw [recover_failure _ (Bool.eq_false_iff.2 hf)]
      exact hresume f
  | undecided => exact absurd rfl h

end Outcome

namespace Parser

/-- The parser comes to an end everywhere. -/
def Ends (p : Parser src α) : Prop := ∀ input, p input ≠ .undecided

/-! ## Loops -/

variable {input : Stream src}

theorem choiceAfter_ne_undecided {ps : List (Parser src α)} (hps : ∀ p ∈ ps, p input ≠ .undecided)
    (earlier : Failure src) : choiceAfter earlier ps input ≠ .undecided := by
  induction ps generalizing earlier with
  | nil => exact nofun
  | cons p ps ih =>
    refine Outcome.recover_ne_undecided (hps p List.mem_cons_self) fun f => ?_
    exact ih (fun q hq => hps q (List.mem_cons_of_mem _ hq)) (earlier.merge f)

theorem choice_ne_undecided {ps : List (Parser src α)} (hps : ∀ p ∈ ps, p input ≠ .undecided) :
    choice ps input ≠ .undecided := by
  cases ps with
  | nil => exact nofun
  | cons p ps =>
    refine Outcome.recover_ne_undecided (hps p List.mem_cons_self) fun f => ?_
    exact choiceAfter_ne_undecided (fun q hq => hps q (List.mem_cons_of_mem _ hq)) f

/-- A repetition goes on only at later places, so it ends if its rounds end from the input on. -/
theorem repeated_ne_undecided {p : Parser src α}
    (hp : ∀ place, input.cursor ≤ place.cursor → p place ≠ .undecided) (least : Nat) :
    p.repeated least input ≠ .undecided := by
  have hfrom : ∀ least place, input.cursor ≤ place.cursor →
      p.repeated least place ≠ .undecided := by
    intro least place hplace
    induction least, place using repeatedInduction (p := p) with
    | advance least place s _ hs ih =>
      exact Outcome.bind_ne_undecided (ih (by omega)) fun _ => nofun
    | halt => exact nofun
    | failure => exact nofun
    | finish => exact nofun
    | undecided least place h => exact absurd h (hp place hplace)
  exact hfrom least input (Nat.le_refl _)

/-! ## Combinators -/

section Combinators

variable {p q : Parser src α}

theorem Ends.map (hp : p.Ends) (g : α → β) : (p.map g).Ends := fun input =>
  Outcome.bind_ne_undecided (hp input) fun _ => nofun

theorem Ends.label (hp : p.Ends) (description : String) : (p.label description).Ends :=
  fun input => Outcome.mapFailure_ne_undecided (hp input) _

theorem Ends.bind {next : α → Stream src → Parser src β} (hp : p.Ends)
    (hnext : ∀ value start, (next value start).Ends) : (p.bind next).Ends := by
  intro input
  refine Outcome.bind_ne_undecided (hp input) fun first => ?_
  exact Outcome.bind_ne_undecided (hnext first.value input first.next) fun _ => nofun

theorem Ends.orElse (hp : p.Ends) (hq : q.Ends) : (p.orElse q).Ends := fun input =>
  Outcome.recover_ne_undecided (hp input) fun _ => Outcome.mapFailure_ne_undecided (hq input) _

theorem Ends.withDefault (hp : p.Ends) (default : α) : (p.withDefault default).Ends := fun input =>
  Outcome.recover_ne_undecided (hp input) fun _ => nofun

theorem Ends.optional (hp : p.Ends) : p.optional.Ends := (hp.map some).withDefault none

/-- A repetition ends because every step but the last moves forward. -/
theorem Ends.repeated (hp : p.Ends) (least : Nat) : (p.repeated least).Ends := fun _ =>
  repeated_ne_undecided (fun place _ => hp place) least

theorem Ends.many [Fragment α] (hp : p.Ends) : p.many.Ends := (hp.repeated 0).map _

theorem Ends.many1 [Fragment α] (hp : p.Ends) : p.many1.Ends := (hp.repeated 1).map _

theorem Ends.sepBy {separator : Parser src β} (hp : p.Ends) (hs : separator.Ends) :
    (p.sepBy separator).Ends := by
  have hround : (separator.andThen p).Ends := hs.bind fun _ _ => hp
  have hlist : (p.sepBy1 separator).Ends := hp.bind fun _ _ => (hround.repeated 0).map _
  exact hlist.withDefault []

end Combinators

/-! ## Parsers without rules -/

theorem ends_succeedWith (value : α) (matched : Text) :
    (succeedWith value matched : Parser src α).Ends := fun _ => nofun

theorem ends_fail : (fail : Parser src α).Ends := fun _ => nofun

theorem ends_satisfy (test : Char → Bool) : (satisfy test : Parser src Char).Ends := by
  intro input
  rcases h : input.uncons with _ | ⟨c, next⟩
  · rw [satisfy_of_uncons_eq_none h]
    exact nofun
  · rw [satisfy_of_uncons_eq_some h]
    split
    · exact nofun
    · exact nofun

theorem ends_literal (t : Text) : (literal t : Parser src Text).Ends := by
  intro input
  unfold literal
  split
  · exact nofun
  · exact nofun

theorem ends_endOfInput : (endOfInput : Parser src Unit).Ends := by
  intro input
  by_cases h : input.rest = []
  · rw [endOfInput_of_rest_eq_nil h]
    exact nofun
  · rw [endOfInput_of_rest_ne_nil h]
    exact nofun

theorem ends_ofClass (k : CharClass) : (ofClass k : Parser src Char).Ends :=
  (ends_satisfy _).label _

theorem ends_char (c : Char) : (char c : Parser src Char).Ends := (ends_satisfy _).label _

end Parser

/-! ## Programs -/

namespace Steps

variable {p : Parser src α} {progress : Progress src}

theorem run_ne_undecided (h : p progress.current ≠ .undecided) :
    (run p).result progress ≠ .undecided := by
  rw [result_run]
  exact Outcome.bind_ne_undecided h fun _ => nofun

theorem attempt_ne_undecided (h : p progress.current ≠ .undecided) :
    (attempt p).result progress ≠ .undecided := by
  rcases hp : p progress.current with s | f | _
  · rw [result_of_success (attempt_of_success hp)]
    exact nofun
  · rw [result_of_success (attempt_of_failure hp)]
    exact nofun
  · exact absurd hp h

/-- A program comes to an end if the parsers do that it runs. -/
theorem MadeOf.ne_undecided {S : (α : Type) → Parser src α → Prop}
    (hS : ∀ β p, S β p → Parser.Ends p) {body : Steps src α} (hbody : body.MadeOf S)
    (progress : Progress src) : body.result progress ≠ .undecided := by
  induction hbody generalizing progress with
  | pure value => exact nofun
  | bind _ _ ihbody ihnext =>
    rw [result_bind]
    exact Outcome.bind_ne_undecided (ihbody progress) fun r => ihnext r.1 r.2
  | run hp => exact run_ne_undecided (hS _ _ hp progress.current)
  | attempt hp => exact attempt_ne_undecided (hS _ _ hp progress.current)
  | position => exact nofun
  | fail => exact nofun

end Steps

namespace Parser

variable {input : Stream src}

theorem program_ne_undecided {body : Steps src α} (h : body.result ⟨input, []⟩ ≠ .undecided) :
    program body input ≠ .undecided := by
  rw [program_apply]
  exact Outcome.bind_ne_undecided h fun _ => nofun

theorem ends_program {body : Steps src α} (h : body.MadeOf fun _ p => p.Ends) :
    (program body).Ends := fun input =>
  program_ne_undecided (h.ne_undecided (fun _ _ hp => hp) ⟨input, []⟩)

/-! ## Lexemes -/

theorem ends_integer : (integer : Parser src Int).Ends := by
  refine (ends_program ?_).label _
  refine .bind (.run (ends_char '-').optional) fun sign => ?_
  refine .bind (.run (ends_ofClass .digit).many1) fun digits => ?_
  exact .ite (.pure _) .fail

theorem ends_number : (number : Parser src Binary64).Ends := by
  have hfraction : ((char '.').andThen (ofClass .digit).many1 : Parser src Text).Ends :=
    (ends_char '.').bind fun _ _ => (ends_ofClass .digit).many1
  refine (ends_program ?_).label _
  refine .bind (.run (ends_char '-').optional) fun sign => ?_
  refine .bind (.run (ends_ofClass .digit).many) fun whole => ?_
  refine .bind (.run hfraction.optional) fun fraction => ?_
  exact .ite .fail (.pure _)

theorem ends_quoted : (quoted : Parser src Text).Ends := by
  have hescaped : ((char '\\').andThen item : Parser src Char).Ends :=
    (ends_char '\\').bind fun _ _ => ends_satisfy _
  have hitem : (quotedItem : Parser src Char).Ends := hescaped.orElse ((ends_satisfy _).label _)
  refine (ends_program ?_).label _
  refine .bind (.run (ends_char '"')) fun _ => ?_
  refine .bind (.run hitem.many) fun content => ?_
  exact .bind (.run (ends_char '"')) fun _ => .pure content

end Parser

end Descent
