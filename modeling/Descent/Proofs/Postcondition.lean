import Descent.Proofs.Built

/-!
# What outcomes ensure

`o.Ensures P Q` says that the outcome `o`, if it is a success, satisfies `P`, and if it is a
failure, satisfies `Q`.  There is one rule for each way in which outcomes are combined, and one for
each loop of the library: alternatives (`Parser.ensures_choice`), steps in a row
(`Parser.ensures_continueWith`), repetition (`Parser.ensures_repeated`) and programs
(`Steps.MadeOf.ensures`).  Each loop rule asks for an invariant and for what one round does to it.
-/

namespace Descent

variable {src : Source} {α β : Type}

namespace Outcome

variable {σ τ : Type} {o : Outcome src σ} {P P' : σ → Prop} {Q Q' : Failure src → Prop}

/-- A success satisfies `P`, and a failure satisfies `Q`. -/
def Ensures (P : σ → Prop) (Q : Failure src → Prop) : Outcome src σ → Prop
  | success s => P s
  | failure f => Q f
  | undecided => True

theorem Ensures.of_success {s : σ} (h : o.Ensures P Q) (hs : o = .success s) : P s := by
  rwa [hs] at h

theorem Ensures.of_failure {f : Failure src} (h : o.Ensures P Q) (hf : o = .failure f) : Q f := by
  rwa [hf] at h

theorem ensures_of_forall_failure (h : ∀ f, o = .failure f → Q f) :
    o.Ensures (fun _ => True) Q := by
  cases o with
  | success s => trivial
  | failure f => exact h f rfl
  | undecided => trivial

theorem Ensures.mono (h : o.Ensures P Q) (hP : ∀ s, P s → P' s) (hQ : ∀ f, Q f → Q' f) :
    o.Ensures P' Q' := by
  cases o with
  | success s => exact hP s h
  | failure f => exact hQ f h
  | undecided => trivial

theorem Ensures.bind {R : τ → Prop} {next : σ → Outcome src τ} (h : o.Ensures P Q)
    (hnext : ∀ s, P s → (next s).Ensures R Q) : (o >>= next).Ensures R Q := by
  cases o with
  | success s => exact hnext s h
  | failure f => exact h
  | undecided => trivial

theorem Ensures.mapFailure {g : Failure src → Failure src} (h : o.Ensures P Q)
    (hg : ∀ f, Q f → Q' (g f)) : (o.mapFailure g).Ensures P Q' := by
  cases o with
  | success s => exact h
  | failure f => exact hg f h
  | undecided => trivial

theorem Ensures.recover {resume : Failure src → Outcome src σ} (h : o.Ensures P Q)
    (hresume : ∀ f, Q f → (resume f).Ensures P Q) : (o.recover resume).Ensures P Q := by
  cases o with
  | success s => exact h
  | failure f =>
    by_cases hf : f.fatal = true
    · rw [recover_failure_of_fatal _ hf]
      exact h
    · rw [recover_failure _ (Bool.eq_false_iff.2 hf)]
      exact hresume f h
  | undecided => trivial

end Outcome

namespace Parser

variable {P : Success src α → Prop} {Q : Failure src → Prop}

/-! ## Alternatives -/

theorem ensures_choiceAfter {ps : List (Parser src α)} {input : Stream src}
    (hps : ∀ p ∈ ps, (p input).Ensures P Q) (hmerge : ∀ f g, Q f → Q g → Q (f.merge g))
    {earlier : Failure src} (hearlier : Q earlier) :
    (choiceAfter earlier ps input).Ensures P Q := by
  induction ps generalizing earlier with
  | nil => exact hearlier
  | cons p ps ih =>
    rw [choiceAfter_cons]
    refine (hps p List.mem_cons_self).recover fun f hf => ?_
    exact ih (fun q hq => hps q (List.mem_cons_of_mem _ hq)) (hmerge _ _ hearlier hf)

/-- What every alternative ensures, and what is kept by merging failures, a choice ensures. -/
theorem ensures_choice {ps : List (Parser src α)} {input : Stream src}
    (hps : ∀ p ∈ ps, (p input).Ensures P Q) (hmerge : ∀ f g, Q f → Q g → Q (f.merge g))
    (hnone : Q (.unexpected input)) : (choice ps input).Ensures P Q := by
  cases ps with
  | nil => exact hnone
  | cons p ps =>
    rw [choice_cons]
    refine (hps p List.mem_cons_self).recover fun f hf => ?_
    exact ensures_choiceAfter (fun q hq => hps q (List.mem_cons_of_mem _ hq)) hmerge hf

/-! ## Steps in a row -/

/-- `P` is an invariant of the steps if every step takes what was done so far from `P` to `P`. -/
theorem ensures_continueWith {ps : List (Parser src α)}
    (hps : ∀ p ∈ ps, ∀ done, P done → (p done.next).Ensures
      (fun step => P { step with start := done.start, matched := done.matched ++ step.matched }) Q)
    {done : Success src α} (hdone : P done) : (continueWith done ps).Ensures P Q := by
  induction ps generalizing done with
  | nil => exact hdone
  | cons p ps ih =>
    rw [continueWith]
    refine (hps p List.mem_cons_self done hdone).bind fun step hstep => ?_
    exact ih (fun q hq => hps q (List.mem_cons_of_mem _ hq)) hstep

/-! ## Repetition -/

/-- The rule of repetition.  From what a step at any place ensures (`P` and `Q`) follows what the
repetition from there ensures (`R` and `Q`), if an empty repetition and one that ends with a step
that does not move forward satisfy `R`, if `R` is kept by one more step in front, and if the
failures after a step are among those from its start. -/
theorem ensures_repeated {p : Parser src α} {P : Stream src → Success src α → Prop}
    {R : Stream src → Success src (List α) → Prop} {Q : Stream src → Failure src → Prop}
    (hp : ∀ input, (p input).Ensures (P input) (Q input))
    (hend : ∀ input, R input ⟨[], input, input, []⟩)
    (hhalt : ∀ input s, P input s → s.next.cursor ≤ input.cursor →
      R input ⟨[s.value], input, s.next, s.matched⟩)
    (hstep : ∀ input s others, P input s → input.cursor < s.next.cursor → R s.next others →
      R input ⟨s.value :: others.value, input, others.next, s.matched ++ others.matched⟩)
    (hfail : ∀ input s f, P input s → Q s.next f → Q input f) (least : Nat) (input : Stream src) :
    (repeated least p input).Ensures (R input) (Q input) := by
  induction least, input using repeatedInduction (p := p) with
  | advance least input s h hs ih =>
    have hinput : P input s := (hp input).of_success h
    refine (ih.mono (fun _ h => h) fun f hf => ?_).bind fun others hothers => ?_
    · exact hfail input s f hinput hf
    · exact hstep input s others hinput hs hothers
  | halt least input s h hs => exact hhalt input s ((hp input).of_success h) hs
  | failure least input f h => exact (hp input).of_failure h
  | finish input => exact hend input
  | undecided => trivial

end Parser

/-! ## Programs -/

/-- `I` is an invariant of a program if every parser that the program runs takes what was reached so
far from `I` to `I`. -/
theorem Steps.MadeOf.ensures {S : (α : Type) → Parser src α → Prop} {I : Progress src → Prop}
    {Q : Failure src → Prop}
    (hrun : ∀ β (p : Parser src β), S β p → ∀ progress, I progress → (p progress.current).Ensures
      (fun s => I ⟨s.next, progress.matched ++ s.matched⟩) Q)
    (hfail : ∀ progress, I progress → Q (.unexpected progress.current))
    {body : Steps src α} (hbody : body.MadeOf S) {progress : Progress src} (h : I progress) :
    (body.result progress).Ensures (fun r => I r.2) Q := by
  induction hbody generalizing progress with
  | pure value => exact h
  | bind _ _ ihbody ihnext =>
    rw [Steps.result_bind]
    exact (ihbody h).bind fun r hr => ihnext r.1 hr
  | run hp =>
    rw [Steps.result_run]
    exact (hrun _ _ hp progress h).bind fun s hs => hs
  | attempt hp =>
    rename_i p
    have hprogress := hrun _ _ hp progress h
    rcases heq : p progress.current with s | f | _
    · rw [Steps.result_of_success (Steps.attempt_of_success heq)]
      exact hprogress.of_success heq
    · rw [Steps.result_of_success (Steps.attempt_of_failure heq)]
      exact h
    · rw [Steps.result_of_undecided (Steps.attempt_of_undecided heq)]
      trivial
  | position => exact h
  | fail => exact hfail progress h

theorem Parser.ensures_program {P : Success src α → Prop} {Q : Failure src → Prop}
    {body : Steps src α} {input : Stream src}
    (h : (body.result ⟨input, []⟩).Ensures
      (fun r => P ⟨r.1, input, r.2.current, r.2.matched⟩) Q) :
    (program body input).Ensures P Q := by
  rw [program_apply]
  exact h.bind fun _ hr => hr

end Descent
