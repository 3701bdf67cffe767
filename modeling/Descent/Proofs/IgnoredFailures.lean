import Descent.Grammar.Step
import Descent.Proofs.Alternatives

/-!
# Failures that a program ignores

A program may run a parser and go on if it fails.  A parser that fails has left the program where it
stood (`Steps.run_of_failure`), so a step that is ignored in this way does nothing but unset its
variable (`Step.perform_of_isIgnored`).  The outcome of a program and the state in which it ends do
not change when its ignored steps are replaced by whatever unsets the same variables
(`Step.performAll_replaceIgnored`), and if no variable is bound twice, by nothing.

The state after any steps, also if they end in a failure, is said by the successes of the parsers
that they ran (`Step.reached_performAll`): the program stands where the last of them ended, and has
matched what they matched, one after another.
-/

namespace Descent

variable {src : Source} {α β : Type}

namespace Bindings

theorem store_of_ne (vars : Bindings) {name : Option String} {x : String} (h : some x ≠ name)
    (v : Value) : vars.store name v x = vars x := if_neg h

/-- Unsetting a variable that is not set changes nothing. -/
theorem store_null {vars : Bindings} {name : Option String} (h : ∀ x ∈ name, vars x = .null) :
    vars.store name .null = vars := by
  funext x
  by_cases hx : some x = name
  · rw [h x hx.symm]
    exact if_pos hx
  · exact store_of_ne vars hx .null

end Bindings

namespace Progress

/-- The progress after some successes: at the end of the last one, with what they matched. -/
def after (progress : Progress src) (runs : List (Success src α)) : Progress src :=
  ⟨(runs.map Success.next).getLastD progress.current,
    progress.matched ++ runs.flatMap Success.matched⟩

theorem after_nil (progress : Progress src) :
    progress.after ([] : List (Success src α)) = progress := by
  simp [after]

theorem after_cons (progress : Progress src) (s : Success src α) (runs : List (Success src α)) :
    progress.after (s :: runs) = (progress.after [s]).after runs := by
  simp only [after, List.map_cons, List.map_nil, List.getLastD_cons, List.getLastD_nil,
    List.flatMap_cons, List.flatMap_nil, List.append_nil, List.append_assoc]

theorem after_append (progress : Progress src) (runs others : List (Success src α)) :
    progress.after (runs ++ others) = (progress.after runs).after others := by
  induction runs generalizing progress with
  | nil => rw [after_nil, List.nil_append]
  | cons s runs ih => rw [List.cons_append, after_cons, ih, ← after_cons]

end Progress

namespace Steps

variable {p : Parser src α} {progress : Progress src}

theorem bind_eq_success {body : Steps src α} {next : α → Steps src β} {value : β}
    {progress' : Progress src} (h : (body >>= next) progress = (.success value, progress')) :
    ∃ v reached, body progress = (.success v, reached) ∧
      next v reached = (.success value, progress') := by
  rcases hbody : body progress with ⟨v | f | _, reached⟩
  · exact ⟨v, reached, rfl, (bind_of_success hbody).symm.trans h⟩
  · rw [bind_of_failure hbody] at h
    cases h
  · rw [bind_of_undecided hbody] at h
    cases h

/-- What follows a step depends on the step only through its outcome and the state after it. -/
theorem bind_congr_left {body other : Steps src α} (h : body progress = other progress)
    (next : α → Steps src β) : (body >>= next) progress = (other >>= next) progress := by
  show Steps.bind body next progress = Steps.bind other next progress
  rw [Steps.bind, h]
  rfl

/-- Changing the value does not change the state. -/
theorem reached_bind_pure (body : Steps src α) (g : α → β) (progress : Progress src) :
    ((body >>= fun value => pure (g value)) progress).2 = (body progress).2 := by
  rcases h : body progress with ⟨value | f | _, reached⟩
  · rw [bind_of_success h]
    rfl
  · rw [bind_of_failure h]
  · rw [bind_of_undecided h]

/-- A run moves the program only if the parser succeeds. -/
theorem reached_run (p : Parser src α) (progress : Progress src) :
    (run p progress).2 = progress.after (p progress.current).success?.toList := by
  rcases h : p progress.current with s | f | _
  · rw [run_of_success h]
    simp [Outcome.success?, Progress.after]
  · rw [run_of_failure h]
    exact progress.after_nil.symm
  · rw [run_of_undecided h]
    exact progress.after_nil.symm

/-- Whether a failure is passed on or not, the state is the same. -/
theorem reached_ignore (body : Steps src α) (progress : Progress src) :
    (ignore body progress).2 = (body progress).2 := by
  unfold ignore
  rcases body progress with ⟨_ | _ | _, reached⟩ <;> rfl

end Steps

namespace Step

/-! ## One step -/

/-- The variable a step stores its value in. -/
def target {π : Type} : Step π → Option String
  | run _ target | attempt _ target => target
  | position target => some target
  | _ => none

/-- The parser that a step runs. -/
def parser? (vars : Bindings) : Step (Parser src Value) → Option (Parser src Value)
  | run p _ | attempt p _ => some p
  | same var => some ((Parser.literal (vars var).text).map .str)
  | _ => none

/-- The success of the parser that a step runs. -/
def success? (vars : Bindings) (progress : Progress src) (step : Step (Parser src Value)) :
    Option (Success src Value) :=
  (step.parser? vars).bind fun p => (p progress.current).success?

/-- Whether a step runs a parser that fails, and ignores that. -/
def isIgnored (progress : Progress src) : Step (Parser src Value) → Bool
  | attempt p _ => match p progress.current with
    | .failure _ => true
    | _ => false
  | _ => false

/-- A step that does nothing but unset a variable. -/
def unset (target : Option String) : Step (Parser src Value) := run (.succeed .null) target

variable {vars vars' : Bindings} {progress progress' : Progress src}
    {step : Step (Parser src Value)}

/-- What is ignored leaves the program as it was. -/
theorem perform_of_isIgnored (h : step.isIgnored progress = true) (vars : Bindings) :
    step.perform vars progress = (.success (vars.store step.target .null), progress) := by
  cases step with
  | attempt p target =>
    simp only [isIgnored] at h
    split at h
    next f hf => exact Steps.bind_of_success (Steps.attempt_of_failure hf)
    next => cases h
  | _ => cases h

/-- Whatever comes of a step, the program goes on from the success of the parser that the step ran,
or if there is none, from where it stood. -/
theorem reached_perform (vars : Bindings) (step : Step (Parser src Value))
    (progress : Progress src) :
    (step.perform vars progress).2 = progress.after (step.success? vars progress).toList := by
  cases step with
  | run p target =>
    exact (Steps.reached_bind_pure _ _ progress).trans (Steps.reached_run p progress)
  | attempt p target =>
    refine (Steps.reached_bind_pure _ _ progress).trans ?_
    exact (Steps.reached_ignore _ progress).trans (Steps.reached_run p progress)
  | same var =>
    refine (Steps.reached_bind_pure _ _ progress).trans ((Steps.reached_run _ progress).trans ?_)
    unfold success? parser? Parser.map
    rcases h : Parser.literal (vars var).text progress.current with s | f | _ <;>
      simp [h, Outcome.success?, Progress.after, Success.map]
  | failIfLonger var limit =>
    simp only [perform]
    split <;> exact progress.after_nil.symm
  | failUnlessSame var other =>
    simp only [perform]
    split <;> exact progress.after_nil.symm
  | position | fail => exact progress.after_nil.symm

/-- A step that does not fail stores at most one value, in its own variable. -/
theorem perform_of_ne_target (h : step.perform vars progress = (.success vars', progress'))
    {x : String} (hx : some x ≠ step.target) : vars' x = vars x := by
  cases step with
  | run p target =>
    obtain ⟨value, reached, -, hdone⟩ := Steps.bind_eq_success h
    cases hdone
    exact vars.store_of_ne hx value
  | attempt p target =>
    obtain ⟨value, reached, -, hdone⟩ := Steps.bind_eq_success h
    cases hdone
    exact vars.store_of_ne hx _
  | same var =>
    obtain ⟨value, reached, -, hdone⟩ := Steps.bind_eq_success h
    cases hdone
    rfl
  | position target =>
    cases h
    exact vars.store_of_ne hx _
  | failIfLonger var limit =>
    simp only [perform] at h
    split at h <;> cases h
    rfl
  | failUnlessSame var other =>
    simp only [perform] at h
    split at h <;> cases h
    rfl
  | fail => cases h

/-! ## Steps in order -/

theorem performAll_cons_of_success (h : step.perform vars progress = (.success vars', progress'))
    (steps : List (Step (Parser src Value))) :
    performAll vars (step :: steps) progress = performAll vars' steps progress' :=
  Steps.bind_of_success h

theorem performAll_singleton (vars : Bindings) (step : Step (Parser src Value)) :
    performAll vars [step] = step.perform vars := bind_pure _

theorem performAll_append (vars : Bindings) (steps others : List (Step (Parser src Value))) :
    performAll vars (steps ++ others) =
      performAll vars steps >>= fun vars => performAll vars others := by
  induction steps generalizing vars with
  | nil => rfl
  | cons step steps ih =>
    simp only [List.cons_append, performAll, bind_assoc]
    exact bind_congr fun vars => ih vars

/-- The steps with others in place of those that are ignored when the steps are performed. -/
def replaceIgnored (replacement : Option String → List (Step (Parser src Value))) (vars : Bindings)
    (progress : Progress src) : List (Step (Parser src Value)) → List (Step (Parser src Value))
  | [] => []
  | step :: steps =>
    (if step.isIgnored progress then replacement step.target else [step]) ++
      match step.perform vars progress with
      | (.success vars, progress) => replaceIgnored replacement vars progress steps
      | _ => steps

/-- The steps with only their variables unset where they are ignored. -/
def unsetIgnored (vars : Bindings) (progress : Progress src)
    (steps : List (Step (Parser src Value))) : List (Step (Parser src Value)) :=
  replaceIgnored (fun target => [unset target]) vars progress steps

/-- The steps without those that are ignored. -/
def deleteIgnored (vars : Bindings) (progress : Progress src)
    (steps : List (Step (Parser src Value))) : List (Step (Parser src Value)) :=
  replaceIgnored (fun _ => []) vars progress steps

/-- The successes of the parsers that steps run, in order, up to a step that fails. -/
def runs (vars : Bindings) (progress : Progress src) :
    List (Step (Parser src Value)) → List (Success src Value)
  | [] => []
  | step :: steps =>
    (step.success? vars progress).toList ++
      match step.perform vars progress with
      | (.success vars, progress) => runs vars progress steps
      | _ => []

/-- Ignored steps may be replaced by steps that do nothing but unset their variables.  What the
replacement does may depend on an invariant `I` of the variables and the steps that are left. -/
theorem performAll_replaceIgnored {replacement : Option String → List (Step (Parser src Value))}
    {I : Bindings → List (Step (Parser src Value)) → Prop}
    (hI : ∀ {vars progress step steps vars' progress'}, I vars (step :: steps) →
      step.perform vars progress = (.success vars', progress') → I vars' steps)
    (hreplacement : ∀ {vars step steps}, I vars (step :: steps) →
      performAll vars (replacement step.target) = pure (vars.store step.target .null))
    {steps : List (Step (Parser src Value))} (h : I vars steps) :
    performAll vars (replaceIgnored replacement vars progress steps) progress =
      performAll vars steps progress := by
  induction steps generalizing vars progress with
  | nil => rfl
  | cons step steps ih =>
    rw [replaceIgnored, performAll_append]
    by_cases hignored : step.isIgnored progress = true
    · have hperform := perform_of_isIgnored hignored vars
      rw [if_pos hignored, hreplacement h, pure_bind, hperform, performAll_cons_of_success hperform]
      exact ih (hI h hperform)
    · rw [if_neg hignored, performAll_singleton]
      rcases hperform : step.perform vars progress with ⟨vars' | f | _, progress'⟩
      · rw [Steps.bind_of_success hperform, performAll_cons_of_success hperform]
        exact ih (hI h hperform)
      · rw [Steps.bind_of_failure hperform]
        exact (Steps.bind_of_failure hperform).symm
      · rw [Steps.bind_of_undecided hperform]
        exact (Steps.bind_of_undecided hperform).symm

theorem performAll_unset (vars : Bindings) (target : Option String) :
    (performAll vars [unset target] : Steps src Bindings) = pure (vars.store target .null) := by
  rw [performAll_singleton]
  funext progress
  refine (Steps.bind_of_success (Steps.run_of_success rfl)).trans ?_
  rw [List.append_nil]

theorem performAll_unsetIgnored (vars : Bindings) (progress : Progress src)
    (steps : List (Step (Parser src Value))) :
    performAll vars (unsetIgnored vars progress steps) progress = performAll vars steps progress :=
  performAll_replaceIgnored (I := fun _ _ => True) (fun _ _ => trivial)
    (fun _ => performAll_unset _ _) trivial

/-- If every variable is bound at most once, and after it was unset, ignored steps may be
deleted. -/
theorem performAll_deleteIgnored {steps : List (Step (Parser src Value))}
    (hnodup : (steps.filterMap target).Nodup)
    (hunset : ∀ x ∈ steps.filterMap target, vars x = .null) :
    performAll vars (deleteIgnored vars progress steps) progress =
      performAll vars steps progress := by
  refine performAll_replaceIgnored (I := fun vars steps =>
    (steps.filterMap target).Nodup ∧ ∀ x ∈ steps.filterMap target, vars x = .null)
    ?_ ?_ ⟨hnodup, hunset⟩
  · rintro vars progress step steps vars' progress' ⟨hnodup, hunset⟩ hperform
    have hframe : ∀ x, some x ≠ step.target → vars' x = vars x :=
      fun x => perform_of_ne_target hperform
    rcases htarget : step.target with _ | y
    · rw [List.filterMap_cons_none htarget] at hnodup hunset
      refine ⟨hnodup, fun x hx => ?_⟩
      rw [hframe x (by simp [htarget]), hunset x hx]
    · rw [List.filterMap_cons_some htarget] at hnodup hunset
      obtain ⟨hfresh, hnodup⟩ := List.nodup_cons.1 hnodup
      refine ⟨hnodup, fun x hx => ?_⟩
      have hne : some x ≠ step.target := by
        rw [htarget]
        exact fun heq => hfresh (Option.some.inj heq ▸ hx)
      rw [hframe x hne, hunset x (List.mem_cons_of_mem _ hx)]
  · rintro vars step steps ⟨-, hunset⟩
    rw [Bindings.store_null fun x hx =>
      hunset x (List.mem_filterMap.2 ⟨step, List.mem_cons_self, hx⟩)]
    rfl

/-- The state after steps, also after steps that fail, is said by the successes of the parsers that
they ran. -/
theorem reached_performAll (vars : Bindings) (steps : List (Step (Parser src Value)))
    (progress : Progress src) :
    (performAll vars steps progress).2 = progress.after (runs vars progress steps) := by
  induction steps generalizing vars progress with
  | nil => exact progress.after_nil.symm
  | cons step steps ih =>
    have hreached := reached_perform vars step progress
    rw [runs, progress.after_append, ← hreached]
    rcases hperform : step.perform vars progress with ⟨vars' | f | _, progress'⟩
    · rw [performAll_cons_of_success hperform]
      exact ih vars' progress'
    · exact (congrArg Prod.snd (Steps.bind_of_failure hperform)).trans (Progress.after_nil _).symm
    · exact (congrArg Prod.snd (Steps.bind_of_undecided hperform)).trans (Progress.after_nil _).symm

/-! ## Programs -/

theorem ofSteps_congr {steps others : List (Step (Parser src Value))} {input : Stream src}
    (h : performAll .empty steps ⟨input, []⟩ = performAll .empty others ⟨input, []⟩)
    (result : List String) :
    Parser.ofSteps steps result input = Parser.ofSteps others result input := by
  unfold Parser.ofSteps Parser.program
  rw [Steps.bind_congr_left h]

/-- **Ignored failures leave no trace.** A program has the same outcome as the program in which the
runs that fail and are ignored only unset their variables, and, if no variable is bound twice, as
the program without them; it also ends with the same variables and in the same state.  For a parser
that fails leaves the state as it was, whether its failure is passed on or ignored.  After any of
its first steps, also if they end in a failure, a program stands where the last successful run
ended, and has matched what the successful runs matched; if they do not fail it goes on from
there. -/
theorem ignored_failures_leave_no_trace (steps : List (Step (Parser src Value)))
    (result : List String) (input : Stream src) :
    Parser.ofSteps steps result input =
      Parser.ofSteps (unsetIgnored .empty ⟨input, []⟩ steps) result input ∧
    ((steps.filterMap target).Nodup →
      Parser.ofSteps steps result input =
        Parser.ofSteps (deleteIgnored .empty ⟨input, []⟩ steps) result input ∧
      performAll .empty steps ⟨input, []⟩ =
        performAll .empty (deleteIgnored .empty ⟨input, []⟩ steps) ⟨input, []⟩) ∧
    (∀ (α : Type) (p : Parser src α) progress f, p progress.current = .failure f →
      Steps.run p progress = (.failure f, progress) ∧
        Steps.attempt p progress = (.success none, progress)) ∧
    ∀ before after, steps = before ++ after →
      (performAll .empty before ⟨input, []⟩).2.current =
        ((runs .empty ⟨input, []⟩ before).map Success.next).getLastD input ∧
      (performAll .empty before ⟨input, []⟩).2.matched =
        (runs .empty ⟨input, []⟩ before).flatMap Success.matched ∧
      ∀ vars progress, performAll .empty before ⟨input, []⟩ = (.success vars, progress) →
        performAll .empty steps ⟨input, []⟩ = performAll vars after progress := by
  refine ⟨ofSteps_congr (performAll_unsetIgnored ..).symm result, fun hnodup => ?_,
    fun α p progress f hf => ⟨Steps.run_of_failure hf, Steps.attempt_of_failure hf⟩, ?_⟩
  · have hdelete : performAll .empty (deleteIgnored .empty ⟨input, []⟩ steps) ⟨input, []⟩ =
        performAll .empty steps ⟨input, []⟩ := performAll_deleteIgnored hnodup fun _ _ => rfl
    exact ⟨ofSteps_congr hdelete.symm result, hdelete.symm⟩
  · rintro before after rfl
    rw [reached_performAll]
    refine ⟨rfl, rfl, fun vars progress hbefore => ?_⟩
    rw [performAll_append]
    exact Steps.bind_of_success hbefore

/-- On `ab1`: a fatal failure between two runs that succeed, and a failure at the end.  Where the
fatal failure is passed on it leaves the same state. -/
theorem ignored_failures_on_ab :
    let src : Source := ⟨0, ['a', 'b', '1']⟩
    let letter : Parser src Value := (Parser.ofClass .letter).map .char
    let committed : Parser src Value := ((Parser.char 'z').map .char).cut
    let start : Stream src := .first src
    let place : Stream src := ⟨['a'], ['b', '1'], 1, rfl, rfl⟩
    let first : List (Step (Parser src Value)) := [.run letter "x", .attempt committed "y"]
    let others : List (Step (Parser src Value)) :=
      [.position "n", .attempt letter "z", .attempt letter "w"]
    let kept : List (Step (Parser src Value)) :=
      [.run letter "x", .position "n", .attempt letter "z"]
    let names := ["x", "y", "n", "z", "w"]
    ((first ++ others).filterMap target).Nodup ∧
      deleteIgnored .empty ⟨start, []⟩ (first ++ others) = kept ∧
      Parser.ofSteps (first ++ others) names start = Parser.ofSteps kept names start ∧
      Parser.ofSteps kept names start =
        .success ⟨.list [.char 'a', .null, .int 1, .char 'b', .null], start,
          ⟨['b', 'a'], ['1'], 2, rfl, rfl⟩, ['a', 'b']⟩ ∧
      Steps.run committed ⟨place, ['a']⟩ =
        (.failure ⟨place, ["the character \"z\""], true⟩, ⟨place, ['a']⟩) ∧
      (performAll .empty first ⟨start, []⟩).2.current = place ∧
      ∃ vars, performAll .empty (first ++ others) ⟨start, []⟩ =
        performAll vars others ⟨place, ['a']⟩ := by
  intro src letter committed start place first others kept names
  have hnodup : ((first ++ others).filterMap target).Nodup := by
    show ["x", "y", "n", "z", "w"].Nodup
    decide
  have hkept : deleteIgnored .empty ⟨start, []⟩ (first ++ others) = kept := rfl
  have hfails : committed place = .failure ⟨place, ["the character \"z\""], true⟩ := rfl
  obtain ⟨-, hdelete, hleaves, hprefix⟩ :=
    ignored_failures_leave_no_trace (first ++ others) names start
  obtain ⟨hcurrent, -, hgoes⟩ := hprefix first others rfl
  obtain ⟨hrun, -⟩ := hleaves Value committed ⟨place, ['a']⟩ _ hfails
  exact ⟨hnodup, hkept, hkept ▸ (hdelete hnodup).1, rfl, hrun, hcurrent, _, hgoes _ _ rfl⟩

end Step

end Descent
