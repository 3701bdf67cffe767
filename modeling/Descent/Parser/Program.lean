import Descent.Parser.Basic

/-!
# Programs

A program is a parser written as a sequence of steps in a monad.  The state of a program is the
place it has reached and the text matched so far.  Steps that fail end in a state as well, and a
program that does not pass a failure on goes on from there.  That a parser that fails has left the
state as it was is a theorem (`Steps.run_of_failure`).

The outcome of a program depends on the state after its steps only if they succeed:
`Steps.result` forgets the state of steps that fail, and is the program in the monad of outcomes.
-/

namespace Descent

/-- How far a program has come. -/
structure Progress (src : Source) where
  current : Stream src
  matched : Text
deriving DecidableEq

/-- The steps of a program that give a value of type `α`.  They lead from one state to an outcome
and to the state in which it is left. -/
def Steps (src : Source) (α : Type) := Progress src → Outcome src α × Progress src

namespace Steps

variable {src : Source} {α β : Type}

@[ext]
theorem ext {body other : Steps src α} (h : ∀ progress, body progress = other progress) :
    body = other := funext h

/-- Goes on after steps that succeed, in the state in which they leave the program. -/
protected def bind (body : Steps src α) (next : α → Steps src β) : Steps src β := fun progress =>
  match body progress with
  | (.success value, reached) => next value reached
  | (.failure f, reached) => (.failure f, reached)
  | (.undecided, reached) => (.undecided, reached)

instance : Monad (Steps src) where
  pure value := fun progress => (.success value, progress)
  bind := Steps.bind

section Bind

variable {body : Steps src α} {next : α → Steps src β} {progress reached : Progress src}

theorem bind_of_success {value : α} (h : body progress = (.success value, reached)) :
    (body >>= next) progress = next value reached := by
  show Steps.bind body next progress = _
  rw [Steps.bind, h]

theorem bind_of_failure {f : Failure src} (h : body progress = (.failure f, reached)) :
    (body >>= next) progress = (.failure f, reached) := by
  show Steps.bind body next progress = _
  rw [Steps.bind, h]

theorem bind_of_undecided (h : body progress = (.undecided, reached)) :
    (body >>= next) progress = (.undecided, reached) := by
  show Steps.bind body next progress = _
  rw [Steps.bind, h]

end Bind

instance : LawfulMonad (Steps src) :=
  LawfulMonad.mk' _
    (fun body => by
      refine Steps.ext fun progress => ?_
      show Steps.bind body pure progress = body progress
      unfold Steps.bind
      rcases body progress with ⟨_ | _ | _, reached⟩ <;> rfl)
    (fun _ _ => rfl)
    (fun body next last => by
      refine Steps.ext fun progress => ?_
      show Steps.bind (Steps.bind body next) last progress =
        Steps.bind body (fun value => Steps.bind (next value) last) progress
      unfold Steps.bind
      rcases body progress with ⟨_ | _ | _, reached⟩ <;> rfl)

/-! ## Single steps -/

/-- The place the program has reached. -/
def position : Steps src (Stream src) := fun progress => (.success progress.current, progress)

/-- Goes on with what an outcome carries, or ends the program if it is a failure. -/
def ofOutcome (o : Outcome src α) : Steps src α := fun progress => (o, progress)

/-- Takes the text matched so far, and leaves none. -/
def takeMatched : Steps src Text := fun progress =>
  (.success progress.matched, { progress with matched := [] })

/-- Says what has been matched so far. -/
def setMatched (matched : Text) : Steps src Unit := fun progress =>
  (.success (), { progress with matched })

/-- Says where the program stands. -/
def setCurrent (current : Stream src) : Steps src Unit := fun progress =>
  (.success (), { progress with current })

/-- Ends the program with a failure where it stands. -/
def fail : Steps src α := fun progress => (.failure (.unexpected progress.current), progress)

/-- Runs a parser where the program stands; if it fails the program fails. -/
def run (p : Parser src α) : Steps src α := do
  let success ← ofOutcome (p (← position))
  let matched ← takeMatched
  setMatched (matched ++ success.matched)
  setCurrent success.next
  return success.value

/-- Goes on without a value if the steps fail, even fatally, in the state in which they have left
the program. -/
def ignore (body : Steps src α) : Steps src (Option α) := fun progress =>
  match body progress with
  | (.success value, reached) => (.success (some value), reached)
  | (.failure _, reached) => (.success none, reached)
  | (.undecided, reached) => (.undecided, reached)

/-- Runs a parser where the program stands, and goes on if it fails. -/
def attempt (p : Parser src α) : Steps src (Option α) := ignore (run p)

section Run

variable {p : Parser src α} {progress : Progress src} {s : Success src α} {f : Failure src}

theorem ofOutcome_of_eq {o o' : Outcome src α} (h : o = o') :
    ofOutcome o progress = (o', progress) := by
  rw [ofOutcome, h]

theorem run_eq (p : Parser src α) (progress : Progress src) :
    run p progress = (ofOutcome (p progress.current) >>= fun success => do
      let matched ← takeMatched
      setMatched (matched ++ success.matched)
      setCurrent success.next
      return success.value) progress := rfl

theorem run_of_success (h : p progress.current = .success s) :
    run p progress = (.success s.value, ⟨s.next, progress.matched ++ s.matched⟩) := by
  rw [run_eq, bind_of_success (ofOutcome_of_eq h)]
  rfl

/-- A parser that fails leaves the program where it stood, with what it had matched. -/
theorem run_of_failure (h : p progress.current = .failure f) :
    run p progress = (.failure f, progress) := by
  rw [run_eq, bind_of_failure (ofOutcome_of_eq h)]

theorem run_of_undecided (h : p progress.current = .undecided) :
    run p progress = (.undecided, progress) := by
  rw [run_eq, bind_of_undecided (ofOutcome_of_eq h)]

/-- What an ignored run does depends only on the outcome of the parser. -/
theorem attempt_congr {q : Parser src α} (h : p progress.current = q progress.current) :
    attempt p progress = attempt q progress := by
  rw [attempt, attempt, ignore, ignore, run_eq, run_eq, h]

theorem attempt_of_success (h : p progress.current = .success s) :
    attempt p progress = (.success (some s.value), ⟨s.next, progress.matched ++ s.matched⟩) := by
  rw [attempt, ignore, run_of_success h]

/-- A failure that is not passed on leaves no trace. -/
theorem attempt_of_failure (h : p progress.current = .failure f) :
    attempt p progress = (.success none, progress) := by
  rw [attempt, ignore, run_of_failure h]

theorem attempt_of_undecided (h : p progress.current = .undecided) :
    attempt p progress = (.undecided, progress) := by
  rw [attempt, ignore, run_of_undecided h]

end Run

/-! ## Results -/

/-- The value that steps give and the state in which they leave the program, if they succeed. -/
def result (body : Steps src α) : StateT (Progress src) (Outcome src) α := fun progress => do
  return (← (body progress).1, (body progress).2)

section Result

variable {body : Steps src α} {progress reached : Progress src}

theorem result_congr {other : Steps src α} {progress' : Progress src}
    (h : body progress = other progress') : body.result progress = other.result progress' := by
  rw [result, h]
  rfl

theorem result_of_success {value : α} (h : body progress = (.success value, reached)) :
    body.result progress = .success (value, reached) := by
  rw [result, h, Outcome.success_bind, Outcome.pure_eq_success]

theorem result_of_failure {f : Failure src} (h : body progress = (.failure f, reached)) :
    body.result progress = .failure f := by
  rw [result, h, Outcome.failure_bind]

theorem result_of_undecided (h : body progress = (.undecided, reached)) :
    body.result progress = .undecided := by
  rw [result, h, Outcome.undecided_bind]

@[simp]
theorem result_pure (value : α) : (pure value : Steps src α).result = pure value := rfl

@[simp]
theorem result_bind (body : Steps src α) (next : α → Steps src β) :
    (body >>= next).result = body.result >>= fun value => (next value).result := by
  funext progress
  show _ = (body.result progress >>= _ : Outcome src _)
  rcases h : body progress with ⟨value | f | _, reached⟩
  · rw [result_of_success h, Outcome.success_bind]
    exact result_congr (bind_of_success h)
  · rw [result_of_failure h, Outcome.failure_bind, result_of_failure (bind_of_failure h)]
  · rw [result_of_undecided h, Outcome.undecided_bind, result_of_undecided (bind_of_undecided h)]

@[simp]
theorem result_map (f : α → β) (body : Steps src α) : (f <$> body).result = f <$> body.result := by
  rw [← bind_pure_comp, ← bind_pure_comp, result_bind]
  rfl

/-- A parser that runs in a program gives its value and moves the program behind what it matched. -/
theorem result_run (p : Parser src α) (progress : Progress src) :
    (run p).result progress = do
      let s ← p progress.current
      return (s.value, { current := s.next, matched := progress.matched ++ s.matched }) := by
  rcases h : p progress.current with s | f | _
  · exact result_of_success (run_of_success h)
  · exact result_of_failure (run_of_failure h)
  · exact result_of_undecided (run_of_undecided h)

end Result

end Steps

namespace Parser

variable {src : Source} {α : Type}

/-- The parser that runs a program. -/
def program (body : Steps src α) : Parser src α := fun input =>
  let ended := body { current := input, matched := [] }
  do return {
    value := ← ended.1
    start := input
    next := ended.2.current
    matched := ended.2.matched }

/-- A program that fails does not say what it had reached. -/
theorem program_apply (body : Steps src α) (input : Stream src) :
    program body input = do
      let (value, progress) ← body.result ⟨input, []⟩
      return { value, start := input, next := progress.current, matched := progress.matched } := by
  rw [Steps.result, bind_assoc]
  rfl

theorem program_of_success {body : Steps src α} {input stop : Stream src} {value : α}
    {matched : Text} (h : body ⟨input, []⟩ = (.success value, ⟨stop, matched⟩)) :
    program body input = .success ⟨value, input, stop, matched⟩ := by
  rw [program_apply, Steps.result_of_success h]
  rfl

theorem program_of_failure {body : Steps src α} {input : Stream src} {f : Failure src}
    (h : (body ⟨input, []⟩).1 = .failure f) : program body input = .failure f := by
  show ((body ⟨input, []⟩).1 >>= _ : Outcome src _) = _
  rw [h, Outcome.failure_bind]

end Parser

end Descent
