import Descent.Failure
import Descent.Span

/-!
# Outcomes of a parse

A parse ends with a success, ends with a failure, or is `undecided`: the rules of a recursive
grammar were followed to the permitted depth without an answer.  Outcomes form a monad in which
failures and undecided outcomes are passed on.  `Outcome.recover` goes on after a failure that is
not fatal; nothing goes on after an undecided outcome.
-/

namespace Descent

/-- A successful parse: its value, where it started and ended, and the text it matched. -/
structure Success (src : Source) (α : Type) where
  value : α
  start : Stream src
  next : Stream src
  matched : Text
deriving DecidableEq

namespace Success

variable {src : Source} {α β : Type}

/-- Changes the value of a success. -/
def map (f : α → β) (s : Success src α) : Success src β :=
  { value := f s.value, start := s.start, next := s.next, matched := s.matched }

/-- The span from the start of a success to its end. -/
def span (s : Success src α) : Span := ⟨src.text, s.start.cursor, s.next.cursor⟩

/-- Whether two successes agree, the values being compared by `same`. -/
def agrees (same : α → α → Bool) (s t : Success src α) : Bool :=
  same s.value t.value && s.start == t.start && s.next == t.next && s.matched == t.matched

end Success

/-- The outcome of a parse, `σ` being what a success carries. -/
inductive Outcome (src : Source) (σ : Type) where
  | success (s : σ)
  | failure (f : Failure src)
  | undecided
deriving DecidableEq

namespace Outcome

variable {src : Source} {σ τ : Type}

/-- Goes on after a success. -/
protected def bind (o : Outcome src σ) (next : σ → Outcome src τ) : Outcome src τ :=
  match o with
  | success s => next s
  | failure f => failure f
  | undecided => undecided

instance : Monad (Outcome src) where
  pure := success
  bind := Outcome.bind

@[simp]
theorem pure_eq_success (s : σ) : (pure s : Outcome src σ) = success s := rfl

@[simp]
theorem success_bind (s : σ) (next : σ → Outcome src τ) : (success s >>= next) = next s := rfl

@[simp]
theorem failure_bind (f : Failure src) (next : σ → Outcome src τ) :
    (failure f >>= next) = failure f := rfl

@[simp]
theorem undecided_bind (next : σ → Outcome src τ) : (undecided >>= next) = undecided := rfl

instance : LawfulMonad (Outcome src) :=
  LawfulMonad.mk' _ (fun o => by cases o <;> rfl) (fun _ _ => rfl)
    (fun o _ _ => by cases o <;> rfl)

/-- What a success carries. -/
def success? : Outcome src σ → Option σ
  | success s => some s
  | _ => none

theorem success?_eq_some_iff {o : Outcome src σ} {s : σ} : o.success? = some s ↔ o = success s := by
  cases o <;> simp [success?]

/-! ## Failures -/

/-- Changes the failure of a parse that failed. -/
def mapFailure (g : Failure src → Failure src) : Outcome src σ → Outcome src σ
  | success s => success s
  | failure f => failure (g f)
  | undecided => undecided

/-- Goes on after a failure that is not fatal. -/
def recover (resume : Failure src → Outcome src σ) : Outcome src σ → Outcome src σ
  | success s => success s
  | failure f => if f.fatal then failure f else resume f
  | undecided => undecided

@[simp]
theorem mapFailure_success (g : Failure src → Failure src) (s : σ) :
    mapFailure g (success s) = success s := rfl

@[simp]
theorem mapFailure_failure (g : Failure src → Failure src) (f : Failure src) :
    mapFailure g (failure f : Outcome src σ) = failure (g f) := rfl

@[simp]
theorem mapFailure_undecided (g : Failure src → Failure src) :
    mapFailure g (undecided : Outcome src σ) = undecided := rfl

@[simp]
theorem recover_success (resume : Failure src → Outcome src σ) (s : σ) :
    recover resume (success s) = success s := rfl

@[simp]
theorem recover_undecided (resume : Failure src → Outcome src σ) :
    recover resume undecided = undecided := rfl

theorem recover_failure_of_fatal (resume : Failure src → Outcome src σ) {f : Failure src}
    (h : f.fatal = true) : recover resume (failure f) = failure f := if_pos h

theorem recover_failure (resume : Failure src → Outcome src σ) {f : Failure src}
    (h : f.fatal = false) : recover resume (failure f) = resume f := by
  simp [recover, h]

/-! ## Comparing -/

/-- Whether two outcomes agree, the values being compared by `same`. -/
def agrees {α : Type} (same : α → α → Bool) :
    Outcome src (Success src α) → Outcome src (Success src α) → Bool
  | success s, success t => s.agrees same t
  | failure f, failure g => f == g
  | undecided, undecided => true
  | _, _ => false

end Outcome

end Descent
