import Descent.Parser.Basic
import Descent.Fragment

/-!
# Sequences

One parser after another.  A sequence starts where its first step starts, ends where its last step
ends, and matches what the steps matched, put together in order.  It fails as soon as a step fails,
with that step's failure.
-/

namespace Descent

namespace Parser

variable {src : Source} {α β γ : Type}

/-- Runs a parser, and then the parser that the continuation gives for its value and for the place
where the whole sequence started. -/
protected def bind (p : Parser src α) (next : α → Stream src → Parser src β) : Parser src β :=
  fun input => do
    let first ← p input
    let second ← next first.value input first.next
    return { second with start := input, matched := first.matched ++ second.matched }

section Bind

variable {p : Parser src α} {next : α → Stream src → Parser src β} {input : Stream src}

theorem bind_of_failure {f : Failure src} (h : p input = .failure f) :
    p.bind next input = .failure f := by
  rw [Parser.bind, h, Outcome.failure_bind]

theorem bind_of_undecided (h : p input = .undecided) : p.bind next input = .undecided := by
  rw [Parser.bind, h, Outcome.undecided_bind]

theorem bind_of_success {s : Success src α} {t : Success src β} (hp : p input = .success s)
    (hnext : next s.value input s.next = .success t) :
    p.bind next input = .success ⟨t.value, input, t.next, s.matched ++ t.matched⟩ := by
  rw [Parser.bind, hp, Outcome.success_bind, hnext, Outcome.success_bind, Outcome.pure_eq_success]

theorem bind_of_success_of_failure {s : Success src α} {f : Failure src}
    (hp : p input = .success s) (hnext : next s.value input s.next = .failure f) :
    p.bind next input = .failure f := by
  rw [Parser.bind, hp, Outcome.success_bind, hnext, Outcome.failure_bind]

end Bind

/-- Runs two parsers and keeps the value of the second. -/
def andThen (p : Parser src α) (q : Parser src β) : Parser src β := p.bind fun _ _ => q

theorem andThen_of_success {p : Parser src α} {q : Parser src β} {input : Stream src}
    {s : Success src α} {t : Success src β} (hp : p input = .success s)
    (hq : q s.next = .success t) :
    p.andThen q input = .success ⟨t.value, input, t.next, s.matched ++ t.matched⟩ :=
  bind_of_success hp hq

/-- Runs three parsers and keeps the value of the middle one. -/
def between (opening : Parser src α) (p : Parser src β) (closing : Parser src γ) : Parser src β :=
  fun input => do
    let first ← opening input
    let middle ← p first.next
    let last ← closing middle.next
    return {
      value := middle.value
      start := input
      next := last.next
      matched := first.matched ++ middle.matched ++ last.matched }

/-- Runs a guard; once it has succeeded, every failure of the rest is fatal. -/
def cutAfter (guard : Parser src α) (rest : Parser src β) : Parser src β := fun input => do
  let first ← guard input
  let last ← cut rest first.next
  return {
    value := last.value
    start := input
    next := last.next
    matched := first.matched ++ last.matched }

/-- Cutting after a guard is running the guard and then a parser that is cut. -/
theorem cutAfter_eq_andThen (guard : Parser src α) (rest : Parser src β) :
    guard.cutAfter rest = guard.andThen rest.cut := rfl

/-- Runs the steps after a success, keeping the value of the last one. -/
def continueWith (done : Success src α) : List (Parser src α) → Outcome src (Success src α)
  | [] => .success done
  | p :: ps => do
    let step ← p done.next
    continueWith { step with start := done.start, matched := done.matched ++ step.matched } ps

/-- Runs all steps and keeps the value of the last one; with no steps the value is `empty`. -/
def sequence (empty : α) (steps : List (Parser src α)) : Parser src α := fun input =>
  continueWith { value := empty, start := input, next := input, matched := [] } steps

/-! ## Texts -/

/-- The place after a text, or the place of the first character that differs from it. -/
def follow : Text → Stream src → Except (Stream src) (Stream src)
  | [], s => .ok s
  | c :: t, s =>
    match s.uncons with
    | none => .error s
    | some (d, next) => if d = c then follow t next else .error s

@[simp]
theorem follow_nil (s : Stream src) : follow [] s = .ok s := rfl

theorem follow_of_uncons_eq_none {s : Stream src} (h : s.uncons = none) (c : Char) (t : Text) :
    follow (c :: t) s = .error s := by
  rw [follow, h]

theorem follow_of_uncons_eq_some {s next : Stream src} {d : Char}
    (h : s.uncons = some (d, next)) (c : Char) (t : Text) :
    follow (c :: t) s = if d = c then follow t next else .error s := by
  rw [follow, h]

/-- Reads a given text. -/
def literal (t : Text) : Parser src Text := fun input =>
  match follow t input with
  | .ok next => .success { value := t, start := input, next, matched := t }
  | .error place => .failure (.expecting place ("\"" ++ String.ofList t ++ "\""))

/-- Gives the text of the value. -/
def textOf [Fragment α] (p : Parser src α) : Parser src Text := map Fragment.text p

/-- Runs the steps after a success, adding the texts of their values to its value. -/
def concatFrom [Fragment α] (done : Success src Text) :
    List (Parser src α) → Outcome src (Success src Text)
  | [] => .success done
  | p :: ps => do
    let step ← p done.next
    concatFrom {
      value := Fragment.pushTo done.value step.value
      start := done.start
      next := step.next
      matched := done.matched ++ step.matched } ps

/-- Runs all steps and puts the texts of their values together. -/
def concat [Fragment α] (ps : List (Parser src α)) : Parser src Text := fun input =>
  concatFrom { value := [], start := input, next := input, matched := [] } ps

/-- What is done so far stays in front of what the steps after it do. -/
theorem concatFrom_eq_bind [Fragment α] (done : Success src Text) (ps : List (Parser src α)) :
    concatFrom done ps = concat ps done.next >>= fun s => pure
      { value := done.value ++ s.value
        start := done.start
        next := s.next
        matched := done.matched ++ s.matched } := by
  induction ps generalizing done with
  | nil => simp [concat, concatFrom]
  | cons p ps ih =>
    unfold concat
    simp only [concatFrom, bind_assoc]
    refine bind_congr fun step => ?_
    rw [ih, ih ⟨Fragment.pushTo [] step.value, done.next, step.next, [] ++ step.matched⟩,
      bind_assoc]
    refine bind_congr fun s => ?_
    simp only [Fragment.pushTo, Outcome.pure_eq_success, Outcome.success_bind, List.nil_append,
      List.append_assoc]

theorem concat_nil [Fragment α] : concat ([] : List (Parser src α)) = succeed [] := rfl

/-- The text of the first value stands before those of the others. -/
theorem concat_cons [Fragment α] (p : Parser src α) (ps : List (Parser src α)) :
    concat (p :: ps) = p.bind fun first _ => map (Fragment.text first ++ ·) (concat ps) := by
  funext input
  show concatFrom _ _ = _
  rw [concatFrom]
  refine bind_congr fun step => ?_
  rw [concatFrom_eq_bind]
  unfold map
  rw [bind_assoc]
  rfl

end Parser

end Descent
