import Descent.Parser.Choice
import Descent.Parser.Sequence

/-!
# Repetition

`repeated` runs a parser as often as it succeeds.  A step that does not move forward is the last
one, so a repetition ends for every parser, also for one that reads nothing or moves backwards.
-/

namespace Descent

namespace Parser

variable {src : Source} {α β : Type}

/-- Runs a parser again and again and collects its values.  The repetition ends with a step that
does not move forward, or with a failure; a failure is passed on if it is fatal or if it comes
before the `least`-th value. -/
def repeated (least : Nat) (p : Parser src α) : Parser src (List α) := fun input =>
  match p input with
  | .success step =>
    if input.cursor < step.next.cursor then do
      let others ← repeated (least - 1) p step.next
      return {
        value := step.value :: others.value
        start := input
        next := others.next
        matched := step.matched ++ others.matched }
    else .success { step.map ([·]) with start := input }
  | .failure f => if f.fatal ∨ 0 < least then .failure f else succeed [] input
  | .undecided => .undecided
termination_by input => input.rest.length
decreasing_by exact Stream.length_rest_lt_of_cursor_lt ‹_›

section Repeated

variable {least : Nat} {p : Parser src α} {input : Stream src}

/-- A step that does not move forward is the last one. -/
theorem repeated_of_halt {s : Success src α} (h : p input = .success s)
    (hs : s.next.cursor ≤ input.cursor) :
    repeated least p input = .success ⟨[s.value], input, s.next, s.matched⟩ := by
  rw [repeated, h]
  simp only [Nat.not_lt.2 hs, if_false]
  rfl

/-- After a step that moves forward the repetition goes on where the step ended. -/
theorem repeated_of_advance {s : Success src α} (h : p input = .success s)
    (hs : input.cursor < s.next.cursor) :
    repeated least p input = do
      let others ← repeated (least - 1) p s.next
      return ⟨s.value :: others.value, input, others.next, s.matched ++ others.matched⟩ := by
  rw [repeated, h]
  simp only [hs, if_true]

/-- A fatal failure, or one that comes too early, is passed on. -/
theorem repeated_of_failure {f : Failure src} (h : p input = .failure f)
    (hf : f.fatal = true ∨ 0 < least) : repeated least p input = .failure f := by
  rw [repeated, h]
  simp only [hf, if_true]

/-- Any other failure ends the repetition. -/
theorem repeated_of_end {f : Failure src} (h : p input = .failure f) (hf : f.fatal = false) :
    repeated 0 p input = .success ⟨[], input, input, []⟩ := by
  rw [repeated, h]
  simp [hf]

theorem repeated_of_undecided (h : p input = .undecided) :
    repeated least p input = .undecided := by
  rw [repeated, h]

/-- The induction of repetition: one case for each way in which a round can go. -/
@[elab_as_elim]
theorem repeatedInduction {p : Parser src α}
    {motive : Nat → Stream src → Outcome src (Success src (List α)) → Prop}
    (advance : ∀ least input s, p input = .success s → input.cursor < s.next.cursor →
      motive (least - 1) s.next (repeated (least - 1) p s.next) →
      motive least input (do
        let others ← repeated (least - 1) p s.next
        return ⟨s.value :: others.value, input, others.next, s.matched ++ others.matched⟩))
    (halt : ∀ least input s, p input = .success s → s.next.cursor ≤ input.cursor →
      motive least input (.success ⟨[s.value], input, s.next, s.matched⟩))
    (failure : ∀ least input f, p input = .failure f → f.fatal = true ∨ 0 < least →
      motive least input (.failure f))
    (finish : ∀ input f, p input = .failure f → f.fatal = false →
      motive 0 input (.success ⟨[], input, input, []⟩))
    (undecided : ∀ least input, p input = .undecided → motive least input .undecided)
    (least : Nat) (input : Stream src) : motive least input (repeated least p input) := by
  rcases h : p input with s | f | _
  · by_cases hs : input.cursor < s.next.cursor
    · have : s.next.rest.length < input.rest.length := Stream.length_rest_lt_of_cursor_lt hs
      rw [repeated_of_advance h hs]
      exact advance least input s h hs
        (repeatedInduction advance halt failure finish undecided (least - 1) s.next)
    · rw [repeated_of_halt h (Nat.not_lt.1 hs)]
      exact halt least input s h (Nat.not_lt.1 hs)
  · by_cases hf : f.fatal = true ∨ 0 < least
    · rw [repeated_of_failure h hf]
      exact failure least input f h hf
    · obtain ⟨hfatal, hleast⟩ := not_or.1 hf
      obtain rfl : least = 0 := by omega
      rw [repeated_of_end h (Bool.eq_false_iff.2 hfatal)]
      exact finish input f h (Bool.eq_false_iff.2 hfatal)
  · rw [repeated_of_undecided h]
    exact undecided least input h
termination_by input.rest.length

end Repeated

/-- Collects the values of zero or more successes. -/
def collect (p : Parser src α) : Parser src (List α) := repeated 0 p

/-- Collects the values of one or more successes. -/
def collect1 (p : Parser src α) : Parser src (List α) := repeated 1 p

/-- Joins the texts of zero or more successes. -/
def many [Fragment α] (p : Parser src α) : Parser src Text := textOf (collect p)

/-- Joins the texts of one or more successes. -/
def many1 [Fragment α] (p : Parser src α) : Parser src Text := textOf (collect1 p)

/-- One or more items with separators between them; a separator counts only if an item follows. -/
def sepBy1 (p : Parser src α) (separator : Parser src β) : Parser src (List α) :=
  p.bind fun first _ => map (first :: ·) (collect (separator.andThen p))

/-- Zero or more items with separators between them. -/
def sepBy (p : Parser src α) (separator : Parser src β) : Parser src (List α) :=
  withDefault [] (sepBy1 p separator)

/-! ## Whitespace -/

/-- Any whitespace. -/
def spaces : Parser src Text := many (ofClass .space)

/-- Some whitespace. -/
def spaces1 : Parser src Text := label "whitespace" (many1 (ofClass .space))

/-- The characters up to the next whitespace. -/
def notSpaces : Parser src Text := many (satisfy fun c => !isSpace c)

/-- The characters up to the next whitespace, at least one. -/
def notSpaces1 : Parser src Text :=
  label "one or more non-whitespace characters" (many1 (satisfy fun c => !isSpace c))

end Parser

end Descent
