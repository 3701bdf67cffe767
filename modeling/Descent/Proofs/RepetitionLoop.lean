import Descent.Proofs.Joining
import Descent.Proofs.Repetition

/-!
# The loop of a repetition

A repetition can be run as a loop: its variables are the place reached, the values recorded, their
number and the text matched so far (`Loop`), and one round runs the parser once and either goes on
or leaves (`Loop.turn`).  Nothing in the loop counts down.

It ends all the same.  The variables always hold the strides made so far (`Loop.Reached`).  A round
that goes on has made one more, and of two places the one further on has fewer characters to come; a
round that leaves does so with the outcome of `Parser.repeated` (`Loop.Reached.turn`).  So the loop
is left after at most one round more than there are characters to come (`Loop.Reached.exists_run`).
-/

namespace Descent

variable {memory : Memory} {src : Source} {α : Type}

/-- The variables of a repetition that collects values. -/
structure Loop (memory : Memory) (src : Source) (α : Type) where
  place : Stream src
  values : List α
  count : Nat
  matched : MatchedText memory

/-- What one round of a repetition comes to. -/
inductive Turn (memory : Memory) (src : Source) (α : Type) where
  | again (loop : Loop memory src α)
  | leave (outcome : Outcome src (BorrowingSuccess memory src (List α)))

namespace Loop

/-- The variables before the first round. -/
def enter (input : Stream src) : Loop memory src α := ⟨input, [], 0, .empty⟩

/-- The variables after a step of a repetition that began at `start`. -/
def record (buffer : Buffer memory src) (start : Stream src) (loop : Loop memory src α)
    (step : BorrowingSuccess memory src α) : Loop memory src α where
  place := step.next
  values := loop.values ++ [step.value]
  count := loop.count + 1
  matched := .join buffer start loop.place step.next loop.matched step.matched

/-- The success of a repetition that began at `start`. -/
def done (start : Stream src) (loop : Loop memory src α) : BorrowingSuccess memory src (List α) :=
  ⟨loop.values, start, loop.place, loop.matched⟩

/-- One round: a step that does not move forward is the last one, and a failure is passed on if it
is fatal or comes before the `least`-th value. -/
def turn (buffer : Buffer memory src) (p : BorrowingParser memory src α) (least : Nat)
    (start : Stream src) (loop : Loop memory src α) : Turn memory src α :=
  match p loop.place with
  | .success step =>
    if loop.place.cursor < step.next.cursor then .again (loop.record buffer start step)
    else .leave (.success ((loop.record buffer start step).done start))
  | .failure f =>
    if f.fatal ∨ loop.count < least then .leave (.failure f)
    else .leave (.success (loop.done start))
  | .undecided => .leave .undecided

/-- Goes round until the loop is left, but no more than so many times. -/
def run (buffer : Buffer memory src) (p : BorrowingParser memory src α) (least : Nat)
    (start : Stream src) :
    Nat → Loop memory src α → Option (Outcome src (BorrowingSuccess memory src (List α)))
  | 0, _ => none
  | rounds + 1, loop =>
    match loop.turn buffer p least start with
    | .again next => run buffer p least start rounds next
    | .leave outcome => some outcome

variable {buffer : Buffer memory src} {p : BorrowingParser memory src α} {least : Nat}
  {start : Stream src} {loop : Loop memory src α}

section Turn

variable {step : BorrowingSuccess memory src α} {f : Failure src}

theorem turn_of_advance (h : p loop.place = .success step)
    (hs : loop.place.cursor < step.next.cursor) :
    loop.turn buffer p least start = .again (loop.record buffer start step) := by
  rw [turn, h]
  exact if_pos hs

theorem turn_of_halt (h : p loop.place = .success step)
    (hs : step.next.cursor ≤ loop.place.cursor) :
    loop.turn buffer p least start =
      .leave (.success ((loop.record buffer start step).done start)) := by
  rw [turn, h]
  exact if_neg (Nat.not_lt.2 hs)

theorem turn_of_failure (h : p loop.place = .failure f) (hf : f.fatal = true ∨ loop.count < least) :
    loop.turn buffer p least start = .leave (.failure f) := by
  rw [turn, h]
  exact if_pos hf

theorem turn_of_end (h : p loop.place = .failure f) (hf : ¬ (f.fatal = true ∨ loop.count < least)) :
    loop.turn buffer p least start = .leave (.success (loop.done start)) := by
  rw [turn, h]
  exact if_neg hf

theorem turn_of_undecided (h : p loop.place = .undecided) :
    loop.turn buffer p least start = .leave .undecided := by
  rw [turn, h]

end Turn

/-! ## What the variables hold -/

/-- The variables hold what the steps of a chain that moved forward gave. -/
structure Reached (p : BorrowingParser memory src α) (start : Stream src) (loop : Loop memory src α)
    (steps : List (Success src α)) : Prop where
  strides : p.plain.Strides start steps loop.place
  values_eq : loop.values = steps.map Success.value
  count_eq : loop.count = steps.length
  text_matched : loop.matched.text = steps.flatMap Success.matched

theorem reached_enter (p : BorrowingParser memory src α) (input : Stream src) :
    Reached p input (enter input) [] :=
  ⟨.nil input, rfl, rfl, rfl⟩

variable {steps : List (Success src α)}

theorem Reached.record (h : Reached p start loop steps) {step : BorrowingSuccess memory src α}
    (hstep : p loop.place = .success step) (hadvance : loop.place.cursor < step.next.cursor) :
    Reached p start (loop.record buffer start step) (steps ++ [step.plain]) where
  strides := h.strides.append
    (.cons (BorrowingParser.plain_of_success hstep) hadvance (.nil step.next))
  values_eq := by simp [Loop.record, h.values_eq, BorrowingSuccess.plain]
  count_eq := by simp [Loop.record, h.count_eq]
  text_matched := by simp [Loop.record, MatchedText.text_join, h.text_matched,
    BorrowingSuccess.plain]

/-- What is left to do is a repetition from the place reached. -/
theorem Reached.repeated_eq (h : Reached p start loop steps) (least : Nat) :
    p.plain.repeated least start =
      p.plain.repeated (least - loop.count) loop.place >>= fun others =>
      pure ⟨loop.values ++ others.value, start, others.next,
        loop.matched.text ++ others.matched⟩ := by
  rw [h.strides.repeated_eq least, h.count_eq, h.values_eq, h.text_matched]

/-- A round either goes on with fewer characters to come, or leaves with the outcome of the
repetition. -/
theorem Reached.turn (h : Reached p start loop steps) (buffer : Buffer memory src) (least : Nat) :
    (∃ next step, loop.turn buffer p least start = .again next ∧
      Reached p start next (steps ++ [step]) ∧
      next.place.rest.length < loop.place.rest.length) ∨
    ∃ outcome, loop.turn buffer p least start = .leave outcome ∧
      outcome.plain = p.plain.repeated least start := by
  rw [h.repeated_eq least]
  rcases hp : p loop.place with step | f | _
  · have hplain := BorrowingParser.plain_of_success hp
    rcases Nat.lt_or_ge loop.place.cursor step.next.cursor with hadvance | hhalt
    · left
      exact ⟨_, step.plain, turn_of_advance hp hadvance, h.record hp hadvance,
        Stream.length_rest_lt_of_cursor_lt hadvance⟩
    · right
      refine ⟨_, turn_of_halt hp hhalt, ?_⟩
      rw [Parser.repeated_of_halt hplain hhalt]
      simp [Outcome.plain, Loop.record, done, BorrowingSuccess.plain, MatchedText.text_join]
  · have hplain := BorrowingParser.plain_of_failure hp
    right
    by_cases hbreaks : f.fatal = true ∨ loop.count < least
    · refine ⟨_, turn_of_failure hp hbreaks, ?_⟩
      rw [Parser.repeated_of_failure hplain (hbreaks.imp_right Nat.sub_pos_of_lt)]
      rfl
    · refine ⟨_, turn_of_end hp hbreaks, ?_⟩
      obtain ⟨hfatal, hcount⟩ := not_or.1 hbreaks
      rw [Nat.sub_eq_zero_of_le (Nat.not_lt.1 hcount),
        Parser.repeated_of_end hplain (Bool.eq_false_iff.2 hfatal)]
      simp [Outcome.plain, done, BorrowingSuccess.plain]
  · right
    refine ⟨_, turn_of_undecided hp, ?_⟩
    rw [Parser.repeated_of_undecided (BorrowingParser.plain_of_undecided hp)]
    rfl

/-- With more rounds than there are characters to come, the loop is left, and gives what the
repetition gives. -/
theorem Reached.exists_run (h : Reached p start loop steps) (buffer : Buffer memory src)
    (least : Nat) {rounds : Nat} (hrounds : loop.place.rest.length < rounds) :
    ∃ outcome, loop.run buffer p least start rounds = some outcome ∧
      outcome.plain = p.plain.repeated least start := by
  induction rounds generalizing loop steps with
  | zero => exact absurd hrounds (Nat.not_lt_zero _)
  | succ rounds ih =>
    rw [run]
    rcases h.turn buffer least with ⟨next, step, hturn, hnext, hshorter⟩ | ⟨outcome, hturn, hplain⟩
    · rw [hturn]
      exact ih hnext (by omega)
    · rw [hturn]
      exact ⟨outcome, rfl, hplain⟩

end Loop

namespace Parser

variable {p : Parser src α} {least : Nat} {input place stop : Stream src}
    {steps : List (Success src α)}

/-! ## How many values there are -/

/-- Each stride takes at least one character. -/
theorem Strides.length_add_length_rest_le (h : p.Strides input steps place) :
    steps.length + place.rest.length ≤ input.rest.length := by
  induction h with
  | nil input => simp
  | cons hs hadvance _ ih =>
    have hshorter := Stream.length_rest_lt_of_cursor_lt hadvance
    rw [List.length_cons]
    omega

/-- A chain of strides can be taken apart anywhere. -/
theorem Strides.split {others : List (Success src α)} (h : p.Strides input (steps ++ others) stop) :
    ∃ place, p.Strides input steps place ∧ p.Strides place others stop := by
  induction steps generalizing input with
  | nil => exact ⟨input, .nil input, h⟩
  | cons s steps ih =>
    rw [List.cons_append] at h
    cases h with
    | cons hs hadvance hrest =>
      obtain ⟨place, hsteps, hothers⟩ := ih hrest
      exact ⟨place, .cons hs hadvance hsteps, hothers⟩

/-- All steps of a repetition but the last one are strides, and the last one is made where they
end. -/
theorem Repeats.strides_dropLast (h : p.Repeats least input steps stop) :
    ∃ place, p.Strides input steps.dropLast place ∧
      ∀ last ∈ steps.getLast?, p place = .success last := by
  cases h with
  | @stalled steps place last hsteps hlast _ _ =>
    rw [List.dropLast_concat, List.getLast?_concat]
    exact ⟨place, hsteps, fun other hother => Option.mem_some_iff.1 hother ▸ hlast⟩
  | declined hsteps _ _ =>
    rcases List.eq_nil_or_concat steps with rfl | ⟨others, last, rfl⟩
    · exact ⟨input, .nil input, nofun⟩
    · rw [List.concat_eq_append] at hsteps ⊢
      obtain ⟨place, hothers, hlast⟩ := hsteps.split
      rw [List.dropLast_concat, List.getLast?_concat]
      cases hlast with
      | cons hlast _ _ =>
        exact ⟨place, hothers, fun other hother => Option.mem_some_iff.1 hother ▸ hlast⟩

/-- A repetition makes at most one step more than there are characters to come. -/
theorem Repeats.length_le (h : p.Repeats least input steps stop) :
    steps.length ≤ input.rest.length + 1 := by
  obtain ⟨place, hsteps, -⟩ := h.strides_dropLast
  have hlength := hsteps.length_add_length_rest_le
  rw [List.length_dropLast] at hlength
  omega

end Parser

/-- **Repetitions end.** For a parser that returns everywhere, whatever else it does, the loop of a
repetition is left after at most one round more than there are characters to come, with the outcome
of the repetition.  So many values are recorded at most, one by each step, and all steps but perhaps
the last one moved forward. -/
theorem Loop.repetition_ends (buffer : Buffer memory src) (p : BorrowingParser memory src α)
    (hp : ∀ place, p place ≠ .undecided) (input : Stream src) :
    (∀ least, ∃ outcome,
      (enter input).run buffer p least input (input.rest.length + 1) = some outcome ∧
      outcome.plain = p.plain.repeated least input ∧ outcome ≠ .undecided) ∧
    ∀ q ∈ [p.plain.collect, p.plain.collect1], ∀ done, q input = .success done →
      done.value.length ≤ input.rest.length + 1 ∧
      ∃ (steps : List (Success src α)) (place : Stream src), done.value = steps.map Success.value ∧
        p.plain.Strides input steps.dropLast place ∧
        ∀ last ∈ steps.getLast?, p.plain place = .success last := by
  constructor
  · intro least
    obtain ⟨outcome, hrun, hplain⟩ :=
      (reached_enter p input).exists_run buffer least (Nat.lt_succ_self _)
    refine ⟨outcome, hrun, hplain, ?_⟩
    rintro rfl
    have hends : p.plain.Ends := fun place => BorrowingParser.plain_ne_undecided (hp place)
    exact hends.repeated least input hplain.symm
  · intro q hq done hdone
    have hrepeats : ∃ least steps stop, p.plain.Repeats least input steps stop ∧
        done = .ofSteps id input steps stop := by
      simp only [List.mem_cons, List.not_mem_nil, or_false] at hq
      rcases hq with rfl | rfl
      · exact ⟨0, ((p.plain.isRepetition_repeated (Nat.zero_le 1)).success_iff input done).1 hdone⟩
      · exact ⟨1, ((p.plain.isRepetition_repeated (Nat.le_refl 1)).success_iff input done).1 hdone⟩
    obtain ⟨least, steps, stop, hsteps, rfl⟩ := hrepeats
    obtain ⟨place, hstrides, hlast⟩ := hsteps.strides_dropLast
    refine ⟨?_, steps, place, rfl, hstrides, hlast⟩
    rw [Success.ofSteps, id, List.length_map]
    exact hsteps.length_le

/-- A step that borrows one character, and at the end goes back to the beginning and makes a text
up. -/
theorem Loop.repetition_ends_going_back :
    let src : Source := ⟨0, ['é', 'b']⟩
    let memory : Memory := fun address => (utf8 src.text).getD (address - 7) 0
    let buffer : Buffer memory src := ⟨7, rfl⟩
    let start : Stream src := .first src
    let p : BorrowingParser memory src (Option Char) := fun place =>
      match place.uncons with
      | some (c, next) => .success ⟨some c, place, next, .borrowed (buffer.slice place next)⟩
      | none => .success ⟨none, place, .first src, .owned ['!']⟩
    let done : Success src (List (Option Char)) :=
      ⟨[some 'é', some 'b', none], start, start, ['é', 'b', '!']⟩
    (∀ place, p place ≠ .undecided) ∧
      (∃ outcome, (enter start).run buffer p 1 start 3 = some outcome ∧
        outcome.plain = .success done) ∧
      p.plain.collect1 start = .success done ∧ done.value.length ≤ 3 ∧
      ∃ (steps : List (Success src (Option Char))) (place : Stream src),
        done.value = steps.map Success.value ∧ p.plain.Strides start steps.dropLast place := by
  intro src memory buffer start p done
  have hp : ∀ place, p place ≠ .undecided := by
    intro place
    rcases h : place.uncons with _ | ⟨c, next⟩ <;> simp [p, h]
  obtain ⟨hends, hrecorded⟩ := repetition_ends buffer p hp start
  obtain ⟨outcome, hrun, hplain, -⟩ := hends 1
  have hdone : outcome.plain = .success done := by
    obtain rfl := Option.some.inj hrun
    rfl
  have hcollect1 : p.plain.collect1 start = .success done := hplain.symm.trans hdone
  obtain ⟨hlength, steps, place, hvalues, hstrides, -⟩ :=
    hrecorded p.plain.collect1 (List.mem_cons_of_mem _ List.mem_cons_self) done hcollect1
  exact ⟨hp, ⟨outcome, hrun, hdone⟩, hcollect1, hlength, steps, place, hvalues, hstrides⟩

end Descent
