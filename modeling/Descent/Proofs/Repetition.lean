import Descent.Proofs.Alternatives
import Descent.Proofs.Sequencing

/-!
# What a repetition does

A repetition makes strides, steps that each move forward (`Parser.Strides`).  It succeeds after a
step that does not move forward, or where the parser declines and enough values were collected
(`Parser.Repeats`), and it fails where a stride ends at a fatal failure or at one that comes too
early (`Parser.Breaks`).  Nothing is asked of the parser: it may read nothing, move backwards or
claim any text.

Strides can be taken off the front of a repetition all at once (`Parser.Strides.repeated_eq`), which
gives the outcome from the steps.  That there are no other outcomes is an induction along the
rounds.
-/

namespace Descent

variable {src : Source} {α β γ : Type}

/-- The success of steps run one after another from `input` to `stop`, their values put together by
`join`. -/
def Success.ofSteps (join : List α → β) (input : Stream src) (steps : List (Success src α))
    (stop : Stream src) : Success src β :=
  ⟨join (steps.map Success.value), input, stop, steps.flatMap Success.matched⟩

namespace Parser

/-- The parser succeeds step after step from `input` to `place`, each step starting where the one
before it ended and moving forward. -/
inductive Strides (p : Parser src α) : Stream src → List (Success src α) → Stream src → Prop where
  | nil (input : Stream src) : Strides p input [] input
  | cons {input place : Stream src} {s : Success src α} {steps : List (Success src α)} :
      p input = .success s → input.cursor < s.next.cursor → Strides p s.next steps place →
      Strides p input (s :: steps) place

/-- The steps of a repetition that succeeds: there are at least `least`, all but the last move
forward, and either the last one does not, or the parser declines where it ended. -/
inductive Repeats (p : Parser src α) (least : Nat) (input : Stream src) :
    List (Success src α) → Stream src → Prop where
  | declined {steps : List (Success src α)} {stop : Stream src} :
      p.Strides input steps stop → p.Declines stop → least ≤ steps.length →
      Repeats p least input steps stop
  | stalled {steps : List (Success src α)} {place : Stream src} {last : Success src α} :
      p.Strides input steps place → p place = .success last → last.next.cursor ≤ place.cursor →
      least ≤ (steps ++ [last]).length → Repeats p least input (steps ++ [last]) last.next

/-- Strides lead to a failure that is fatal or comes before the `least`-th value. -/
def Breaks (p : Parser src α) (least : Nat) (input : Stream src) (f : Failure src) : Prop :=
  ∃ steps place, p.Strides input steps place ∧ p place = .failure f ∧
    (f.fatal = true ∨ steps.length < least)

/-- The parser `q` repeats `p` at least `least` times and puts the values together by `join`: its
successes are those of the steps of `p`, and its failures are the failures of `p` that break the
repetition. -/
structure IsRepetition (p : Parser src α) (least : Nat) (join : List α → β) (q : Parser src β) :
    Prop where
  success_iff : ∀ input done, q input = .success done ↔
    ∃ steps stop, p.Repeats least input steps stop ∧ done = .ofSteps join input steps stop
  failure_iff : ∀ input f, q input = .failure f ↔ p.Breaks least input f

variable {p : Parser src α} {least : Nat} {input place stop : Stream src}
  {steps : List (Success src α)} {f : Failure src}

theorem Strides.append {others : List (Success src α)} (h : p.Strides input steps place)
    (h' : p.Strides place others stop) : p.Strides input (steps ++ others) stop := by
  induction h with
  | nil => exact h'
  | cons hs hadvance _ ih => exact .cons hs hadvance (ih h')

/-! ## From the steps to the outcome -/

/-- A repetition goes through strides and goes on where they end. -/
theorem Strides.repeated_eq (h : p.Strides input steps place) (least : Nat) :
    p.repeated least input = p.repeated (least - steps.length) place >>= fun others =>
      pure ⟨steps.map Success.value ++ others.value, input, others.next,
        steps.flatMap Success.matched ++ others.matched⟩ := by
  induction h generalizing least with
  | nil input => exact ((startsAtInput_repeated least p).restart input).symm
  | cons hs hadvance _ ih =>
    rw [repeated_of_advance hs hadvance, ih, bind_assoc, List.length_cons, Nat.add_comm,
      Nat.sub_sub]
    refine bind_congr fun others => ?_
    simp only [Outcome.pure_eq_success, Outcome.success_bind, List.map_cons, List.flatMap_cons,
      List.cons_append, List.append_assoc]

theorem Repeats.repeated_eq (h : p.Repeats least input steps stop) :
    p.repeated least input = .success (.ofSteps id input steps stop) := by
  cases h with
  | declined hsteps hdeclines hleast =>
    obtain ⟨f, hf, hfatal⟩ := hdeclines
    rw [hsteps.repeated_eq, Nat.sub_eq_zero_of_le hleast, repeated_of_end hf hfatal]
    simp [Success.ofSteps]
  | stalled hsteps hlast hhalt =>
    rw [hsteps.repeated_eq, repeated_of_halt hlast hhalt]
    simp [Success.ofSteps]

theorem Breaks.repeated_eq (h : p.Breaks least input f) : p.repeated least input = .failure f := by
  obtain ⟨steps, place, hsteps, hf, hbreaks⟩ := h
  have hbreaks' : f.fatal = true ∨ 0 < least - steps.length :=
    hbreaks.imp_right fun hleast => Nat.sub_pos_of_lt hleast
  rw [hsteps.repeated_eq, repeated_of_failure hf hbreaks', Outcome.failure_bind]

/-! ## From the outcome to the steps -/

section Cons

variable {s : Success src α} (hs : p input = .success s) (hadvance : input.cursor < s.next.cursor)

include hs hadvance

theorem Repeats.cons (h : p.Repeats (least - 1) s.next steps stop) :
    p.Repeats least input (s :: steps) stop := by
  cases h with
  | declined hsteps hdeclines hleast =>
    exact .declined (.cons hs hadvance hsteps) hdeclines (Nat.le_add_of_sub_le hleast)
  | stalled hsteps hlast hhalt hleast =>
    exact .stalled (.cons hs hadvance hsteps) hlast hhalt (Nat.le_add_of_sub_le hleast)

theorem Breaks.cons (h : p.Breaks (least - 1) s.next f) : p.Breaks least input f := by
  obtain ⟨steps, place, hsteps, hf, hbreaks⟩ := h
  refine ⟨s :: steps, place, .cons hs hadvance hsteps, hf, hbreaks.imp_right fun hleast => ?_⟩
  rw [List.length_cons]
  omega

end Cons

/-- A repetition that needs at most one value has its outcome from steps or from a failure that
breaks it. -/
theorem ensures_repeats (hleast : least ≤ 1) (input : Stream src) :
    (p.repeated least input).Ensures
      (fun done => ∃ steps stop, p.Repeats least input steps stop ∧
        done = .ofSteps id input steps stop)
      (p.Breaks least input) := by
  induction least, input using repeatedInduction (p := p) with
  | advance least input s hs hadvance ih =>
    have hrest := (ih (by omega)).mono (fun _ h => h) fun f hf => Breaks.cons hs hadvance hf
    refine hrest.bind fun others hothers => ?_
    obtain ⟨steps, stop, hsteps, rfl⟩ := hothers
    exact ⟨s :: steps, stop, hsteps.cons hs hadvance, rfl⟩
  | halt least input s hs hhalt =>
    refine ⟨[s], s.next, .stalled (.nil input) hs hhalt hleast, ?_⟩
    simp [Success.ofSteps]
  | failure least input f hf hbreaks =>
    exact ⟨[], input, .nil input, hf, hbreaks⟩
  | finish input f hf hfatal =>
    exact ⟨[], input, .declined (.nil input) ⟨f, hf, hfatal⟩ (Nat.zero_le _), rfl⟩
  | undecided => trivial

theorem isRepetition_repeated (hleast : least ≤ 1) (p : Parser src α) :
    IsRepetition p least id (p.repeated least) where
  success_iff input done := by
    refine ⟨(ensures_repeats hleast input).of_success, ?_⟩
    rintro ⟨steps, stop, hsteps, rfl⟩
    exact hsteps.repeated_eq
  failure_iff input f := ⟨(ensures_repeats hleast input).of_failure, Breaks.repeated_eq⟩

/-! ## Joined values -/

theorem map_eq_success_iff {q : Parser src β} (g : β → γ) {done : Success src γ} :
    q.map g input = .success done ↔ ∃ s, q input = .success s ∧ done = s.map g := by
  rcases hq : q input with s | f | _
  · rw [map_of_success g hq]
    simp [eq_comm]
  · rw [map_of_failure g hq]
    simp
  · rw [map_of_undecided g hq]
    simp

theorem map_eq_failure_iff {q : Parser src β} (g : β → γ) :
    q.map g input = .failure f ↔ q input = .failure f := by
  rcases hq : q input with s | e | _
  · rw [map_of_success g hq]
    simp
  · rw [map_of_failure g hq]
    simp
  · rw [map_of_undecided g hq]
    simp

theorem IsRepetition.map {join : List α → β} {q : Parser src β} (h : IsRepetition p least join q)
    (g : β → γ) : IsRepetition p least (fun values => g (join values)) (q.map g) where
  success_iff input done := by
    rw [map_eq_success_iff]
    constructor
    · rintro ⟨s, hs, rfl⟩
      obtain ⟨steps, stop, hsteps, rfl⟩ := (h.success_iff input s).1 hs
      exact ⟨steps, stop, hsteps, rfl⟩
    · rintro ⟨steps, stop, hsteps, rfl⟩
      exact ⟨_, (h.success_iff input _).2 ⟨steps, stop, hsteps, rfl⟩, rfl⟩
  failure_iff input f := (map_eq_failure_iff g).trans (h.failure_iff input f)

/-- **What repetitions do.** Collecting and joining the values of any parser, zero or more or one or
more, has the success of a chain of steps that all move forward but for the last one, which ends
with a step that does not or where the parser declines; and it has the failure of the parser at the
end of a chain that moves forward, if that failure is fatal or comes before the first value that is
needed. -/
theorem repetition_outcomes (p : Parser src α) :
    IsRepetition p 0 id p.collect ∧ IsRepetition p 1 id p.collect1 ∧
      ∀ _ : Fragment α, IsRepetition p 0 (fun values => values.flatMap Fragment.text) p.many ∧
        IsRepetition p 1 (fun values => values.flatMap Fragment.text) p.many1 := by
  have hcollect : IsRepetition p 0 id p.collect := isRepetition_repeated (Nat.zero_le _) p
  have hcollect1 : IsRepetition p 1 id p.collect1 := isRepetition_repeated (Nat.le_refl _) p
  exact ⟨hcollect, hcollect1, fun _ => ⟨hcollect.map Fragment.text, hcollect1.map Fragment.text⟩⟩

end Parser

end Descent
