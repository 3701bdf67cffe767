import Descent.Proofs.Slicing

/-!
# Every place stays valid

Whatever a built parser does, also with injected text and with jumps back, a success starts at the
input (`Built.startsAtInput`), and its end and the place of a failure are places of the source.  So
nothing that is read at them by slices is out of range, and only the span of a success that ends
before its start is undefined.
-/

namespace Descent

variable {src : Source} {α : Type}

/-- Every success starts where the parser was run. -/
def Parser.StartsAtInput (p : Parser src α) : Prop :=
  ∀ input, (p input).Ensures (fun s => s.start = input) fun _ => True

theorem Outcome.ensures_true {σ : Type} (o : Outcome src σ) :
    o.Ensures (fun _ => True) fun _ => True :=
  ensures_of_forall_failure fun _ _ => trivial

namespace Parser

theorem startsAtInput_endOfInput : (endOfInput : Parser src Unit).StartsAtInput := by
  intro input
  by_cases h : input.rest = []
  · rw [endOfInput_of_rest_eq_nil h]
    rfl
  · rw [endOfInput_of_rest_ne_nil h]
    trivial

theorem startsAtInput_satisfy (test : Char → Bool) :
    (satisfy test : Parser src Char).StartsAtInput := by
  intro input
  rcases h : input.uncons with _ | ⟨c, next⟩
  · rw [satisfy_of_uncons_eq_none h]
    trivial
  · rw [satisfy_of_uncons_eq_some h]
    split
    · rfl
    · trivial

theorem startsAtInput_literal (t : Text) : (literal t : Parser src Text).StartsAtInput := by
  intro input
  unfold literal
  split
  · rfl
  · trivial

/-- A repetition starts at the input whatever its rounds do. -/
theorem startsAtInput_repeated (least : Nat) (p : Parser src α) :
    (p.repeated least).StartsAtInput := by
  refine ensures_repeated (P := fun _ _ => True) (fun _ => Outcome.ensures_true _) ?_ ?_ ?_ ?_ least
  · exact fun _ => rfl
  · exact fun _ _ _ _ => rfl
  · exact fun _ _ _ _ _ _ => rfl
  · exact fun _ _ _ _ _ => trivial

end Parser

/-- Built parsers start at the input, with injections and jumps too. -/
theorem Built.startsAtInput {allowed : List Feature} {p : Parser src α} (h : Built allowed p) :
    p.StartsAtInput := by
  induction h with
  | undecided => exact fun _ => trivial
  | succeed value => exact fun _ => rfl
  | succeedWith _ value matched => exact fun _ => rfl
  | fail => exact fun _ => trivial
  | endOfInput => exact Parser.startsAtInput_endOfInput
  | satisfy test => exact Parser.startsAtInput_satisfy test
  | literal t => exact Parser.startsAtInput_literal t
  | map f _ ih => exact fun input => (ih input).bind fun _ hs => hs
  | label description _ ih => exact fun input => (ih input).mapFailure fun _ _ => trivial
  | cut _ _ ih => exact fun input => (ih input).mapFailure fun _ _ => trivial
  | peek _ _ ih => exact fun input => (ih input).bind fun _ _ => rfl
  | rewind _ _ ih => exact fun input => (ih input).bind fun _ hs => hs
  | orElse _ _ ihp ihq =>
    exact fun input => (ihp input).recover fun _ _ => (ihq input).mapFailure fun _ _ => trivial
  | choice _ ih =>
    exact fun input =>
      Parser.ensures_choice (fun p hp => ih p hp input) (fun _ _ _ _ => trivial) trivial
  | bind _ _ ihp ihnext =>
    exact fun input => (ihp input).bind fun first _ =>
      (ihnext first.value input first.next).bind fun _ _ => rfl
  | between _ _ _ ihopening ihp ihclosing =>
    exact fun input => (ihopening input).bind fun first _ => (ihp first.next).bind fun middle _ =>
      (ihclosing middle.next).bind fun _ _ => rfl
  | sequence empty _ _ =>
    intro input
    refine Parser.ensures_continueWith (fun p _ done hdone => ?_) rfl
    exact (Outcome.ensures_true _).mono (fun _ _ => hdone) fun _ hf => hf
  | repeated least _ _ => exact Parser.startsAtInput_repeated least _
  | program S _ _ _ => exact fun input => (Outcome.ensures_true _).bind fun _ _ => rfl

/-- **Validity.** A success of a built parser starts at the input and ends at a character boundary
of the source, and a failure lies at one.  At every place of the source, reading by slices is
defined and gives what the stream gives, and so is the wording of a failure at any width.  The span
of a success has no length, and selects nothing, just if the success ends before it starts. -/
theorem Built.places_stay_valid {allowed : List Feature} {p : Parser src α} (h : Built allowed p)
    (input : Stream src) :
    (∀ s, p input = .success s → s.start = input ∧
      IsBoundary src.text s.next.cursor ∧ s.next.cursor ≤ byteLength src.text ∧
      (s.span.length? = none ↔ s.next.cursor < s.start.cursor) ∧
      (s.span.slice? = none ↔ s.next.cursor < s.start.cursor)) ∧
    (∀ f, p input = .failure f →
      IsBoundary src.text f.cursor ∧ f.cursor ≤ byteLength src.text ∧
      ∀ width, renderAt? src.text f.cursor f.expected width = some (f.renderWith width)) ∧
    (∀ place place' : Stream src,
      unconsAt? src.text place.cursor = some (place.uncons.map fun r => (r.1, r.2.cursor)) ∧
      restAt? src.text place.cursor = some place.rest ∧
      sliceAt? src.text place.cursor place'.cursor = some (place.sliceTo place')) := by
  refine ⟨fun s hs => ?_, fun f _ => ?_, fun place place' => ?_⟩
  · obtain ⟨hlength, hslice⟩ := s.span_undefined_iff
    exact ⟨(h.startsAtInput input).of_success hs, s.next.isBoundary_cursor,
      s.next.isBoundary_cursor.le, hlength, hslice⟩
  · exact ⟨f.position.isBoundary_cursor, f.position.isBoundary_cursor.le, f.renderAt?_cursor⟩
  · exact ⟨place.unconsAt?_cursor, place.restAt?_cursor, place.sliceAt?_cursor place'⟩

/-- A rewinding parser after a character of two bytes ends before it starts. -/
theorem places_stay_valid_after_rewind :
    let src : Source := ⟨0, ['é', 'b']⟩
    let input : Stream src := ⟨['é'], ['b'], 2, rfl, rfl⟩
    let p : Parser src Char := (Parser.char 'b').rewind
    ∃ s, p input = .success s ∧ s.next.cursor = 0 ∧ s.start = input ∧
      IsBoundary src.text s.next.cursor ∧ s.span.length? = none ∧ s.span.slice? = none ∧
      sliceAt? src.text s.next.cursor s.start.cursor = some ['é'] := by
  intro src input p
  have hbuilt : Built [.jump] p := .rewind List.mem_cons_self (.char 'b')
  have hparse : p input = .success ⟨'b', input, .first src, ['b']⟩ := rfl
  obtain ⟨hsuccess, -, hplaces⟩ := hbuilt.places_stay_valid input
  obtain ⟨hstart, hboundary, -, hlength, hslice⟩ := hsuccess _ hparse
  refine ⟨_, hparse, rfl, hstart, hboundary, hlength.2 ?_, hslice.2 ?_, (hplaces _ _).2.2⟩
  · decide
  · decide

end Descent
