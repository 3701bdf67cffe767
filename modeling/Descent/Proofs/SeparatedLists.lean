import Descent.Proofs.Ending
import Descent.Proofs.RepetitionLaws

/-!
# Separated lists

A separated list is read as a first item and then rounds, each a separator and the item after it
(`ListReading`).  The rounds move forward, all but a last one that may not (`Parser.ReadsTail`);
they end there, or where the separator or the item after it declines, and then the list ends with
the last item: the separator that was read in vain is not part of it.

The rounds of a list are the steps of a repetition of separator and item.  So what a list does is
what that repetition does, with every step taken apart into its two halves
(`Parser.strides_andThen_iff`).
-/

namespace Descent

variable {src : Source} {α β : Type}

/-! ## Lists as they were read -/

/-- A separator and the item after it, as they were read from `start`. -/
structure Round (src : Source) (α β : Type) where
  start : Stream src
  separator : Success src β
  item : Success src α

namespace Round

/-- The text of the separator and of the item. -/
def matched (r : Round src α β) : Text := r.separator.matched ++ r.item.matched

/-- The round as one step that gives the item. -/
def joined (r : Round src α β) : Success src α := ⟨r.item.value, r.start, r.item.next, r.matched⟩

theorem map_value_joined (rounds : List (Round src α β)) :
    (rounds.map joined).map Success.value = (rounds.map item).map Success.value := by
  simp [joined]

theorem flatMap_matched_joined (rounds : List (Round src α β)) :
    (rounds.map joined).flatMap Success.matched = rounds.flatMap matched := by
  simp [joined, List.flatMap_map]

end Round

/-- A list as it was read: its first item, and the rounds after it. -/
structure ListReading (src : Source) (α β : Type) where
  first : Success src α
  rounds : List (Round src α β)

namespace ListReading

/-- The items in order. -/
def items (l : ListReading src α β) : List (Success src α) := l.first :: l.rounds.map Round.item

/-- The last item. -/
def last (l : ListReading src α β) : Success src α := l.items.getLast (List.cons_ne_nil _ _)

/-- The texts of the items and the separators in order. -/
def matched (l : ListReading src α β) : Text := l.first.matched ++ l.rounds.flatMap Round.matched

/-- The success of a list, which ends where its last item ends. -/
def success (input : Stream src) (l : ListReading src α β) : Success src (List α) :=
  ⟨l.items.map Success.value, input, l.last.next, l.matched⟩

theorem last_cons (first : Success src α) (r : Round src α β) (rounds : List (Round src α β)) :
    (⟨first, r :: rounds⟩ : ListReading src α β).last =
    (⟨r.item, rounds⟩ : ListReading src α β).last :=
  List.getLast_cons _

theorem last_append (first : Success src α) (rounds : List (Round src α β)) (r : Round src α β) :
    (⟨first, rounds ++ [r]⟩ : ListReading src α β).last = r.item := by
  induction rounds generalizing first with
  | nil => rfl
  | cons q rounds ih =>
    rw [List.cons_append, last_cons]
    exact ih q.item

end ListReading

namespace Parser

/-- A round of separator and item is read. -/
def ReadsRound (p : Parser src α) (separator : Parser src β) (r : Round src α β) : Prop :=
  separator r.start = .success r.separator ∧ p r.separator.next = .success r.item

/-- The round at a place fails, in the separator or in the item after it. -/
def RoundFails (p : Parser src α) (separator : Parser src β) (place : Stream src)
    (f : Failure src) : Prop :=
  separator place = .failure f ∨ ∃ t, separator place = .success t ∧ p t.next = .failure f

/-- Round after round is read from one place to another, each starting where the item before it
ended and moving forward. -/
inductive ReadsRounds (p : Parser src α) (separator : Parser src β) :
    Stream src → List (Round src α β) → Stream src → Prop where
  | nil (place : Stream src) : ReadsRounds p separator place [] place
  | cons {r : Round src α β} {rounds : List (Round src α β)} {stop : Stream src} :
      p.ReadsRound separator r → r.start.cursor < r.item.next.cursor →
      ReadsRounds p separator r.item.next rounds stop →
      ReadsRounds p separator r.start (r :: rounds) stop

/-- The rounds of a list that succeeds: they end where the next round declines, or with a round that
does not move forward. -/
inductive ReadsTail (p : Parser src α) (separator : Parser src β) (place : Stream src) :
    List (Round src α β) → Prop where
  | declined {rounds : List (Round src α β)} {stop : Stream src} {f : Failure src} :
      p.ReadsRounds separator place rounds stop → p.RoundFails separator stop f → f.fatal = false →
      ReadsTail p separator place rounds
  | stalled {rounds : List (Round src α β)} {r : Round src α β} :
      p.ReadsRounds separator place rounds r.start → p.ReadsRound separator r →
      r.item.next.cursor ≤ r.start.cursor → ReadsTail p separator place (rounds ++ [r])

/-- A list is read: the first item at the input, and the rounds from where it ended. -/
structure ReadsList (p : Parser src α) (separator : Parser src β) (input : Stream src)
    (l : ListReading src α β) : Prop where
  first : p input = .success l.first
  tail : p.ReadsTail separator l.first.next l.rounds

/-! ## Halves of a round -/

variable {p : Parser src α} {separator : Parser src β} {input place stop : Stream src}
    {f : Failure src}

theorem bind_eq_success_iff {next : α → Stream src → Parser src β} {done : Success src β} :
    p.bind next input = .success done ↔ ∃ s t, p input = .success s ∧
      next s.value input s.next = .success t ∧
        done = ⟨t.value, input, t.next, s.matched ++ t.matched⟩ := by
  unfold Parser.bind
  simp only [Outcome.bind_eq_success_iff, Outcome.pure_eq_success, Outcome.success.injEq]
  constructor
  · rintro ⟨s, hs, t, ht, rfl⟩
    exact ⟨s, t, hs, ht, rfl⟩
  · rintro ⟨s, t, hs, ht, rfl⟩
    exact ⟨s, hs, t, ht, rfl⟩

theorem bind_eq_failure_iff {next : α → Stream src → Parser src β} :
    p.bind next input = .failure f ↔ p input = .failure f ∨
      ∃ s, p input = .success s ∧ next s.value input s.next = .failure f := by
  unfold Parser.bind
  simp [Outcome.bind_eq_failure_iff]

theorem andThen_eq_success_iff {done : Success src α} :
    separator.andThen p place = .success done ↔
      ∃ r : Round src α β, r.start = place ∧ p.ReadsRound separator r ∧ done = r.joined := by
  rw [andThen, bind_eq_success_iff]
  constructor
  · rintro ⟨t, s, ht, hs, rfl⟩
    exact ⟨⟨place, t, s⟩, rfl, ⟨ht, hs⟩, rfl⟩
  · rintro ⟨r, rfl, ⟨ht, hs⟩, rfl⟩
    exact ⟨r.separator, r.item, ht, hs, rfl⟩

theorem andThen_eq_failure_iff :
    separator.andThen p place = .failure f ↔ p.RoundFails separator place f :=
  bind_eq_failure_iff

/-! ## Rounds as steps of a repetition -/

/-- The strides of separator and item are the joined rounds. -/
theorem strides_andThen_iff {steps : List (Success src α)} :
    (separator.andThen p).Strides place steps stop ↔
      ∃ rounds, p.ReadsRounds separator place rounds stop ∧ steps = rounds.map Round.joined := by
  constructor
  · intro h
    induction h with
    | nil place => exact ⟨[], .nil place, rfl⟩
    | cons hs hadvance _ ih =>
      obtain ⟨r, rfl, hround, rfl⟩ := andThen_eq_success_iff.1 hs
      obtain ⟨rounds, hrounds, rfl⟩ := ih
      exact ⟨r :: rounds, .cons hround hadvance hrounds, rfl⟩
  · rintro ⟨rounds, h, rfl⟩
    induction h with
    | nil place => exact .nil place
    | cons hround hadvance _ ih =>
      exact .cons (andThen_eq_success_iff.2 ⟨_, rfl, hround, rfl⟩) hadvance ih

/-- Rounds end where the last item ends, be it the one before them. -/
theorem ReadsRounds.stop_eq {first : Success src α} {rounds : List (Round src α β)}
    (h : p.ReadsRounds separator first.next rounds stop) :
    stop = (⟨first, rounds⟩ : ListReading src α β).last.next := by
  generalize hplace : first.next = place at h
  induction h generalizing first with
  | nil => exact hplace.symm
  | cons _ _ _ ih =>
    rw [ListReading.last_cons]
    exact ih rfl

theorem ReadsTail.repeats {first : Success src α} {rounds : List (Round src α β)}
    (h : p.ReadsTail separator first.next rounds) :
    (separator.andThen p).Repeats 0 first.next (rounds.map Round.joined)
      (⟨first, rounds⟩ : ListReading src α β).last.next := by
  cases h with
  | declined hrounds hfails hfatal =>
    rw [← hrounds.stop_eq]
    exact .declined (strides_andThen_iff.2 ⟨_, hrounds, rfl⟩)
      ⟨_, andThen_eq_failure_iff.2 hfails, hfatal⟩
      (Nat.zero_le _)
  | stalled hrounds hround hhalt =>
    rw [ListReading.last_append, List.map_append]
    exact .stalled (strides_andThen_iff.2 ⟨_, hrounds, rfl⟩)
      (andThen_eq_success_iff.2 ⟨_, rfl, hround, rfl⟩) hhalt (Nat.zero_le _)

theorem exists_readsTail {first : Success src α} {steps : List (Success src α)}
    (h : (separator.andThen p).Repeats 0 first.next steps stop) :
    ∃ rounds, p.ReadsTail separator first.next rounds ∧ steps = rounds.map Round.joined ∧
      stop = (⟨first, rounds⟩ : ListReading src α β).last.next := by
  cases h with
  | declined hsteps hdeclines =>
    obtain ⟨rounds, hrounds, rfl⟩ := strides_andThen_iff.1 hsteps
    obtain ⟨f, hf, hfatal⟩ := hdeclines
    exact ⟨rounds, .declined hrounds (andThen_eq_failure_iff.1 hf) hfatal, rfl, hrounds.stop_eq⟩
  | stalled hsteps hlast hhalt =>
    obtain ⟨rounds, hrounds, rfl⟩ := strides_andThen_iff.1 hsteps
    obtain ⟨r, rfl, hround, rfl⟩ := andThen_eq_success_iff.1 hlast
    refine ⟨rounds ++ [r], .stalled hrounds hround hhalt, ?_, ?_⟩
    · rw [List.map_append, List.map_singleton]
    · rw [ListReading.last_append]
      rfl

/-! ## Lists -/

theorem sepBy1_eq_success_iff {done : Success src (List α)} :
    p.sepBy1 separator input = .success done ↔
      ∃ l, p.ReadsList separator input l ∧ done = l.success input := by
  have hrepetition := isRepetition_repeated (Nat.zero_le 1) (separator.andThen p)
  rw [sepBy1, bind_eq_success_iff]
  constructor
  · rintro ⟨first, tail, hfirst, htail, rfl⟩
    obtain ⟨others, hothers, rfl⟩ := (map_eq_success_iff _).1 htail
    obtain ⟨steps, stop, hsteps, rfl⟩ := (hrepetition.success_iff _ _).1 hothers
    obtain ⟨rounds, hrounds, rfl, rfl⟩ := exists_readsTail hsteps
    refine ⟨⟨first, rounds⟩, ⟨hfirst, hrounds⟩, ?_⟩
    simp only [Success.map, Success.ofSteps, Round.map_value_joined, Round.flatMap_matched_joined]
    rfl
  · rintro ⟨⟨first, rounds⟩, ⟨hfirst, hrounds⟩, rfl⟩
    have hothers := (hrepetition.success_iff _ _).2 ⟨_, _, hrounds.repeats, rfl⟩
    refine ⟨first, _, hfirst, map_of_success _ hothers, ?_⟩
    simp only [Success.map, Success.ofSteps, Round.map_value_joined, Round.flatMap_matched_joined]
    rfl

theorem sepBy1_eq_failure_iff :
    p.sepBy1 separator input = .failure f ↔ p input = .failure f ∨ f.fatal = true ∧
      ∃ first rounds place, p input = .success first ∧
        p.ReadsRounds separator first.next rounds place ∧ p.RoundFails separator place f := by
  have hrepetition := isRepetition_repeated (Nat.zero_le 1) (separator.andThen p)
  rw [sepBy1, bind_eq_failure_iff]
  refine or_congr_right ⟨?_, ?_⟩
  · rintro ⟨first, hfirst, htail⟩
    obtain ⟨steps, place, hsteps, hf, hbreaks⟩ :=
      (hrepetition.failure_iff _ _).1 ((map_eq_failure_iff _).1 htail)
    obtain ⟨rounds, hrounds, rfl⟩ := strides_andThen_iff.1 hsteps
    have hfatal : f.fatal = true := hbreaks.resolve_right (Nat.not_lt_zero _)
    exact ⟨hfatal, first, rounds, place, hfirst, hrounds, andThen_eq_failure_iff.1 hf⟩
  · rintro ⟨hfatal, first, rounds, place, hfirst, hrounds, hfails⟩
    refine ⟨first, hfirst, (map_eq_failure_iff _).2 ((hrepetition.failure_iff _ _).2 ?_)⟩
    exact ⟨_, place, strides_andThen_iff.2 ⟨rounds, hrounds, rfl⟩, andThen_eq_failure_iff.2 hfails,
      .inl hfatal⟩

/-- A list declines just where its first item does. -/
theorem declines_sepBy1_iff : (p.sepBy1 separator).Declines input ↔ p.Declines input := by
  constructor
  · rintro ⟨f, hf, hfatal⟩
    rcases sepBy1_eq_failure_iff.1 hf with hp | ⟨hfatal', -⟩
    · exact ⟨f, hp, hfatal⟩
    · rw [hfatal] at hfatal'
      cases hfatal'
  · rintro ⟨f, hf, hfatal⟩
    exact ⟨f, bind_of_failure hf, hfatal⟩

theorem sepBy_of_declines (h : p.Declines input) :
    p.sepBy separator input = .success ⟨[], input, input, []⟩ := by
  obtain ⟨f, hf, hfatal⟩ : (p.sepBy1 separator).Declines input := declines_sepBy1_iff.2 h
  exact orElse_of_failure hf hfatal

theorem sepBy_of_not_declines (h : ¬ p.Declines input) :
    p.sepBy separator input = p.sepBy1 separator input :=
  orElse_of_not_declines (mt declines_sepBy1_iff.1 h)

theorem value_eq_nil_iff_declines {done : Success src (List α)}
    (h : p.sepBy separator input = .success done) : done.value = [] ↔ p.Declines input := by
  by_cases hp : p.Declines input
  · obtain rfl := Outcome.success.inj ((sepBy_of_declines hp).symm.trans h)
    simp [hp]
  · rw [sepBy_of_not_declines hp] at h
    obtain ⟨l, -, rfl⟩ := sepBy1_eq_success_iff.1 h
    simp [hp, ListReading.success, ListReading.items]

/-- **Separated lists.** A list of one or more items fails with the failure of its first item, or
with a fatal failure of a separator or item in a later round.  It succeeds with the items of the
rounds that were read, and ends where the last of them ends; if the parsers come to an end it does
one or the other.  A list of zero or more items is one of one or more items or nothing, and also
recovers from every failure that is not fatal with nothing.  It is empty just where its first item
declines, and fails only fatally. -/
theorem separated_list_outcomes (p : Parser src α) (separator : Parser src β) (input : Stream src) :
    (∀ f, p.sepBy1 separator input = .failure f ↔ p input = .failure f ∨ f.fatal = true ∧
      ∃ first rounds place, p input = .success first ∧
        p.ReadsRounds separator first.next rounds place ∧ p.RoundFails separator place f) ∧
    (∀ done, p.sepBy1 separator input = .success done ↔
      ∃ l, p.ReadsList separator input l ∧ done = l.success input) ∧
    (p.Ends → separator.Ends →
      (∃ done, p.sepBy1 separator input = .success done) ∨
        ∃ f, p.sepBy1 separator input = .failure f) ∧
    p.sepBy separator input = (p.sepBy1 separator).orElse (succeed []) input ∧
    p.sepBy separator input =
      (p.sepBy1 separator input).recover (fun _ => .success ⟨[], input, input, []⟩) ∧
    (∀ done, p.sepBy separator input = .success done → (done.value = [] ↔ p.Declines input)) ∧
    ∀ f, p.sepBy separator input = .failure f → f.fatal = true := by
  refine ⟨fun _ => sepBy1_eq_failure_iff, fun _ => sepBy1_eq_success_iff, fun hp hs => ?_, rfl, rfl,
    fun _ => value_eq_nil_iff_declines, fun _ => fatal_of_withDefault⟩
  have hround : (separator.andThen p).Ends := hs.bind fun _ _ => hp
  have hlist : (p.sepBy1 separator).Ends := hp.bind fun _ _ => (hround.repeated 0).map _
  rcases h : p.sepBy1 separator input with done | f | _
  · exact .inl ⟨done, rfl⟩
  · exact .inr ⟨f, rfl⟩
  · exact absurd h (hlist input)

/-- A list with a separator too many after its second item: the separator is left. -/
theorem separated_list_outcomes_with_trailing_comma :
    let src : Source := ⟨0, ['a', ',', 'b', ',', '1']⟩
    let letter : Parser src Char := ofClass .lower
    let start : Stream src := .first src
    let stop : Stream src := ⟨['b', ',', 'a'], [',', '1'], 3, rfl, rfl⟩
    letter.Ends ∧ (char ',' : Parser src Char).Ends ∧
      ((∃ done, letter.sepBy1 (char ',') start = .success done) ∨
        ∃ f, letter.sepBy1 (char ',') start = .failure f) ∧
      ∃ l : ListReading src Char Char, letter.ReadsList (char ',') start l ∧
        l.success start = ⟨['a', 'b'], start, stop, ['a', ',', 'b']⟩ ∧ ¬ letter.Declines start := by
  intro src letter start stop
  have hletter : letter.Ends := ends_ofClass .lower
  have hcomma : (char ',' : Parser src Char).Ends := ends_char ','
  have hparse : letter.sepBy1 (char ',') start =
      .success ⟨['a', 'b'], start, stop, ['a', ',', 'b']⟩ := by
    decide +kernel
  have hparse0 : letter.sepBy (char ',') start =
      .success ⟨['a', 'b'], start, stop, ['a', ',', 'b']⟩ := by
    decide +kernel
  obtain ⟨-, hsuccess, hends, -, -, hnil, -⟩ := separated_list_outcomes letter (char ',') start
  obtain ⟨l, hl, hdone⟩ := (hsuccess _).1 hparse
  exact ⟨hletter, hcomma, hends hletter hcomma, l, hl, hdone.symm,
    mt (hnil _ hparse0).2 (List.cons_ne_nil _ _)⟩

end Parser

end Descent
