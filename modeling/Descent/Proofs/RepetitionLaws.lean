import Descent.Proofs.Recovery
import Descent.Proofs.Repetition

/-!
# Laws of repetition

Zero or more is one or more, or nothing (`Parser.collect_eq_orElse`), and one or more is one and
then zero or more, if the one moves forward (`Parser.collect1_eq_bind`).  Both hold for whole
outcomes and for any parser: a fatal failure ends both sides alike, and so does a step that does not
move forward.

Values can also be put together while the repetition goes on: `Parser.gather` keeps a buffer and
what was matched so far, and pushes each value as it comes.  That gives the same as collecting the
values first (`Parser.gather_eq`), so joining texts on the way is joining the text of the collected
list.
-/

namespace Descent

variable {src : Source} {α β : Type}

namespace Outcome

variable {σ τ : Type}

/-- Changing failures and changing values do not get in each other's way. -/
theorem mapFailure_bind_pure (change : Failure src → Failure src) (g : σ → τ) (o : Outcome src σ) :
    (o.mapFailure change >>= fun s => pure (g s)) =
    (o >>= fun s => pure (g s)).mapFailure change := by
  cases o <;> rfl

theorem recover_bind_pure (resume : Failure src → Outcome src σ) (g : σ → τ) (o : Outcome src σ) :
    (o.recover resume >>= fun s => pure (g s)) =
      (o >>= fun s => pure (g s)).recover fun f => resume f >>= fun s => pure (g s) := by
  cases o with
  | success s => rfl
  | failure f =>
    cases hf : f.fatal with
    | true =>
      rw [failure_bind, recover_failure_of_fatal _ hf, recover_failure_of_fatal _ hf, failure_bind]
    | false => rw [failure_bind, recover_failure _ hf, recover_failure _ hf]
  | undecided => rfl

end Outcome

/-- Pushing the texts of values one by one puts them together. -/
theorem Fragment.foldl_pushTo [Fragment α] (buffer : Text) (values : List α) :
    values.foldl pushTo buffer = buffer ++ text values := by
  rw [text_list]
  induction values generalizing buffer with
  | nil => simp
  | cons v values ih => rw [List.foldl_cons, ih, pushTo, List.flatMap_cons, List.append_assoc]

namespace Parser

variable {p : Parser src α} {input : Stream src}

/-! ## Values of alternatives -/

theorem map_succeed (g : α → β) (value : α) :
    map g (succeed value : Parser src α) = succeed (g value) := rfl

theorem map_orElse (g : α → β) (p q : Parser src α) :
    map g (p.orElse q) = (map g p).orElse (map g q) := by
  funext input
  unfold map orElse
  rw [Outcome.recover_bind_pure]
  simp only [Outcome.mapFailure_bind_pure]

/-! ## Zero or more from one or more -/

/-- Zero or more does not decline: it fails only fatally. -/
theorem not_declines_collect : ¬ p.collect.Declines input := by
  rintro ⟨f, hf, hfatal⟩
  rw [fatal_of_collect hf] at hfatal
  cases hfatal

/-- Where the parser does not decline at once, asking for one value changes nothing. -/
theorem collect1_of_not_declines (hp : ¬ p.Declines input) :
    p.collect1 input = p.collect input := by
  unfold collect1 collect
  rcases h : p input with s | f | _
  · rcases Nat.lt_or_ge input.cursor s.next.cursor with hadvance | hhalt
    · rw [repeated_of_advance h hadvance, repeated_of_advance h hadvance]
    · rw [repeated_of_halt h hhalt, repeated_of_halt h hhalt]
  · have hfatal : f.fatal = true := fatal_of_not_declines hp h
    rw [repeated_of_failure h (.inl hfatal), repeated_of_failure h (.inl hfatal)]
  · rw [repeated_of_undecided h, repeated_of_undecided h]

theorem collect_eq_orElse (p : Parser src α) : p.collect = p.collect1.orElse (succeed []) := by
  funext input
  -- Only where the parser declines at once does it matter how many values are asked for.
  by_cases hp : p.Declines input
  · obtain ⟨f, hf, hfatal⟩ := hp
    have hcollect1 : p.collect1 input = .failure f := repeated_of_failure hf (.inr Nat.one_pos)
    rw [orElse_of_failure hcollect1 hfatal]
    exact repeated_of_end hf hfatal
  · have hsame : p.collect1 input = p.collect input := collect1_of_not_declines hp
    have hcollect1 : ¬ p.collect1.Declines input :=
      (not_congr (declines_congr hsame)).2 not_declines_collect
    rw [orElse_of_not_declines hcollect1, hsame]

/-! ## One or more from zero or more -/

theorem collect1_eq_bind (h : ∀ s, p input = .success s → input.cursor < s.next.cursor) :
    p.collect1 input = p.bind (fun first _ => p.collect.map (first :: ·)) input := by
  rcases hp : p input with s | f | _
  · unfold Parser.bind map
    rw [collect1, repeated_of_advance hp (h s hp), hp, Outcome.success_bind, bind_assoc]
    rfl
  · rw [bind_of_failure hp]
    exact repeated_of_failure hp (.inr Nat.one_pos)
  · rw [bind_of_undecided hp]
    exact repeated_of_undecided hp

/-! ## Putting values together on the way -/

/-- Goes on with a repetition from `place`, `buffer` holding what the values so far were pushed to
and `matched` what was matched since `start`. -/
def gatherFrom (push : β → α → β) (p : Parser src α) (start : Stream src) (least : Nat) (buffer : β)
    (matched : Text) (place : Stream src) : Outcome src (Success src β) :=
  match p place with
  | .success step =>
    if place.cursor < step.next.cursor then
      gatherFrom push p start (least - 1) (push buffer step.value) (matched ++ step.matched)
        step.next
    else .success ⟨push buffer step.value, start, step.next, matched ++ step.matched⟩
  | .failure f =>
    if f.fatal ∨ 0 < least then .failure f else .success ⟨buffer, start, place, matched⟩
  | .undecided => .undecided
termination_by place.rest.length
decreasing_by exact Stream.length_rest_lt_of_cursor_lt ‹_›

/-- Repeats a parser at least `least` times and pushes each value to a buffer as it comes. -/
def gather (push : β → α → β) (least : Nat) (buffer : β) (p : Parser src α) : Parser src β :=
  fun input => gatherFrom push p input least buffer [] input

theorem gatherFrom_eq (push : β → α → β) (start : Stream src) (least : Nat) (buffer : β)
    (matched : Text) (place : Stream src) :
    gatherFrom push p start least buffer matched place = p.repeated least place >>= fun done =>
      pure ⟨done.value.foldl push buffer, start, done.next, matched ++ done.matched⟩ := by
  -- Along the rounds, whatever the buffer holds and whatever was matched before.
  induction least, place using repeatedInduction (p := p) generalizing buffer matched with
  | advance least place s hs hadvance ih =>
    rw [gatherFrom, hs]
    simp only [hadvance, if_true]
    rw [ih, bind_assoc]
    refine bind_congr fun others => ?_
    simp only [Outcome.pure_eq_success, Outcome.success_bind, List.foldl_cons, List.append_assoc]
  | halt least place s hs hhalt =>
    rw [gatherFrom, hs]
    simp only [Nat.not_lt.2 hhalt, if_false]
    rfl
  | failure least place f hf hbreaks =>
    rw [gatherFrom, hf]
    simp only [hbreaks, if_true]
    rfl
  | finish place f hf hfatal =>
    rw [gatherFrom, hf]
    simp [hfatal]
  | undecided least place h =>
    rw [gatherFrom, h]
    rfl

/-- Pushing the values on the way is collecting them and pushing them in the end. -/
theorem gather_eq (push : β → α → β) (least : Nat) (buffer : β) (p : Parser src α) :
    p.gather push least buffer = (p.repeated least).map fun values => values.foldl push buffer := by
  funext input
  have hstart := startsAtInput_repeated least p
  rw [gather, gatherFrom_eq, map, ← hstart.restart input, bind_assoc, bind_assoc]
  rfl

/-- **Laws of repetition.** Zero or more is one or more, or nothing.  Where the first value moves
forward, one or more is the first value in front of zero or more.  Joining texts, be it on the way
or in the end, is taking the text of the collected values. -/
theorem repetition_laws (p : Parser src α) :
    p.collect = p.collect1.orElse (succeed []) ∧
    (∀ input, (∀ s, p input = .success s → input.cursor < s.next.cursor) →
      p.collect1 input = p.bind (fun first _ => p.collect.map (first :: ·)) input) ∧
    ∀ _ : Fragment α,
      p.many = p.many1.orElse (succeed []) ∧
      (p.many = textOf p.collect ∧ p.gather Fragment.pushTo 0 [] = textOf p.collect) ∧
      (p.many1 = textOf p.collect1 ∧ p.gather Fragment.pushTo 1 [] = textOf p.collect1) ∧
      ∀ values : List α, Fragment.text values = values.flatMap Fragment.text := by
  refine ⟨collect_eq_orElse p, fun input h => collect1_eq_bind h, fun _ => ?_⟩
  have hjoin : (fun values : List α => values.foldl Fragment.pushTo []) = Fragment.text :=
    funext fun values => Fragment.foldl_pushTo [] values
  refine ⟨?_, ⟨rfl, ?_⟩, ⟨rfl, ?_⟩, Fragment.text_list⟩
  · rw [many, collect_eq_orElse, textOf, map_orElse, map_succeed]
    rfl
  · rw [gather_eq, hjoin]
    rfl
  · rw [gather_eq, hjoin]
    rfl

/-- On `ab!`: one step that moves forward, and then a fatal failure. -/
theorem repetition_laws_to_fatal_failure :
    let src : Source := ⟨0, ['a', 'b', '!']⟩
    let start : Stream src := .first src
    let p : Parser src Char := (char 'a').orElse ((char 'b').cutAfter (ofClass .digit))
    (∀ s, p start = .success s → start.cursor < s.next.cursor) ∧
      p.collect1 start = p.bind (fun first _ => p.collect.map (first :: ·)) start ∧
      p.collect1 start = .failure ⟨⟨['b', 'a'], ['!'], 2, rfl, rfl⟩, ["a digit"], true⟩ ∧
      p.collect start = p.collect1.orElse (succeed []) start ∧
        p.many = p.many1.orElse (succeed []) := by
  intro src start p
  obtain ⟨hcollect, hcollect1, hmany⟩ := repetition_laws p
  have hp : p start = .success ⟨'a', start, ⟨['a'], ['b', '!'], 1, rfl, rfl⟩, ['a']⟩ := rfl
  have hadvance : ∀ s, p start = .success s → start.cursor < s.next.cursor := by
    intro s hs
    obtain rfl := Outcome.success.inj (hp.symm.trans hs)
    decide
  exact ⟨hadvance, hcollect1 start hadvance, by decide +kernel, congrFun hcollect start,
    (hmany inferInstance).1⟩

end Parser

end Descent
