import Descent.Proofs.Reading

/-!
# Longest runs

A repetition of a character of a set takes the longest run of such characters, the longest text with
which the rest begins and whose characters are all in the set (`prefix_takeWhile_iff`).  So parsers
of the runs of a set and of its complement, run in turn (`Parser.Alternates`), get through every
source: where one of them has read its run, the rest begins with a character for the other
(`Parser.ReadsRun.exists_alternates`).  As each piece starts where the one before it ended, every
byte is in just one of them (`Parser.Alternates.countP_covers`).
-/

namespace Descent

variable {src : Source} {α : Type}

/-- The run at the beginning of a text is its longest beginning that passes the test throughout. -/
theorem prefix_takeWhile_iff {test : Char → Bool} {t w : Text} :
    t <+: w.takeWhile test ↔ t <+: w ∧ ∀ c ∈ t, test c = true := by
  constructor
  · intro h
    refine ⟨h.trans (List.takeWhile_prefix test), fun c hc => ?_⟩
    exact List.all_eq_true.1 List.all_takeWhile c (h.subset hc)
  · rintro ⟨⟨r, rfl⟩, hall⟩
    rw [List.takeWhile_append_of_pos hall]
    exact List.prefix_append t _

/-- Whether the byte at an offset lies within a span. -/
def Span.covers (s : Span) (offset : Nat) : Bool := decide (s.start ≤ offset ∧ offset < s.stop)

namespace Parser

variable {p q : Parser src Text} {test : Char → Bool} {input : Stream src}

/-! ## One run -/

/-- The parser reads the run of characters that pass the test, which may be empty. -/
def ReadsRun (test : Char → Bool) (p : Parser src Text) : Prop :=
  ∀ input, ∃ stop : Stream src, input.Passes (input.rest.takeWhile test) stop ∧
    p input = .success ⟨input.rest.takeWhile test, input, stop, input.rest.takeWhile test⟩

theorem readsRun_spaces : ReadsRun isSpace (spaces : Parser src Text) :=
  (readsOne_ofClass .space).many_eq

theorem readsRun_notSpaces : ReadsRun (fun c => !isSpace c) (notSpaces : Parser src Text) :=
  (readsOne_satisfy _).many_eq

/-- A run is empty just where no character of the set comes next. -/
theorem takeWhile_ne_nil_iff {w : Text} : w.takeWhile test ≠ [] ↔ ∃ c ∈ w.head?, test c = true := by
  cases w with
  | nil => simp
  | cons c w => by_cases hc : test c = true <;> simp [hc]

theorem ReadsOne.many1_success_iff {p : Parser src Char} (hp : ReadsOne test p) :
    (∃ s, p.many1 input = .success s) ↔ ∃ c ∈ input.rest.head?, test c = true := by
  rw [← takeWhile_ne_nil_iff]
  constructor
  · rintro ⟨s, hs⟩ hrun
    obtain ⟨expected, hf⟩ := hp.many1_of_run_eq_nil hrun
    exact nomatch hs.symm.trans hf
  · intro hrun
    obtain ⟨stop, -, hs⟩ := hp.many1_eq hrun
    exact ⟨_, hs⟩

/-- Repetitions go to where the run ends; one that must not be empty needs a run that is not. -/
theorem ReadsOne.repetitions_of_passes {p : Parser src Char} (hp : ReadsOne test p)
    {stop : Stream src} (h : input.Passes (input.rest.takeWhile test) stop) :
    p.many input = .success ⟨input.rest.takeWhile test, input, stop, input.rest.takeWhile test⟩ ∧
      (input.rest.takeWhile test ≠ [] → p.many1 input =
        .success ⟨input.rest.takeWhile test, input, stop, input.rest.takeWhile test⟩) := by
  constructor
  · obtain ⟨stop', hpasses, hmany⟩ := hp.many_eq input
    rwa [h.unique hpasses]
  · intro hrun
    obtain ⟨stop', hpasses, hmany1⟩ := hp.many1_eq hrun
    rwa [h.unique hpasses]

theorem label_success_iff (description : String) {p : Parser src α} :
    (∃ s, p.label description input = .success s) ↔ ∃ s, p input = .success s := by
  rcases h : p input with s | f | _
  · simp [label_of_success description h]
  · simp [label_of_failure description h]
  · simp [label, h]

/-- Before the end, either some whitespace can be read or something else. -/
theorem spaces1_success_iff_not (h : input.rest ≠ []) :
    (∃ s, spaces1 input = .success s) ↔ ¬ ∃ s, notSpaces1 input = .success s := by
  obtain ⟨c, r, hr⟩ := List.exists_cons_of_ne_nil h
  unfold spaces1 notSpaces1
  rw [label_success_iff, label_success_iff, (readsOne_ofClass .space).many1_success_iff,
    (readsOne_satisfy _).many1_success_iff, hr]
  simp [CharClass.holds]

/-! ## Runs in turn -/

/-- Two parsers, the first one first, are run in turn until nothing is left, each from where the one
before it ended; the list has their successes. -/
inductive Alternates : Parser src α → Parser src α → Stream src → List (Success src α) → Prop where
  | done {p q : Parser src α} {input : Stream src} : input.rest = [] → Alternates p q input []
  | step {p q : Parser src α} {input : Stream src} {s : Success src α}
      {others : List (Success src α)} :
      input.rest ≠ [] → p input = .success s → Alternates q p s.next others →
      Alternates p q input (s :: others)

theorem ReadsRun.not_not (hp : ReadsRun test p) : ReadsRun (fun c => !!test c) p := by
  simpa only [Bool.not_not] using hp

/-- From a character of the set on, its runs and those of the complement reach the end. -/
theorem ReadsRun.exists_alternates_of_head (hp : ReadsRun test p)
    (hq : ReadsRun (fun c => !test c) q)
    (hhead : ∀ c ∈ input.rest.head?, test c = true) : ∃ pieces, Alternates p q input pieces := by
  -- Each run that is read leaves fewer characters, and the first of them is for the other parser.
  induction hlength : input.rest.length using Nat.strongRecOn generalizing p q test input with
  | ind length ih =>
    by_cases hrest : input.rest = []
    · exact ⟨[], .done hrest⟩
    · obtain ⟨stop, hpasses, hs⟩ := hp input
      have hrun : input.rest.takeWhile test ≠ [] := by
        obtain ⟨c, r, hr⟩ := List.exists_cons_of_ne_nil hrest
        have hfirst : c ∈ input.rest.head? := by rw [hr, List.head?_cons, Option.mem_def]
        exact takeWhile_ne_nil_iff.2 ⟨c, hfirst, hhead c hfirst⟩
      have hshorter : stop.rest.length < length := by
        rw [← hlength]
        exact Stream.length_rest_lt_of_cursor_lt (hpasses.cursor_lt hrun)
      have hstop : ∀ c ∈ stop.rest.head?, (!test c) = true := by simpa using hpasses.head_behind_run
      obtain ⟨others, hothers⟩ := ih _ hshorter hq hp.not_not hstop rfl
      exact ⟨_, .step hrest hs hothers⟩

/-- The runs of a set and of its complement, read in turn, reach the end from anywhere. -/
theorem ReadsRun.exists_alternates (hp : ReadsRun test p) (hq : ReadsRun (fun c => !test c) q)
    (input : Stream src) : ∃ pieces, Alternates p q input pieces := by
  by_cases hrest : input.rest = []
  · exact ⟨[], .done hrest⟩
  · obtain ⟨stop, hpasses, hs⟩ := hp input
    have hstop : ∀ c ∈ stop.rest.head?, (!test c) = true := by simpa using hpasses.head_behind_run
    obtain ⟨others, hothers⟩ := hq.exists_alternates_of_head hp.not_not hstop
    exact ⟨_, .step hrest hs hothers⟩

section Covers

variable {p q : Parser src α} {pieces : List (Success src α)}

/-- Pieces that account for what they pass make up what was to come. -/
theorem Alternates.flatMap_matched (h : Alternates p q input pieces) (hp : p.Spans) (hq : q.Spans) :
    pieces.flatMap Success.matched = input.rest := by
  induction h with
  | done hrest => exact hrest.symm
  | @step p q input s others _ hs _ ih =>
    obtain ⟨-, hpasses⟩ := (hp input).of_success hs
    rw [List.flatMap_cons, ih hq hp]
    exact hpasses.symm

/-- Each byte that was to come lies in just one piece, and no other byte lies in any. -/
theorem Alternates.countP_covers (h : Alternates p q input pieces) (hp : p.Spans) (hq : q.Spans)
    (offset : Nat) : pieces.countP (·.span.covers offset) =
      if input.cursor ≤ offset ∧ offset < byteLength src.text then 1 else 0 := by
  induction h with
  | @done p q input hrest =>
    have hend := input.cursor_add_byteLength_rest
    rw [hrest, byteLength_nil] at hend
    rw [List.countP_nil, if_neg (by omega)]
  | @step p q input s others _ hs _ ih =>
    obtain ⟨hstart, hpasses⟩ := (hp input).of_success hs
    have hforward := hpasses.cursor_le
    have hend := s.next.cursor_le
    rw [List.countP_cons, ih hq hp]
    simp only [Span.covers, Success.span, hstart, decide_eq_true_eq]
    split <;> split <;> split <;> omega

/-- From the start, pieces make up the text and have every byte once. -/
theorem Alternates.split_text (h : Alternates p q (.first src) pieces) (hp : p.Spans)
    (hq : q.Spans) :
    pieces.flatMap Success.matched = src.text ∧
      ∀ offset < byteLength src.text, pieces.countP (·.span.covers offset) = 1 := by
  refine ⟨h.flatMap_matched hp hq, fun offset hoffset => ?_⟩
  rw [h.countP_covers hp hq, if_pos ⟨Nat.zero_le offset, hoffset⟩]

end Covers

/-- **Repetitions of a character class take the longest run.** Zero or more characters of a set,
labelled or not, are the longest run of them, and so are one or more, which fail where they stand if
the run is empty.  So runs of whitespace and of other characters, read in turn from the start in
either order, reach the end of every source and have every byte just once; and at every place before
the end, one or more whitespace characters can be read just if one or more other characters
cannot. -/
theorem runs_are_longest (src : Source) :
    (∀ (test : Char → Bool) (description : String) (input : Stream src),
      (∀ t, t <+: input.rest.takeWhile test ↔ t <+: input.rest ∧ ∀ c ∈ t, test c = true) ∧
      ∃ stop : Stream src, stop.cursor = input.cursor + byteLength (input.rest.takeWhile test) ∧
        ∀ p ∈ [satisfy test, (satisfy test).label description],
          p.many input = .success ⟨input.rest.takeWhile test, input, stop,
            input.rest.takeWhile test⟩ ∧
          if input.rest.takeWhile test = [] then
            ∃ expected, p.many1 input = .failure ⟨input, expected, false⟩
          else
            p.many1 input = .success ⟨input.rest.takeWhile test, input, stop,
              input.rest.takeWhile test⟩) ∧
    (∀ pair ∈ [(spaces, notSpaces), (notSpaces, spaces)],
      (∃ pieces, Alternates pair.1 pair.2 (.first src) pieces) ∧
      ∀ pieces, Alternates pair.1 pair.2 (.first src) pieces →
        pieces.flatMap Success.matched = src.text ∧
        ∀ offset < byteLength src.text, pieces.countP (·.span.covers offset) = 1) ∧
    ∀ input : Stream src, input.rest ≠ [] →
      ((∃ s, spaces1 input = .success s) ↔ ¬ ∃ s, notSpaces1 input = .success s) := by
  refine ⟨fun test description input => ⟨fun t => prefix_takeWhile_iff, ?_⟩, fun pair hpair => ?_,
    fun input => spaces1_success_iff_not⟩
  · obtain ⟨stop, hpasses⟩ :=
      Stream.exists_passes_of_prefix (List.takeWhile_prefix test (l := input.rest))
    refine ⟨stop, hpasses.cursor_eq, fun p hp => ?_⟩
    have hone : ReadsOne test p := by
      simp only [List.mem_cons, List.not_mem_nil, or_false] at hp
      rcases hp with rfl | rfl
      · exact readsOne_satisfy test
      · exact (readsOne_satisfy test).label description
    obtain ⟨hmany, hmany1⟩ := hone.repetitions_of_passes hpasses
    refine ⟨hmany, ?_⟩
    by_cases hrun : input.rest.takeWhile test = []
    · rw [if_pos hrun]
      exact hone.many1_of_run_eq_nil hrun
    · rw [if_neg hrun]
      exact hmany1 hrun
  · have hspaces : (spaces : Parser src Text).Spans := Built.spaces.spans
    have hnotSpaces : (notSpaces : Parser src Text).Spans := Built.notSpaces.spans
    simp only [List.mem_cons, List.not_mem_nil, or_false] at hpair
    rcases hpair with rfl | rfl
    · exact ⟨readsRun_spaces.exists_alternates readsRun_notSpaces _,
        fun pieces h => h.split_text hspaces hnotSpaces⟩
    · exact ⟨readsRun_notSpaces.exists_alternates readsRun_spaces.not_not _,
        fun pieces h => h.split_text hnotSpaces hspaces⟩

/-- On `é b` with a space of three bytes: the first run of whitespace is empty, and the byte at
offset 4 is in the second one. -/
theorem runs_are_longest_in_words :
    let src : Source := ⟨0, ['é', '\u3000', 'b']⟩
    let start : Stream src := .first src
    let space : Stream src := ⟨['é'], ['\u3000', 'b'], 2, rfl, rfl⟩
    let word : Stream src := ⟨['\u3000', 'é'], ['b'], 5, rfl, rfl⟩
    let stop : Stream src := ⟨['b', '\u3000', 'é'], [], 6, rfl, rfl⟩
    let pieces : List (Success src Text) :=
      [⟨[], start, start, []⟩, ⟨['é'], start, space, ['é']⟩,
        ⟨['\u3000'], space, word, ['\u3000']⟩, ⟨['b'], word, stop, ['b']⟩]
    Alternates spaces notSpaces start pieces ∧ pieces.flatMap Success.matched = src.text ∧
      pieces.countP (·.span.covers 4) = 1 ∧
      (notSpaces1 space = .failure ⟨space, ["one or more non-whitespace characters"], false⟩ ∧
        ∃ s, spaces1 space = .success s) ∧
      ∃ stop : Stream src, stop.cursor = 5 ∧
        ((satisfy isSpace).label "a gap").many space =
          .success ⟨['\u3000'], space, stop, ['\u3000']⟩ := by
  intro src start space word stop pieces
  obtain ⟨hruns, halternate, hone⟩ := runs_are_longest src
  have hpieces : Alternates spaces notSpaces start pieces :=
    .step nofun (by decide +kernel) <| .step nofun (by decide +kernel) <|
      .step nofun (by decide +kernel) <| .step nofun (by decide +kernel) <| .done rfl
  obtain ⟨htext, hbytes⟩ := (halternate _ List.mem_cons_self).2 pieces hpieces
  have hrefused : notSpaces1 space =
      .failure ⟨space, ["one or more non-whitespace characters"], false⟩ := by
    decide +kernel
  have hspaces1 : ∃ s, spaces1 space = .success s := by
    refine (hone space nofun).2 ?_
    rintro ⟨s, hs⟩
    exact nomatch hrefused.symm.trans hs
  obtain ⟨-, place, hcursor, hmany⟩ := hruns isSpace "a gap" space
  obtain ⟨hgap, -⟩ := hmany _ (List.mem_cons_of_mem _ List.mem_cons_self)
  exact ⟨hpieces, htext, hbytes 4 (by decide), ⟨hrefused, hspaces1⟩, place, hcursor, hgap⟩

end Parser

end Descent
