import Descent.Proofs.Repetition

/-!
# Reading a known text

`p.Reads t v` says that wherever the text `t` comes next, whatever stands after it, the parser
passes just that text and gives the value `v`.  Parsers that read one text each can be repeated:
where the texts of some items come next, the repetition makes one stride for each of them
(`Parser.strides_of_reads`).

For a parser that reads one character of a set (`Parser.ReadsOne`) the items are the characters
themselves, and its repetition reads the longest run of characters of the set
(`Parser.ReadsOne.many_eq`).
-/

namespace Descent

variable {src : Source} {α β ι : Type}

namespace Stream

variable {s s' s'' : Stream src} {t u : Text}

/-- Only one place lies after a text. -/
theorem Passes.unique (h : s.Passes t s') (h' : s.Passes t s'') : s' = s'' := by
  apply eq_of_cursor_eq
  rw [h.cursor_eq, h'.cursor_eq]

theorem Passes.cursor_lt (h : s.Passes t s') (ht : t ≠ []) : s.cursor < s'.cursor := by
  have hbytes : byteLength t ≠ 0 := mt (byteLength_eq_zero_iff t).1 ht
  rw [h.cursor_eq]
  omega

/-- A beginning of what is to come can be passed. -/
theorem exists_passes_of_rest {r : Text} (h : s.rest = t ++ r) :
    ∃ s', s.Passes t s' ∧ s'.rest = r := by
  induction t generalizing s with
  | nil => exact ⟨s, .refl s, h⟩
  | cons c t ih =>
    obtain ⟨middle, hmiddle, hrest⟩ := exists_uncons_of_rest h
    obtain ⟨s', hs', hr⟩ := ih hrest
    exact ⟨s', (Passes.of_uncons hmiddle).trans hs', hr⟩

theorem exists_passes_of_prefix (h : t <+: s.rest) : ∃ s', s.Passes t s' := by
  obtain ⟨r, hr⟩ := h
  obtain ⟨s', hs', -⟩ := exists_passes_of_rest hr.symm
  exact ⟨s', hs'⟩

/-- A text in two parts is passed one part after the other. -/
theorem Passes.split (h : s.Passes (t ++ u) s'') : ∃ s', s.Passes t s' ∧ s'.Passes u s'' := by
  have hrest : s.rest = t ++ (u ++ s''.rest) := by rw [h, List.append_assoc]
  exact exists_passes_of_rest hrest

/-- The cursor says what is to come. -/
theorem rest_of_cursor_eq {w : Text} (htext : src.text = u ++ w)
    (hcursor : s.cursor = byteLength u) : s.rest = w := by
  have hcut := s.splitAtByte_cursor
  rw [htext, hcursor, splitAtByte_byteLength] at hcut
  exact (congrArg Prod.snd hcut).symm

/-- Behind the run of characters that pass a test comes none of them. -/
theorem Passes.head_behind_run {test : Char → Bool} (h : s.Passes (s.rest.takeWhile test) s') :
    ∀ c ∈ s'.rest.head?, test c = false := by
  intro c hc
  have hrest : s.rest.dropWhile test = s'.rest :=
    List.append_cancel_left (List.takeWhile_append_dropWhile.trans h)
  rw [← hrest, Option.mem_def] at hc
  simpa [hc] using List.head?_dropWhile_not test s.rest

theorem Passes.head?_rest {c : Char} (h : s.Passes (c :: t) s') : s.rest.head? = some c := by
  rw [h, List.cons_append, List.head?_cons]

end Stream

namespace Parser

/-- Where the text `t` comes next the parser passes it and gives the value `v`. -/
def Reads (p : Parser src α) (t : Text) (v : α) : Prop :=
  ∀ ⦃input next : Stream src⦄, input.Passes t next → p input = .success ⟨v, input, next, t⟩

section Reads

variable {p q : Parser src α} {t u : Text} {v : α} {input : Stream src}

theorem reads_satisfy {test : Char → Bool} {c : Char} (hc : test c = true) :
    (satisfy test : Parser src Char).Reads [c] c := by
  intro input next h
  obtain ⟨next', hnext, -⟩ := Stream.exists_uncons_of_rest h
  obtain rfl : next' = next := (Stream.Passes.of_uncons hnext).unique h
  rw [satisfy_of_uncons_eq_some hnext, if_pos hc]

/-- A character is refused if it is not there or does not pass the test. -/
theorem satisfy_of_head {test : Char → Bool} (h : ∀ c ∈ input.rest.head?, test c = false) :
    satisfy test input = .failure (.unexpected input) := by
  rcases hnext : input.uncons with _ | ⟨c, next⟩
  · exact satisfy_of_uncons_eq_none hnext
  · have hc : test c = false :=
      h c (by rw [Stream.rest_of_uncons hnext, List.head?_cons, Option.mem_def])
    rw [satisfy_of_uncons_eq_some hnext, hc]
    rfl

theorem Reads.label (hp : p.Reads t v) (description : String) : (p.label description).Reads t v :=
  fun _ _ h => label_of_success description (hp h)

theorem Reads.orElse_left (hp : p.Reads t v) (q : Parser src α) : (p.orElse q).Reads t v :=
  fun _ _ h => orElse_of_success (hp h)

theorem Reads.bind {next : α → Stream src → Parser src β} {w : β} (hp : p.Reads t v)
    (hnext : ∀ start, (next v start).Reads u w) : (p.bind next).Reads (t ++ u) w := by
  intro input stop h
  obtain ⟨middle, hfirst, hsecond⟩ := h.split
  exact bind_of_success (hp hfirst) (hnext input hsecond)

theorem orElse_of_declines {s : Success src α} (hp : p.Declines input) (hq : q input = .success s) :
    p.orElse q input = .success s := by
  obtain ⟨f, hf, hfatal⟩ := hp
  rw [orElse_of_failure hf hfatal, hq, Outcome.mapFailure_success]

theorem Declines.orElse (hp : p.Declines input) (hq : q.Declines input) :
    (p.orElse q).Declines input := by
  obtain ⟨f, hf, hfatal⟩ := hp
  obtain ⟨g, hg, hgfatal⟩ := hq
  refine ⟨f.merge g, ?_, Failure.fatal_merge_eq_false hfatal hgfatal⟩
  rw [orElse_of_failure hf hfatal, hg, Outcome.mapFailure_failure]

theorem Declines.bind {next : α → Stream src → Parser src β} (hp : p.Declines input) :
    (p.bind next).Declines input := by
  obtain ⟨f, hf, hfatal⟩ := hp
  exact ⟨f, bind_of_failure hf, hfatal⟩

end Reads

/-! ## Repetitions -/

/-- Where the texts of items come next, a parser that reads each of them makes one stride for
each. -/
theorem strides_of_reads {p : Parser src α} {written : ι → Text} {value : ι → α} {items : List ι}
    (hreads : ∀ i ∈ items, written i ≠ [] ∧ p.Reads (written i) (value i)) {input stop : Stream src}
    (h : input.Passes (items.flatMap written) stop) :
    ∃ steps, p.Strides input steps stop ∧ steps.map Success.value = items.map value ∧
      steps.flatMap Success.matched = items.flatMap written := by
  induction items generalizing input with
  | nil =>
    obtain rfl : input = stop := (Stream.Passes.refl input).unique h
    exact ⟨[], .nil input, rfl, rfl⟩
  | cons i items ih =>
    obtain ⟨hnonempty, hread⟩ := hreads i List.mem_cons_self
    rw [List.flatMap_cons] at h
    obtain ⟨middle, hfirst, hothers⟩ := h.split
    obtain ⟨steps, hsteps, hvalues, htexts⟩ :=
      ih (fun j hj => hreads j (List.mem_cons_of_mem _ hj)) hothers
    refine ⟨_ :: steps, .cons (hread hfirst) (hfirst.cursor_lt hnonempty) hsteps, ?_, ?_⟩
    · rw [List.map_cons, List.map_cons, hvalues]
    · rw [List.flatMap_cons, List.flatMap_cons, htexts]

theorem repeated_of_reads {p : Parser src α} {written : ι → Text} {value : ι → α} {items : List ι}
    (hreads : ∀ i ∈ items, written i ≠ [] ∧ p.Reads (written i) (value i)) {input stop : Stream src}
    (h : input.Passes (items.flatMap written) stop) (hstop : p.Declines stop) {least : Nat}
    (hleast : least ≤ items.length) :
    p.repeated least input = .success ⟨items.map value, input, stop, items.flatMap written⟩ := by
  obtain ⟨steps, hsteps, hvalues, htexts⟩ := strides_of_reads hreads h
  have hlength : steps.length = items.length := by simpa using congrArg List.length hvalues
  rw [(Repeats.declined hsteps hstop (hlength ▸ hleast)).repeated_eq, Success.ofSteps, hvalues,
    htexts]
  rfl

/-! ## Runs of characters -/

theorem textOf_text (p : Parser src Text) : p.textOf = p := by
  have hsame : ∀ s : Success src Text, s.map Fragment.text = s := by
    intro s
    rw [Success.map, Fragment.text_text]
  funext input
  unfold textOf map
  simp only [hsame, bind_pure]

/-- Collected characters are a text already. -/
theorem many_char (p : Parser src Char) : p.many = p.repeated 0 := textOf_text p.collect

theorem many1_char (p : Parser src Char) : p.many1 = p.repeated 1 := textOf_text p.collect1

/-- The parser reads one character that passes the test, and otherwise fails where it stands. -/
structure ReadsOne (test : Char → Bool) (p : Parser src Char) : Prop where
  reads : ∀ {c}, test c = true → p.Reads [c] c
  refuses : ∀ input : Stream src, (∀ c ∈ input.rest.head?, test c = false) →
    ∃ expected, p input = .failure ⟨input, expected, false⟩

theorem readsOne_satisfy (test : Char → Bool) : ReadsOne test (satisfy test : Parser src Char) where
  reads := reads_satisfy
  refuses _ h := ⟨[], satisfy_of_head h⟩

namespace ReadsOne

variable {test : Char → Bool} {p : Parser src Char} {input : Stream src}

theorem label (hp : ReadsOne test p) (description : String) :
    ReadsOne test (p.label description) where
  reads hc := (hp.reads hc).label description
  refuses input h := by
    obtain ⟨expected, hf⟩ := hp.refuses input h
    exact ⟨[description], label_of_failure description hf⟩

theorem declines (hp : ReadsOne test p) (h : ∀ c ∈ input.rest.head?, test c = false) :
    p.Declines input := by
  obtain ⟨expected, hf⟩ := hp.refuses input h
  exact ⟨_, hf, rfl⟩

/-- A repetition takes the characters up to the first one that does not pass the test. -/
theorem repeated_eq (hp : ReadsOne test p) (input : Stream src) {least : Nat}
    (hleast : least ≤ (input.rest.takeWhile test).length) :
    ∃ stop, input.Passes (input.rest.takeWhile test) stop ∧ p.repeated least input =
      .success ⟨input.rest.takeWhile test, input, stop, input.rest.takeWhile test⟩ := by
  obtain ⟨stop, hpasses⟩ :=
    Stream.exists_passes_of_prefix (List.takeWhile_prefix test (l := input.rest))
  have htext : (input.rest.takeWhile test).flatMap (fun c => [c]) = input.rest.takeWhile test :=
    Fragment.text_text _
  have hrun : input.Passes ((input.rest.takeWhile test).flatMap fun c => [c]) stop := by
    rw [htext]
    exact hpasses
  have hreads : ∀ c ∈ input.rest.takeWhile test, [c] ≠ [] ∧ p.Reads [c] (id c) :=
    fun c hc => ⟨List.cons_ne_nil _ _, hp.reads (List.all_eq_true.1 List.all_takeWhile c hc)⟩
  refine ⟨stop, hpasses, ?_⟩
  rw [repeated_of_reads hreads hrun (hp.declines hpasses.head_behind_run) hleast, htext,
    List.map_id]

theorem many_eq (hp : ReadsOne test p) (input : Stream src) :
    ∃ stop, input.Passes (input.rest.takeWhile test) stop ∧ p.many input =
      .success ⟨input.rest.takeWhile test, input, stop, input.rest.takeWhile test⟩ := by
  rw [many_char]
  exact hp.repeated_eq input (Nat.zero_le _)

theorem many1_eq (hp : ReadsOne test p) (hrun : input.rest.takeWhile test ≠ []) :
    ∃ stop, input.Passes (input.rest.takeWhile test) stop ∧ p.many1 input =
      .success ⟨input.rest.takeWhile test, input, stop, input.rest.takeWhile test⟩ := by
  rw [many1_char]
  exact hp.repeated_eq input (List.length_pos_iff.2 hrun)

theorem many1_of_run_eq_nil (hp : ReadsOne test p) (hrun : input.rest.takeWhile test = []) :
    ∃ expected, p.many1 input = .failure ⟨input, expected, false⟩ := by
  have hhead : ∀ c ∈ input.rest.head?, test c = false := by
    intro c hc
    obtain ⟨r, hr⟩ := List.head?_eq_some_iff.1 hc
    simpa [hr, List.takeWhile_cons] using hrun
  obtain ⟨expected, hf⟩ := hp.refuses input hhead
  rw [many1_char]
  exact ⟨expected, repeated_of_failure hf (.inr Nat.one_pos)⟩

end ReadsOne

theorem readsOne_char (c : Char) : ReadsOne (· == c) (char c : Parser src Char) :=
  (readsOne_satisfy _).label _

theorem reads_char (c : Char) : (char c : Parser src Char).Reads [c] c :=
  (readsOne_char c).reads (beq_self_eq_true c)

theorem char_of_head_ne {c : Char} {input : Stream src} (h : input.rest.head? ≠ some c) :
    ∃ expected, char c input = .failure ⟨input, expected, false⟩ :=
  (readsOne_char c).refuses input fun _ hd => beq_false_of_ne fun heq => h (heq ▸ hd)

theorem readsOne_notChar (c : Char) : ReadsOne (· != c) (notChar c : Parser src Char) :=
  (readsOne_satisfy _).label _

theorem readsOne_ofClass (k : CharClass) : ReadsOne k.holds (ofClass k : Parser src Char) :=
  (readsOne_satisfy _).label _

end Parser

end Descent
