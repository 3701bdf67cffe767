import Descent.Execution
import Descent.Proofs.Ending
import Descent.Proofs.Validity

/-!
# One way to sequence

Parsers can be run one after another by `sequence`, by nested `andThen`s that are grouped from the
left or from the right, by a program, and, where they stand for texts, by `concat`; three of them by
`between`, two by `cutAfter`, and one with the end of the input after it by `complete`.

All of these come down to `Parser.bind`.  It is associative (`Parser.bind_bind`), a list of steps is
run by running the first and then the others (`Parser.sequence_cons`, `Parser.concat_cons`), and a
program that runs a sequence has the result of one that runs its steps (`Steps.result_run_bind`).  A
program starts where it was started, so it stands for the parser it runs only if that parser says so
too (`Parser.program_run`).
-/

namespace Descent

variable {src : Source} {α β γ : Type}

namespace Parser

/-! ## Laws of `bind` -/

/-- Where a sequence goes on after two steps does not depend on how the steps are grouped. -/
theorem bind_bind (p : Parser src α) (next : α → Stream src → Parser src β)
    (last : β → Stream src → Parser src γ) :
    (p.bind next).bind last =
      p.bind fun v start => (next v start).bind fun w _ => last w start := by
  funext input
  unfold Parser.bind
  simp only [bind_assoc]
  refine bind_congr fun first => bind_congr fun second => ?_
  simp only [Outcome.pure_eq_success, Outcome.success_bind, List.append_assoc]

theorem andThen_assoc (p : Parser src α) (q : Parser src β) (r : Parser src γ) :
    (p.andThen q).andThen r = p.andThen (q.andThen r) :=
  bind_bind p (fun _ _ => q) fun _ _ => r

theorem startsAtInput_bind (p : Parser src α) (next : α → Stream src → Parser src β) :
    (p.bind next).StartsAtInput := fun input =>
  (Outcome.ensures_true (p input)).bind fun first _ =>
    (Outcome.ensures_true (next first.value input first.next)).bind fun _ _ => rfl

/-- Saying again where a parser started changes nothing. -/
theorem StartsAtInput.restart {p : Parser src α} (hp : p.StartsAtInput) (input : Stream src) :
    (p input >>= fun s => pure { s with start := input }) = p input := by
  rcases h : p input with s | f | _
  · obtain rfl : s.start = input := (hp input).of_success h
    rfl
  · rfl
  · rfl

theorem bind_succeed {p : Parser src α} (hp : p.StartsAtInput) :
    (p.bind fun v _ => succeed v) = p := by
  funext input
  rw [← hp.restart input]
  refine bind_congr fun s => ?_
  simp only [succeed_apply, Outcome.success_bind, List.append_nil]

/-- After a value that was not read, the sequence is the parser that the value leads to. -/
theorem succeed_bind (value : α) {next : α → Stream src → Parser src β} {input : Stream src}
    (hnext : (next value input).StartsAtInput) :
    (succeed value).bind next input = next value input input := by
  rw [← hnext.restart input]
  rfl

/-! ## Lists of steps -/

/-- What the steps do after a success is what they do from its end on, put after it. -/
theorem continueWith_eq_bind (done : Success src α) (ps : List (Parser src α)) :
    continueWith done ps = sequence done.value ps done.next >>= fun s =>
      pure { s with start := done.start, matched := done.matched ++ s.matched } := by
  induction ps generalizing done with
  | nil => simp [sequence, continueWith]
  | cons p ps ih =>
    unfold sequence
    simp only [continueWith, bind_assoc]
    refine bind_congr fun step => ?_
    rw [ih, ih ⟨step.value, done.next, step.next, [] ++ step.matched⟩, bind_assoc]
    refine bind_congr fun s => ?_
    simp only [Outcome.pure_eq_success, Outcome.success_bind, List.nil_append, List.append_assoc]

theorem sequence_nil (empty : α) : (sequence empty [] : Parser src α) = succeed empty := rfl

/-- The value of the first step is what the others fall back on. -/
theorem sequence_cons (empty : α) (p : Parser src α) (ps : List (Parser src α)) :
    sequence empty (p :: ps) = p.bind fun v _ => sequence v ps := by
  funext input
  unfold sequence Parser.bind
  rw [continueWith]
  exact bind_congr fun step => continueWith_eq_bind _ ps

/-- One or more parsers in a row, grouped from the left. -/
def rowLeft (p : Parser src α) (ps : List (Parser src α)) : Parser src α := ps.foldl andThen p

/-- One or more parsers in a row, grouped from the right. -/
def rowRight : Parser src α → List (Parser src α) → Parser src α
  | p, [] => p
  | p, q :: qs => p.andThen (rowRight q qs)

theorem rowRight_andThen (p q : Parser src α) (qs : List (Parser src α)) :
    rowRight (p.andThen q) qs = p.andThen (rowRight q qs) := by
  cases qs with
  | nil => rfl
  | cons r qs => exact andThen_assoc p q (rowRight r qs)

theorem rowLeft_eq_rowRight (p : Parser src α) (ps : List (Parser src α)) :
    rowLeft p ps = rowRight p ps := by
  induction ps generalizing p with
  | nil => rfl
  | cons q qs ih =>
    calc rowLeft p (q :: qs)
        = rowRight (p.andThen q) qs := ih (p.andThen q)
      _ = rowRight p (q :: qs) := rowRight_andThen p q qs

theorem startsAtInput_rowRight {p : Parser src α} (hp : p.StartsAtInput)
    (ps : List (Parser src α)) : (rowRight p ps).StartsAtInput := by
  cases ps with
  | nil => exact hp
  | cons q qs => exact startsAtInput_bind p fun _ _ => rowRight q qs

theorem sequence_eq_rowRight {p : Parser src α} {ps : List (Parser src α)}
    (h : ∀ q ∈ p :: ps, q.StartsAtInput) (empty : α) :
    sequence empty (p :: ps) = rowRight p ps := by
  induction ps generalizing p empty with
  | nil =>
    rw [sequence_cons]
    exact bind_succeed (h p List.mem_cons_self)
  | cons q qs ih =>
    have hrest : ∀ v, sequence v (q :: qs) = rowRight q qs :=
      ih fun r hr => h r (List.mem_cons_of_mem _ hr)
    rw [sequence_cons]
    simp only [hrest]
    rfl

end Parser

/-! ## Programs -/

namespace Steps

/-- A program that runs a sequence has the result of one that runs its steps.  Where a later step
fails the states differ: the sequence has left nothing behind. -/
theorem result_run_bind (p : Parser src α) (next : α → Parser src β) :
    (run (p.bind fun v _ => next v)).result = (run p >>= fun v => run (next v)).result := by
  funext progress
  rw [result_bind, result_run]
  show _ = ((run p).result progress >>= _ : Outcome src _)
  rw [result_run]
  unfold Parser.bind
  simp only [bind_assoc]
  refine bind_congr fun first => ?_
  rw [Outcome.pure_eq_success, Outcome.success_bind, result_run]
  refine bind_congr fun second => ?_
  simp only [Outcome.pure_eq_success, Outcome.success_bind, List.append_assoc]

theorem result_run_map (f : α → β) (p : Parser src α) :
    (run (p.map f)).result = (f <$> run p).result := by
  funext progress
  rw [← bind_pure_comp, result_bind, result_run]
  show _ = ((run p).result progress >>= _ : Outcome src _)
  rw [result_run]
  unfold Parser.map
  simp only [bind_assoc]
  rfl

theorem result_run_succeed (value : α) :
    (run (Parser.succeed value : Parser src α)).result = (pure value : Steps src α).result := by
  funext progress
  refine (result_of_success (run_of_success (Parser.succeed_apply value progress.current))).trans ?_
  rw [List.append_nil]
  rfl

/-- Runs one or more parsers in order and gives the value of the last one. -/
def runInOrder : Parser src α → List (Parser src α) → Steps src α
  | p, [] => run p
  | p, q :: qs => do
    let _ ← run p
    runInOrder q qs

theorem result_runInOrder (p : Parser src α) (ps : List (Parser src α)) :
    (runInOrder p ps).result = (run (p.rowRight ps)).result := by
  induction ps generalizing p with
  | nil => rfl
  | cons q qs ih =>
    unfold runInOrder Parser.rowRight Parser.andThen
    rw [result_run_bind, result_bind, result_bind, ih]

/-- A program that runs a list of steps keeps the last of their values. -/
theorem result_run_sequence (empty : α) (ps : List (Parser src α)) :
    (run (Parser.sequence empty ps)).result = ((·.getLastD empty) <$> ps.mapM run).result := by
  induction ps generalizing empty with
  | nil => rw [Parser.sequence_nil, result_run_succeed, List.mapM_nil, map_pure, List.getLastD_nil]
  | cons p ps ih =>
    rw [Parser.sequence_cons, result_run_bind, List.mapM_cons]
    simp only [result_bind, result_map, ih, map_bind, bind_pure_comp, Functor.map_map,
      List.getLastD_cons]

theorem result_run_concat [Fragment α] (ps : List (Parser src α)) :
    (run (Parser.concat ps)).result = ((·.flatMap Fragment.text) <$> ps.mapM run).result := by
  induction ps with
  | nil => rw [Parser.concat_nil, result_run_succeed, List.mapM_nil, map_pure, List.flatMap_nil]
  | cons p ps ih =>
    rw [Parser.concat_cons, result_run_bind, List.mapM_cons]
    simp only [result_bind, result_run_map, result_map, ih, map_bind, bind_pure_comp,
      Functor.map_map, List.flatMap_cons]

end Steps

namespace Parser

/-- The parser of a program depends on its result only. -/
theorem program_congr {body other : Steps src α} (h : body.result = other.result) :
    program body = program other := by
  funext input
  rw [program_apply, program_apply, h]

theorem program_run {p : Parser src α} (hp : p.StartsAtInput) : program (Steps.run p) = p := by
  funext input
  rw [← hp.restart input, program_apply, Steps.result_run, bind_assoc]
  rfl

theorem program_map (f : α → β) (body : Steps src α) :
    program (f <$> body) = (program body).map f := by
  funext input
  unfold map
  rw [program_apply, program_apply, ← bind_pure_comp, Steps.result_bind]
  show ((body.result ⟨input, []⟩ >>= _) >>= _ : Outcome src _) = _
  simp only [bind_assoc]
  rfl

theorem between_eq_bind (opening : Parser src α) (p : Parser src β) (closing : Parser src γ) :
    opening.between p closing =
      opening.bind fun _ _ => p.bind fun x _ => closing.map fun _ => x := by
  funext input
  unfold Parser.between Parser.bind Parser.map
  refine bind_congr fun first => ?_
  simp only [bind_assoc]
  refine bind_congr fun middle => bind_congr fun last => ?_
  simp only [Outcome.pure_eq_success, Outcome.success_bind, Success.map, List.append_assoc]

theorem between_eq_program (opening : Parser src α) (p : Parser src β) (closing : Parser src γ) :
    opening.between p closing = program do
      let _ ← Steps.run opening
      let x ← Steps.run p
      let _ ← Steps.run closing
      return x := by
  rw [between_eq_bind, ← program_run (startsAtInput_bind opening _)]
  refine program_congr ?_
  simp only [Steps.result_run_bind, Steps.result_bind, Steps.result_run_map, bind_pure_comp]

theorem startsAtInput_sequence (empty : α) (ps : List (Parser src α)) :
    (sequence empty ps).StartsAtInput := by
  cases ps with
  | nil => exact fun _ => rfl
  | cons p ps =>
    rw [sequence_cons]
    exact startsAtInput_bind p _

theorem startsAtInput_concat [Fragment α] (ps : List (Parser src α)) :
    (concat ps).StartsAtInput := by
  cases ps with
  | nil => exact fun _ => rfl
  | cons p ps =>
    rw [concat_cons]
    exact startsAtInput_bind p _

/-- The program that runs all steps and gives the list of their values. -/
def values (ps : List (Parser src α)) : Parser src (List α) := program (ps.mapM Steps.run)

theorem sequence_eq_values (empty : α) (ps : List (Parser src α)) :
    sequence empty ps = (values ps).map (·.getLastD empty) := by
  rw [← program_run (startsAtInput_sequence empty ps), values, ← program_map]
  exact program_congr (Steps.result_run_sequence empty ps)

theorem concat_eq_values [Fragment α] (ps : List (Parser src α)) :
    concat ps = (values ps).map (·.flatMap Fragment.text) := by
  rw [← program_run (startsAtInput_concat ps), values, ← program_map]
  exact program_congr (Steps.result_run_concat ps)

/-! ## Executions -/

/-- A parser between nothing and the end of the input is that parser and the end of the input. -/
theorem executeComplete_eq_execute_between (p : Parser src α) (nothing : β) :
    p.executeComplete = ((succeed nothing).between p endOfInput).execute := by
  unfold executeComplete execute complete Parser.between
  simp only [succeed_apply, Outcome.success_bind]
  rcases hp : p (.first src) with s | f | _
  · rcases hend : endOfInput s.next with t | f | _ <;> simp [hend, Event.ofOutcome]
  · rfl
  · rfl

theorem complete_ne_undecided {p : Parser src α} {input : Stream src} (h : p input ≠ .undecided) :
    p.complete input ≠ .undecided := by
  refine Outcome.bind_ne_undecided h fun s => ?_
  exact Outcome.bind_ne_undecided (ends_endOfInput s.next) fun _ => nofun

theorem exists_log_execute {p : Parser src α} (h : p (.first src) ≠ .undecided) :
    ∃ event, p.execute.log = [event] := by
  rcases hp : p (.first src) with s | f | _
  · exact ⟨_, congrArg Execution.log (execute_of_success hp)⟩
  · exact ⟨_, congrArg Execution.log (execute_of_failure hp)⟩
  · exact absurd hp h

/-- **All ways to sequence agree.** One or more parsers that say where they started have one
outcome, whether they are run as a list, by nested sequences grouped from the right or from the
left, or by a program that gives the last value.  Joining their texts, they end at the same place
with the same matched text, or in the same failure.  A parser between two others is a program and a
nested sequence, and running a guard and cutting the rest is a sequence.  Running a parser over the
whole source has the same result, and leaves the same single event, as running it between nothing
and the end: the value and the cursor where it ended, or the failure and all that the failure
says. -/
theorem sequencing_forms_agree (src : Source) :
    (∀ (α : Type) (p : Parser src α) (ps : List (Parser src α)),
      (∀ q ∈ p :: ps, q.StartsAtInput) → ∀ empty,
        sequence empty (p :: ps) = rowRight p ps ∧ rowLeft p ps = rowRight p ps ∧
          program (Steps.runInOrder p ps) = rowRight p ps) ∧
    (∀ (α : Type) [Fragment α] (ps : List (Parser src α)) (empty : α),
      sequence empty ps = (values ps).map (·.getLastD empty) ∧
        concat ps = (values ps).map (·.flatMap Fragment.text)) ∧
    (∀ (α β γ : Type) (opening : Parser src α) (p : Parser src β) (closing : Parser src γ),
      opening.between p closing = program (do
          let _ ← Steps.run opening
          let x ← Steps.run p
          let _ ← Steps.run closing
          return x) ∧
        opening.between p closing =
          opening.bind fun _ _ => p.bind fun x _ => closing.map fun _ => x) ∧
    (∀ (α β : Type) (guard : Parser src α) (rest : Parser src β),
      guard.cutAfter rest = guard.bind fun _ _ => rest.cut) ∧
    ∀ (α β : Type) (p : Parser src α) (nothing : β),
      p.executeComplete = ((succeed nothing).between p endOfInput).execute ∧
        (∀ s, p (.first src) = .success s → s.next.rest = [] →
          p.executeComplete = ⟨.success s.value, [.succeeded s.next.cursor]⟩) ∧
        (∀ s, p (.first src) = .success s → s.next.rest ≠ [] →
          p.executeComplete = ⟨.failure (.expecting s.next "end of file"),
            [.failed s.next.cursor false ["end of file"]]⟩) ∧
        (∀ f, p (.first src) = .failure f →
          p.executeComplete = ⟨.failure f, [.failed f.cursor f.fatal f.expected]⟩) ∧
        (p (.first src) ≠ .undecided → ∃ event, p.executeComplete.log = [event]) := by
  refine ⟨fun α p ps h empty => ⟨sequence_eq_rowRight h empty, rowLeft_eq_rowRight p ps, ?_⟩,
    fun α _ ps empty => ⟨sequence_eq_values empty ps, concat_eq_values ps⟩,
    fun α β γ opening p closing =>
      ⟨between_eq_program opening p closing, between_eq_bind opening p closing⟩,
    fun α β guard rest => cutAfter_eq_andThen guard rest,
    fun α β p nothing => ⟨executeComplete_eq_execute_between p nothing, ?_, ?_, ?_,
      fun hends => ?_⟩⟩
  · rw [program_congr (Steps.result_runInOrder p ps)]
    exact program_run (startsAtInput_rowRight (h p List.mem_cons_self) ps)
  · exact fun s hs hend => execute_of_success (complete_of_success hs hend)
  · exact fun s hs hrest => execute_of_failure (complete_of_rest_ne_nil hs hrest)
  · exact fun f hf => execute_of_failure (complete_of_failure hf)
  · exact exists_log_execute (complete_ne_undecided hends)

/-- Three steps of which the second reads ahead, so that its text is matched twice; and what is
reported where they read everything, where one step leaves something, and where it fails. -/
theorem sequencing_forms_agree_reading_ahead :
    let src : Source := ⟨0, ['é', 'b']⟩
    let first : Parser src Char := .char 'é'
    let others : List (Parser src Char) := [(Parser.char 'b').peek, .char 'b']
    let done : Success src Char :=
      ⟨'b', .first src, ⟨['b', 'é'], [], 3, rfl, rfl⟩, ['é', 'b', 'b']⟩
    sequence 'x' (first :: others) (.first src) = .success done ∧
      rowLeft first others (.first src) = .success done ∧
      program (Steps.runInOrder first others) (.first src) = .success done ∧
      concat (first :: others) (.first src) = .success (done.map fun _ => ['é', 'b', 'b']) ∧
      (sequence 'x' (first :: others)).executeComplete = ⟨.success 'b', [.succeeded 3]⟩ ∧
      first.executeComplete.log = [.failed 2 false ["end of file"]] ∧
      (Parser.char 'b' : Parser src Char).executeComplete.log =
        [.failed 0 false ["the character \"b\""]] ∧
      ∃ event, first.executeComplete.log = [event] := by
  intro src first others done
  have hstart : ∀ q ∈ first :: others, q.StartsAtInput := by
    intro q hq
    have hbuilt : Built [.jump] q := by
      simp only [others, List.mem_cons, List.not_mem_nil, or_false] at hq
      rcases hq with rfl | rfl | rfl
      · exact .char 'é'
      · exact .peek List.mem_cons_self (.char 'b')
      · exact .char 'b'
    exact hbuilt.startsAtInput
  obtain ⟨hrows, htexts, -, -, hexecutions⟩ := sequencing_forms_agree src
  obtain ⟨hsequence, hleft, hprogram⟩ := hrows Char first others hstart 'x'
  obtain ⟨-, hconcat⟩ := htexts Char (first :: others) 'x'
  have hparse : sequence 'x' (first :: others) (.first src) = .success done := rfl
  have hright : rowRight first others (.first src) = .success done := by
    rw [← hsequence]
    exact hparse
  obtain ⟨-, hread, -⟩ := hexecutions Char Unit (sequence 'x' (first :: others)) ()
  obtain ⟨-, -, hleaves, -, hends⟩ := hexecutions Char Unit first ()
  obtain ⟨-, -, -, hfails, -⟩ := hexecutions Char Unit (.char 'b') ()
  have hfirst : first (.first src) =
      .success ⟨'é', .first src, ⟨['é'], ['b'], 2, rfl, rfl⟩, ['é']⟩ := rfl
  have hb : (Parser.char 'b' : Parser src Char) (.first src) =
      .failure ⟨.first src, ["the character \"b\""], false⟩ := rfl
  have hevent := hends (by rw [hfirst]; exact nofun)
  rw [hleft, hprogram, hconcat, hread done hparse rfl, hfails _ hb]
  exact ⟨hparse, hright, hright, rfl, rfl, congrArg Execution.log (hleaves _ hfirst nofun), rfl,
    hevent⟩

end Parser

end Descent
