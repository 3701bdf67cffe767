import Descent.Grammar.Meaning
import Descent.Proofs.Alternatives

/-!
# How fatal failures travel

`Calls p input q place label` says that `p`, run at `input`, runs `q` at `place` as one of its own
steps, in a position where the failures of `q` are failures of `p`; `label` is the description that
`p` puts in place of the expectations, if it does.  This leaves out just two positions: the second
branch of `orElse`, whose failures are merged, and the steps of a program whose failures it ignores.
Combinators that are written with others call what those call.

A `Path` is a chain of such calls.  One call passes a fatal failure on (`Calls.passes_fatal`), so a
whole path does.
-/

namespace Descent

variable {src : Source} {α β : Type}

/-- A program, at some point of its progress, runs `q` at `place` and passes its failures on. -/
inductive Steps.Runs (q : Parser src β) (place : Stream src) :
    {α : Type} → Steps src α → Progress src → Prop where
  | run {progress : Progress src} : progress.current = place → Runs q place (Steps.run q) progress
  | first {α γ : Type} {body : Steps src α} {next : α → Steps src γ} {progress : Progress src} :
      Runs q place body progress → Runs q place (body >>= next) progress
  | later {α γ : Type} {body : Steps src α} {next : α → Steps src γ} {progress : Progress src}
      {value : α} {reached : Progress src} : body progress = (.success value, reached) →
      Runs q place (next value) reached → Runs q place (body >>= next) progress

namespace Parser

/-- A repetition of `p` comes from one place to another by rounds that all move forward. -/
inductive Rounds (p : Parser src α) : Stream src → Stream src → Prop where
  | none (input : Stream src) : Rounds p input input
  | more {input place : Stream src} {s : Success src α} : p input = .success s →
      input.cursor < s.next.cursor → Rounds p s.next place → Rounds p input place

/-- The parser `p` at `input` runs `q` at `place` and passes its failures on, under the label. -/
inductive Calls : {α β : Type} → Parser src α → Stream src → Parser src β → Stream src →
    Option String → Prop where
  | map {α β : Type} (f : α → β) (p : Parser src α) (input : Stream src) :
      Calls (p.map f) input p input none
  | label {α : Type} (description : String) (p : Parser src α) (input : Stream src) :
      Calls (p.label description) input p input (some description)
  | cut {α : Type} (p : Parser src α) (input : Stream src) : Calls p.cut input p input none
  | peek {α : Type} (p : Parser src α) (input : Stream src) : Calls p.peek input p input none
  | rewind {α : Type} (p : Parser src α) (input : Stream src) : Calls p.rewind input p input none
  | orElse {α : Type} (p other : Parser src α) (input : Stream src) :
      Calls (p.orElse other) input p input none
  | choice {α : Type} {before : List (Parser src α)} (p : Parser src α)
      (after : List (Parser src α)) {input : Stream src} :
      (∀ q ∈ before, ∃ f, q input = .failure f ∧ f.fatal = false) →
      Calls (choice (before ++ p :: after)) input p input none
  | bindFirst {α β : Type} (p : Parser src α) (next : α → Stream src → Parser src β)
      (input : Stream src) : Calls (p.bind next) input p input none
  | bindSecond {α β : Type} {p : Parser src α} (next : α → Stream src → Parser src β)
      {input : Stream src} {s : Success src α} : p input = .success s →
      Calls (p.bind next) input (next s.value input) s.next none
  | betweenOpening {α β γ : Type} (opening : Parser src α) (p : Parser src β)
      (closing : Parser src γ) (input : Stream src) :
      Calls (opening.between p closing) input opening input none
  | betweenMiddle {α β γ : Type} {opening : Parser src α} (p : Parser src β)
      (closing : Parser src γ) {input : Stream src} {s : Success src α} :
      opening input = .success s → Calls (opening.between p closing) input p s.next none
  | betweenClosing {α β γ : Type} {opening : Parser src α} {p : Parser src β}
      (closing : Parser src γ) {input : Stream src} {s : Success src α} {t : Success src β} :
      opening input = .success s → p s.next = .success t →
      Calls (opening.between p closing) input closing t.next none
  | cutAfterGuard {α β : Type} (guard : Parser src α) (rest : Parser src β) (input : Stream src) :
      Calls (guard.cutAfter rest) input guard input none
  | cutAfterRest {α β : Type} {guard : Parser src α} (rest : Parser src β) {input : Stream src}
      {s : Success src α} : guard input = .success s →
      Calls (guard.cutAfter rest) input rest.cut s.next none
  | sequence {α : Type} {empty : α} {before : List (Parser src α)} (p : Parser src α)
      (after : List (Parser src α)) {input : Stream src} {done : Success src α} :
      sequence empty before input = .success done →
      Calls (sequence empty (before ++ p :: after)) input p done.next none
  | concat {α : Type} [Fragment α] {before : List (Parser src α)} (p : Parser src α)
      (after : List (Parser src α)) {input : Stream src} {done : Success src Text} :
      concat before input = .success done →
      Calls (concat (before ++ p :: after)) input p done.next none
  | repeated {α : Type} {p : Parser src α} (least : Nat) {input place : Stream src} :
      Rounds p input place → Calls (p.repeated least) input p place none
  | program {α β : Type} {body : Steps src α} {q : Parser src β} {input place : Stream src} :
      body.Runs q place ⟨input, []⟩ → Calls (program body) input q place none
  | rule {g : Grammar} {name : String} {e : Expr} (h : g.rules.lookup name = some e) (depth : Nat)
      (input : Stream src) :
      Calls (g.rule (depth + 1) name) input (e.toParser (g.rule depth)) input none

/-- A chain of calls.  The label of a path is the outermost label on it. -/
inductive Path : {α β : Type} → Parser src α → Stream src → Parser src β → Stream src →
    Option String → Prop where
  | here {α : Type} (p : Parser src α) (input : Stream src) : Path p input p input none
  | call {α β γ : Type} {p : Parser src α} {q : Parser src β} {r : Parser src γ}
      {input place place' : Stream src} {label label' : Option String} :
      Calls p input q place label → Path q place r place' label' →
      Path p input r place' (label.or label')

/-! ## One call -/

variable {f : Failure src}

/-- A choice gives a fatal failure of any of its branches as it is. -/
theorem choice_of_fatal {before after : List (Parser src α)} {p : Parser src α}
    {input : Stream src} (hbefore : ∀ q ∈ before, ∃ f, q input = .failure f ∧ f.fatal = false)
    (hp : p input = .failure f) (hf : f.fatal = true) :
    choice (before ++ p :: after) input = .failure f := by
  rw [choice_of_not_declines hbefore (not_declines_of_fatal hp hf), hp]

theorem continueWith_append (done : Success src α) (ps qs : List (Parser src α)) :
    continueWith done (ps ++ qs) = continueWith done ps >>= fun done => continueWith done qs := by
  induction ps generalizing done with
  | nil => rfl
  | cons p ps ih =>
    rw [List.cons_append, continueWith, continueWith, bind_assoc]
    exact bind_congr fun step => ih _

theorem sequence_of_failure {empty : α} {before after : List (Parser src α)} {p : Parser src α}
    {input : Stream src} {done : Success src α}
    (hbefore : sequence empty before input = .success done)
    (hp : p done.next = .failure f) : sequence empty (before ++ p :: after) input = .failure f := by
  unfold sequence at hbefore ⊢
  rw [continueWith_append, hbefore, Outcome.success_bind, continueWith, hp, Outcome.failure_bind]

theorem concatFrom_append [Fragment α] (done : Success src Text) (ps qs : List (Parser src α)) :
    concatFrom done (ps ++ qs) = concatFrom done ps >>= fun done => concatFrom done qs := by
  induction ps generalizing done with
  | nil => rfl
  | cons p ps ih =>
    rw [List.cons_append, concatFrom, concatFrom, bind_assoc]
    exact bind_congr fun step => ih _

theorem concat_of_failure [Fragment α] {before after : List (Parser src α)} {p : Parser src α}
    {input : Stream src} {done : Success src Text} (hbefore : concat before input = .success done)
    (hp : p done.next = .failure f) : concat (before ++ p :: after) input = .failure f := by
  unfold concat at hbefore ⊢
  rw [concatFrom_append, hbefore, Outcome.success_bind, concatFrom, hp, Outcome.failure_bind]

/-- A repetition gives a fatal failure of any of its rounds as it is. -/
theorem repeated_of_rounds {p : Parser src α} {input place : Stream src}
    (h : Rounds p input place) (hp : p place = .failure f) (hf : f.fatal = true) (least : Nat) :
    p.repeated least input = .failure f := by
  induction h generalizing least with
  | none input => exact repeated_of_failure hp (.inl hf)
  | more hs hadvance _ ih => rw [repeated_of_advance hs hadvance, ih hp, Outcome.failure_bind]

end Parser

theorem Steps.Runs.passes_failure {q : Parser src β} {place : Stream src} {body : Steps src α}
    {progress : Progress src} {f : Failure src} (h : body.Runs q place progress)
    (hq : q place = .failure f) : ∃ reached, body progress = (.failure f, reached) := by
  induction h with
  | @run progress hplace =>
    subst hplace
    exact ⟨progress, Steps.run_of_failure hq⟩
  | first _ ih =>
    obtain ⟨reached, hbody⟩ := ih
    exact ⟨reached, Steps.bind_of_failure hbody⟩
  | later hbody _ ih =>
    obtain ⟨reached, hnext⟩ := ih
    exact ⟨reached, (Steps.bind_of_success hbody).trans hnext⟩

/-- A failure with a label, if there is one, in place of its expectations. -/
def Failure.under (f : Failure src) (label : Option String) : Failure src := label.elim f f.relabel

theorem Failure.fatal_under (f : Failure src) (label : Option String) :
    (f.under label).fatal = f.fatal := by
  cases label <;> rfl

theorem Failure.position_under (f : Failure src) (label : Option String) :
    (f.under label).position = f.position := by
  cases label <;> rfl

theorem Failure.expected_under (f : Failure src) (label : Option String) :
    (f.under label).expected = label.elim f.expected ([·]) := by
  cases label <;> rfl

theorem Failure.under_under (f : Failure src) (outer inner : Option String) :
    (f.under inner).under outer = f.under (outer.or inner) := by
  cases outer <;> cases inner <;> rfl

namespace Parser

section Final

variable {p : Parser src α} {q : Parser src β} {input place : Stream src} {label : Option String}
  {f : Failure src}

/-- A call passes a fatal failure on, under its label. -/
theorem Calls.passes_fatal (h : Calls p input q place label) (hq : q place = .failure f)
    (hf : f.fatal = true) : p input = .failure (f.under label) := by
  cases h with
  | map g => exact map_of_failure g hq
  | label description => exact label_of_failure description hq
  | cut =>
    have hescalate : f.escalate = f := by
      unfold Failure.escalate
      rw [← hf]
    rw [cut_of_failure hq, hescalate]
    rfl
  | peek =>
    unfold Parser.peek
    rw [hq, Outcome.failure_bind]
    rfl
  | rewind =>
    unfold Parser.rewind
    rw [hq, Outcome.failure_bind]
    rfl
  | orElse => exact orElse_of_fatal hq hf
  | choice _ after hbefore => exact choice_of_fatal hbefore hq hf
  | bindFirst => exact bind_of_failure hq
  | bindSecond next hs => exact bind_of_success_of_failure hs hq
  | betweenOpening =>
    unfold Parser.between
    rw [hq, Outcome.failure_bind]
    rfl
  | betweenMiddle _ closing hs =>
    unfold Parser.between
    rw [hs, Outcome.success_bind, hq, Outcome.failure_bind]
    rfl
  | betweenClosing _ hs ht =>
    unfold Parser.between
    rw [hs, Outcome.success_bind, ht, Outcome.success_bind, hq, Outcome.failure_bind]
    rfl
  | cutAfterGuard =>
    rw [cutAfter_eq_andThen]
    exact bind_of_failure hq
  | cutAfterRest rest hs =>
    rw [cutAfter_eq_andThen]
    exact bind_of_success_of_failure hs hq
  | sequence _ after hbefore => exact sequence_of_failure hbefore hq
  | concat _ after hbefore => exact concat_of_failure hbefore hq
  | repeated least hrounds => exact repeated_of_rounds hrounds hq hf least
  | program hruns =>
    obtain ⟨reached, hbody⟩ := hruns.passes_failure hq
    exact program_of_failure (congrArg Prod.fst hbody)
  | rule h depth =>
    rw [Grammar.rule_succ_of_lookup h]
    exact hq

/-- A path passes a fatal failure on, under the outermost label on it. -/
theorem Path.passes_fatal (h : Path p input q place label) (hq : q place = .failure f)
    (hf : f.fatal = true) : p input = .failure (f.under label) := by
  induction h with
  | here => exact hq
  | call hcall _ ih =>
    have hmiddle := ih hq
    rw [hcall.passes_fatal hmiddle (by rw [Failure.fatal_under]; exact hf), Failure.under_under]

/-- **Fatal failures are final.** If a parser, on a path without second branches and ignored steps,
runs another that fails fatally, then it fails fatally at the same place.  It expects what the other
expected, or the outermost label on the path. -/
theorem Path.fatal_failure_is_final (h : Path p input q place label) (hq : q place = .failure f)
    (hf : f.fatal = true) :
    ∃ g, p input = .failure g ∧ g.fatal = true ∧ g.position = f.position ∧
      g.cursor = f.cursor ∧ g.expected = label.elim f.expected ([·]) := by
  refine ⟨f.under label, h.passes_fatal hq hf, ?_, f.position_under label, ?_,
    f.expected_under label⟩
  · rw [Failure.fatal_under]
    exact hf
  · unfold Failure.cursor
    rw [Failure.position_under]

end Final

/-- A bracket that is not closed in the second item of an optional list with a label. -/
theorem fatal_failure_in_second_item :
    let src : Source := ⟨0, ['[', ']', ',', '[', 'x']⟩
    let item : Parser src Char := (char '[').cutAfter (char ']')
    let list : Parser src (Option (List Char)) := label "a list" (item.sepBy (char ',')).optional
    let place : Stream src := ⟨['[', ',', ']', '['], ['x'], 4, rfl, rfl⟩
    Path list (.first src) (char ']').cut place (some "a list") ∧
      ∃ g, list (.first src) = .failure g ∧ g.fatal = true ∧ g.cursor = 4 ∧
        g.expected = ["a list"] := by
  intro src item list place
  have hitem : item (.first src) = .success ⟨']', .first src,
      ⟨[']', '['], [',', '[', 'x'], 2, rfl, rfl⟩, ['[', ']']⟩ := rfl
  have hseparator : (char ',' : Parser src Char) ⟨[']', '['], [',', '[', 'x'], 2, rfl, rfl⟩ =
      .success ⟨',', ⟨[']', '['], [',', '[', 'x'], 2, rfl, rfl⟩,
        ⟨[',', ']', '['], ['[', 'x'], 3, rfl, rfl⟩, [',']⟩ := rfl
  have hguard : (char '[' : Parser src Char) ⟨[',', ']', '['], ['[', 'x'], 3, rfl, rfl⟩ =
      .success ⟨'[', ⟨[',', ']', '['], ['[', 'x'], 3, rfl, rfl⟩, place, ['[']⟩ := rfl
  have hlist : Path (item.sepBy (char ',')) (.first src) (char ']').cut place none := by
    refine .call (.orElse _ _ _) (.call (.bindSecond _ hitem) (.call (.map _ _ _) ?_))
    refine .call (.repeated 0 (.none _)) (.call (.bindSecond _ hseparator) ?_)
    exact .call (.cutAfterRest (char ']') hguard) (.here _ _)
  have hpath : Path list (.first src) (char ']').cut place (some "a list") :=
    .call (.label _ _ _) (.call (.orElse _ _ _) (.call (.map _ _ _) hlist))
  have hfailure : (char ']' : Parser src Char).cut place =
      .failure ⟨place, ["the character \"]\""], true⟩ := rfl
  obtain ⟨g, hg, hfatal, -, hcursor, hexpected⟩ := hpath.fatal_failure_is_final hfailure rfl
  exact ⟨hpath, g, hg, hfatal, hcursor, hexpected⟩

end Parser

end Descent
