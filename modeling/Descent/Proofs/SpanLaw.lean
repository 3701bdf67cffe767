import Descent.Proofs.Postcondition
import Descent.Proofs.Subexpression

/-!
# The span law

A parser that neither injects text nor goes back accounts for every character: a success starts
where the parser was started, ends no earlier, and matched just the part of the source in between,
and a failure lies no earlier than the start.

The law is carried by `Stream.Passes`: from `s` to `s'` lies the text `t`.  This is a fact about the
characters still to come, so steps are put together by the associativity of `++`; only
`Stream.Passes.cursor_eq` and `Stream.Passes.eq_sliceTo` speak about bytes.
-/

namespace Descent

variable {src : Source} {α β γ : Type}

namespace Stream

/-- The text `t` lies between the place `s` and the later place `s'`. -/
def Passes (s : Stream src) (t : Text) (s' : Stream src) : Prop := s.rest = t ++ s'.rest

variable {s s' s'' : Stream src} {t t' : Text}

theorem Passes.refl (s : Stream src) : s.Passes [] s := rfl

theorem Passes.trans (h : s.Passes t s') (h' : s'.Passes t' s'') : s.Passes (t ++ t') s'' := by
  unfold Passes at *
  rw [h, h', List.append_assoc]

theorem Passes.of_uncons {c : Char} (h : s.uncons = some (c, s')) : s.Passes [c] s' :=
  rest_of_uncons h

/-- The cursor advances by the bytes of the text passed. -/
theorem Passes.cursor_eq (h : s.Passes t s') : s'.cursor = s.cursor + byteLength t := by
  have hs := s.cursor_add_byteLength_rest
  have hs' := s'.cursor_add_byteLength_rest
  have hbytes : byteLength s.rest = byteLength t + byteLength s'.rest := by
    rw [h, byteLength_append]
  omega

theorem Passes.cursor_le (h : s.Passes t s') : s.cursor ≤ s'.cursor := by
  rw [h.cursor_eq]
  exact Nat.le_add_right _ _

/-- The text passed is the slice between the two places. -/
theorem Passes.eq_sliceTo (h : s.Passes t s') : t = s.sliceTo s' := by
  have hlength : s'.cursor - s.cursor = byteLength t := by
    rw [h.cursor_eq]
    omega
  unfold sliceTo
  rw [hlength, h, splitAtByte_byteLength]

/-- The text passed is what the span between the two cursors selects. -/
theorem Passes.slice?_eq (h : s.Passes t s') :
    Span.slice? ⟨src.text, s.cursor, s'.cursor⟩ = some t := by
  have hsource : src.text = s.passed.reverse ++ (t ++ s'.rest) := by
    rw [← s.whole, h]
  have hstart : byteLength s.passed.reverse = s.cursor := by
    rw [byteLength_reverse, s.cursor_eq]
  refine (Span.slice?_eq_some_iff _ _).2 ⟨s.passed.reverse, s'.rest, hsource, hstart, ?_⟩
  rw [hstart, h.cursor_eq]

end Stream

/-! ## The law for each combinator -/

/-- A success starts at the input and matched just what lies between its two ends. -/
def Success.Spans (input : Stream src) (s : Success src α) : Prop :=
  s.start = input ∧ input.Passes s.matched s.next

/-- Every outcome of the parser accounts for the characters from its input on. -/
def Parser.Spans (p : Parser src α) : Prop :=
  ∀ input, (p input).Ensures (Success.Spans input) fun f => input.cursor ≤ f.cursor

namespace Parser

theorem spans_succeed (value : α) : (succeed value : Parser src α).Spans :=
  fun input => ⟨rfl, .refl input⟩

theorem spans_endOfInput : (endOfInput : Parser src Unit).Spans := by
  intro input
  by_cases h : input.rest = []
  · rw [endOfInput_of_rest_eq_nil h]
    exact ⟨rfl, .refl input⟩
  · rw [endOfInput_of_rest_ne_nil h]
    exact Nat.le_refl _

theorem spans_satisfy (test : Char → Bool) : (satisfy test : Parser src Char).Spans := by
  intro input
  rcases h : input.uncons with _ | ⟨c, next⟩
  · rw [satisfy_of_uncons_eq_none h]
    exact Nat.le_refl _
  · rw [satisfy_of_uncons_eq_some h]
    by_cases hc : test c = true
    · rw [if_pos hc]
      exact ⟨rfl, .of_uncons h⟩
    · rw [if_neg hc]
      exact Nat.le_refl _

/-- Following a text passes that text, and where it cannot be followed no place before is left. -/
theorem follow_spec (t : Text) (input : Stream src) :
    match follow t input with
    | .ok next => input.Passes t next
    | .error place => input.cursor ≤ place.cursor := by
  induction t generalizing input with
  | nil => exact .refl input
  | cons c t ih =>
    rcases h : input.uncons with _ | ⟨d, next⟩
    · simp only [follow_of_uncons_eq_none h, Nat.le_refl]
    · rw [follow_of_uncons_eq_some h]
      by_cases hd : d = c
      · subst hd
        rw [if_pos rfl]
        have hstep : input.Passes [d] next := .of_uncons h
        have hnext := ih next
        rcases hf : follow t next with place | last
        · rw [hf] at hnext
          exact Nat.le_trans hstep.cursor_le hnext
        · rw [hf] at hnext
          exact hstep.trans hnext
      · simp only [if_neg hd, Nat.le_refl]

theorem spans_literal (t : Text) : (literal t : Parser src Text).Spans := by
  intro input
  have h := follow_spec t input
  unfold literal
  rcases hf : follow t input with place | next
  · rw [hf] at h
    exact h
  · rw [hf] at h
    exact ⟨rfl, h⟩

variable {p q : Parser src α}

theorem Spans.map (hp : p.Spans) (f : α → β) : (p.map f).Spans := fun input =>
  (hp input).bind fun _ hs => hs

theorem Spans.mapFailure (hp : p.Spans) (g : Failure src → Failure src)
    (hg : ∀ f, (g f).cursor = f.cursor) : Spans fun input => (p input).mapFailure g := by
  intro input
  refine (hp input).mapFailure fun f hf => ?_
  rw [hg]
  exact hf

theorem Spans.orElse (hp : p.Spans) (hq : q.Spans) : (p.orElse q).Spans := by
  intro input
  refine (hp input).recover fun f hf => (hq input).mapFailure fun g hg => ?_
  rw [Failure.cursor_merge]
  omega

theorem spans_choice {ps : List (Parser src α)} (hps : ∀ p ∈ ps, p.Spans) : (choice ps).Spans := by
  intro input
  refine ensures_choice (fun p hp => hps p hp input) (fun f g hf hg => ?_) (Nat.le_refl _)
  rw [Failure.cursor_merge]
  omega

/-- What follows a step that obeys the law, from where it ended, accounts for the characters from
where the step began. -/
theorem Spans.after {input middle : Stream src} {t : Text} (hq : q.Spans)
    (h : input.Passes t middle) :
    (q middle).Ensures (fun s => input.Passes (t ++ s.matched) s.next)
      fun f => input.cursor ≤ f.cursor := by
  refine (hq middle).mono (fun s hs => h.trans hs.2) fun f hf => ?_
  exact Nat.le_trans h.cursor_le hf

theorem Spans.bind {next : α → Stream src → Parser src β} (hp : p.Spans)
    (hnext : ∀ value start, (next value start).Spans) : (p.bind next).Spans := by
  intro input
  refine (hp input).bind fun first hfirst => ?_
  exact ((hnext first.value input).after hfirst.2).bind fun second hsecond => ⟨rfl, hsecond⟩

theorem Spans.between {opening : Parser src α} {p : Parser src β} {closing : Parser src γ}
    (hopening : opening.Spans) (hp : p.Spans) (hclosing : closing.Spans) :
    (opening.between p closing).Spans := by
  intro input
  refine (hopening input).bind fun first hfirst => ?_
  refine (hp.after hfirst.2).bind fun middle hmiddle => ?_
  exact (hclosing.after hmiddle).bind fun last hlast => ⟨rfl, hlast⟩

theorem spans_sequence (empty : α) {ps : List (Parser src α)} (hps : ∀ p ∈ ps, p.Spans) :
    (sequence empty ps).Spans := by
  intro input
  have hempty : Success.Spans input ⟨empty, input, input, []⟩ := ⟨rfl, .refl input⟩
  refine ensures_continueWith (fun p hp done hdone => ?_) hempty
  exact ((hps p hp).after hdone.2).mono (fun step hstep => ⟨hdone.1, hstep⟩) fun _ hf => hf

theorem Spans.repeated (hp : p.Spans) (least : Nat) : (p.repeated least).Spans := by
  refine ensures_repeated hp ?_ ?_ ?_ ?_ least
  · exact fun input => ⟨rfl, .refl input⟩
  · intro input s hs _
    exact ⟨rfl, hs.2⟩
  · intro input s others hs _ hothers
    exact ⟨rfl, hs.2.trans hothers.2⟩
  · intro input s f hs hf
    exact Nat.le_trans hs.2.cursor_le hf

theorem spans_program {S : (β : Type) → Parser src β → Prop}
    (hS : ∀ β p, S β p → Parser.Spans p) {body : Steps src α} (hbody : body.MadeOf S) :
    (program body).Spans := by
  intro input
  -- The invariant of a program: what it matched lies between its start and where it stands.
  have hrun : (body.result ⟨input, []⟩).Ensures (fun r => input.Passes r.2.matched r.2.current)
      fun f => input.cursor ≤ f.cursor := by
    refine Steps.MadeOf.ensures
      (I := fun progress => input.Passes progress.matched progress.current)
      (fun β p hp progress hprogress => ?_) (fun progress hprogress => ?_) hbody (.refl input)
    · exact (hS β p hp).after hprogress
    · exact hprogress.cursor_le
  exact ensures_program (hrun.mono (fun r hr => ⟨rfl, hr⟩) fun _ hf => hf)

end Parser

/-- Every parser that is built without injections and jumps accounts for what it passes. -/
theorem Built.spans {p : Parser src α} (h : Built [.cut] p) : p.Spans := by
  induction h with
  | undecided => exact fun _ => trivial
  | succeed value => exact Parser.spans_succeed value
  | succeedWith h => simp at h
  | fail => exact fun input => Nat.le_refl _
  | endOfInput => exact Parser.spans_endOfInput
  | satisfy test => exact Parser.spans_satisfy test
  | literal t => exact Parser.spans_literal t
  | map f _ ih => exact ih.map f
  | label description _ ih => exact ih.mapFailure _ fun _ => rfl
  | cut _ _ ih => exact ih.mapFailure _ fun _ => rfl
  | peek h => simp at h
  | rewind h => simp at h
  | orElse _ _ ihp ihq => exact ihp.orElse ihq
  | choice _ ih => exact Parser.spans_choice ih
  | bind _ _ ihp ihnext => exact ihp.bind ihnext
  | between _ _ _ ihopening ihp ihclosing => exact ihopening.between ihp ihclosing
  | sequence empty _ ih => exact Parser.spans_sequence empty ih
  | repeated least _ ih => exact ih.repeated least
  | program S _ hbody ih => exact Parser.spans_program ih hbody

/-- **The span law.** A success of a parser that is built without injections and jumps starts at the
input, ends no earlier, and matched the slice between its two ends, which is what its span selects.
A failure lies between the input and the end of the source. -/
theorem Built.span_law {p : Parser src α} (h : Built [.cut] p) (input : Stream src) :
    (∀ s, p input = .success s → s.start = input ∧ s.start.cursor ≤ s.next.cursor ∧
      s.matched = s.start.sliceTo s.next ∧ s.span.slice? = some s.matched) ∧
    (∀ f, p input = .failure f →
      input.cursor ≤ f.position.cursor ∧ f.position.cursor ≤ byteLength src.text) := by
  have hspans := h.spans input
  constructor
  · intro s hs
    obtain ⟨rfl, hpasses⟩ := hspans.of_success hs
    exact ⟨rfl, hpasses.cursor_le, hpasses.eq_sliceTo, hpasses.slice?_eq⟩
  · intro f hf
    exact ⟨hspans.of_failure hf, f.position.cursor_le⟩

/-- The law for nested brackets after a character of two bytes. -/
theorem span_law_nested_brackets :
    let g : Grammar := ⟨[("nest", .between (.char '(') (.optional (.rule "nest")) (.char ')'))]⟩
    let input : Stream ⟨0, ['é', '(', '(', ')', ')']⟩ := ⟨['é'], ['(', '(', ')', ')'], 2, rfl, rfl⟩
    ∃ s, g.parser (.rule "nest") input = .success s ∧ s.next.cursor = 6 ∧ s.start = input ∧
      s.matched = s.start.sliceTo s.next ∧ s.span.slice? = some s.matched := by
  intro g input
  have hrules : ∀ r ∈ g.rules, r.2.Uses [.cut] := by
    intro r hr
    obtain rfl := List.mem_singleton.1 hr
    simp [Expr.Uses, Expr.parts_eq, Expr.children, Expr.features]
  have hrule : (Expr.rule "nest").Uses [.cut] := by
    simp [Expr.Uses, Expr.parts_eq, Expr.children, Expr.features]
  have hparse : g.parser (.rule "nest") input =
      .success ⟨.present .absent, input, ⟨[')', ')', '(', '(', 'é'], [], 6, rfl, rfl⟩,
        ['(', '(', ')', ')']⟩ := rfl
  obtain ⟨hstart, -, hmatched, hslice⟩ :=
    ((Grammar.parser_built hrules hrule).span_law input).1 _ hparse
  exact ⟨_, hparse, rfl, hstart, hmatched, hslice⟩

end Descent
