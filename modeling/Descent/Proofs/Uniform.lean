import Descent.Proofs.Depth
import Descent.Proofs.Translation

/-!
# Parsers that do not observe where they are

A `Family` has a parser for every source.  `Uniform P` says that the parsers of `P` are put together
in one way for all sources, from everything the library has except what shows an absolute place: a
sequence may go on depending on the value and on the characters to come, but not on the place
itself, programs do not ask for their position, and nothing goes back to the beginning.  The parsers
of a recursive grammar are limits of such families (`Grammar.parser_uniform`).

A uniform family is carried along by every translation of sources
(`Translation.carries_of_uniform`), so putting text in front of a source only moves the places of an
outcome (`Uniform.translation_invariant`).
-/

namespace Descent

variable {src src' : Source} {α β ι : Type}

/-- A parser for every source. -/
abbrev Family (α : Type) := (src : Source) → Parser src α

/-- The steps of a program for every source. -/
abbrev StepsFamily (α : Type) := (src : Source) → Steps src α

/-- The programs are put together in one way, run parsers of the class `S` only, and do not ask for
their position. -/
inductive StepsFamily.UniformOver (S : (α : Type) → Family α → Prop) :
    {α : Type} → StepsFamily α → Prop where
  | pure {α : Type} (value : α) : UniformOver S fun _ => Pure.pure value
  | bind {α β : Type} {body : StepsFamily α} {next : α → StepsFamily β} : UniformOver S body →
      (∀ value, UniformOver S (next value)) →
      UniformOver S fun src => body src >>= fun value => next value src
  | run {α : Type} {p : Family α} : S α p → UniformOver S fun src => Steps.run (p src)
  | attempt {α : Type} {p : Family α} : S α p → UniformOver S fun src => Steps.attempt (p src)
  | fail {α : Type} : UniformOver S fun src => (Steps.fail : Steps src α)

theorem StepsFamily.UniformOver.ite {S : (α : Type) → Family α → Prop} {c : Prop} [Decidable c]
    {body other : StepsFamily α} (hbody : body.UniformOver S) (hother : other.UniformOver S) :
    UniformOver S fun src => if c then body src else other src := by
  split
  · exact hbody
  · exact hother

/-- The parsers are put together in one way for all sources and do not observe where they are. -/
inductive Uniform : {α : Type} → Family α → Prop where
  | undecided {α : Type} : Uniform fun src => (fun _ => .undecided : Parser src α)
  | succeedWith {α : Type} (value : α) (matched : Text) :
      Uniform fun _ => .succeedWith value matched
  | fail {α : Type} : Uniform fun src => (.fail : Parser src α)
  | endOfInput : Uniform fun _ => .endOfInput
  | satisfy (test : Char → Bool) : Uniform fun _ => .satisfy test
  | literal (t : Text) : Uniform fun _ => .literal t
  | map {α β : Type} {p : Family α} (f : α → β) : Uniform p → Uniform fun src => (p src).map f
  | label {α : Type} {p : Family α} (description : String) :
      Uniform p → Uniform fun src => (p src).label description
  | cut {α : Type} {p : Family α} : Uniform p → Uniform fun src => (p src).cut
  | peek {α : Type} {p : Family α} : Uniform p → Uniform fun src => (p src).peek
  | orElse {α : Type} {p q : Family α} :
      Uniform p → Uniform q → Uniform fun src => (p src).orElse (q src)
  | choice {α ι : Type} {is : List ι} {p : ι → Family α} :
      (∀ i ∈ is, Uniform (p i)) → Uniform fun src => .choice (is.map fun i => p i src)
  | bind {α β : Type} {p : Family α} {next : α → Text → Family β} : Uniform p →
      (∀ value toCome, Uniform (next value toCome)) →
      Uniform fun src => (p src).bind fun value start => next value start.rest src
  | between {α β γ : Type} {opening : Family α} {p : Family β} {closing : Family γ} :
      Uniform opening → Uniform p → Uniform closing →
      Uniform fun src => (opening src).between (p src) (closing src)
  | sequence {α ι : Type} (empty : α) {is : List ι} {p : ι → Family α} :
      (∀ i ∈ is, Uniform (p i)) → Uniform fun src => .sequence empty (is.map fun i => p i src)
  | repeated {α : Type} {p : Family α} (least : Nat) :
      Uniform p → Uniform fun src => (p src).repeated least
  | program {α : Type} {body : StepsFamily α} (S : (β : Type) → Family β → Prop) :
      (∀ β p, S β p → Uniform p) → body.UniformOver S → Uniform fun src => .program (body src)
  /-- Rules that refer to each other, followed as deep as a parse needs. -/
  | limit {α : Type} {p : Family α} (within : Nat → Family α) : (∀ n, Uniform (within n)) →
      (∀ src input, ∃ n, ∀ m, n ≤ m → within m src input = p src input) → Uniform p

/-! ## Translations carry uniform families -/

namespace Translation

variable (T : Translation src src')

theorem carriesSteps_of_uniformOver {S : (α : Type) → Family α → Prop}
    (hS : ∀ α p, S α p → T.Carries (p src) (p src')) {body : StepsFamily α}
    (h : body.UniformOver S) : T.CarriesSteps (body src) (body src') := by
  induction h with
  | pure value => exact carriesSteps_pure value
  | bind _ _ ihbody ihnext => exact ihbody.bind ihnext
  | run hp => exact (hS _ _ hp).run
  | attempt hp => exact (hS _ _ hp).attempt
  | fail => exact carriesSteps_fail

theorem carries_of_uniform {p : Family α} (h : Uniform p) : T.Carries (p src) (p src') := by
  induction h with
  | undecided => exact fun _ => rfl
  | succeedWith value matched => exact T.carries_succeedWith value matched
  | fail => exact T.carries_fail
  | endOfInput => exact T.carries_endOfInput
  | satisfy test => exact T.carries_satisfy test
  | literal t => exact T.carries_literal t
  | map f _ ih => exact ih.map f
  | label description _ ih => exact ih.label description
  | cut _ ih => exact ih.cut
  | peek _ ih => exact ih.peek
  | orElse _ _ ihp ihq => exact ihp.orElse ihq
  | choice _ ih => exact carries_choice ih
  | bind _ _ ihp ihnext => exact ihp.bind fun value start => ihnext value start.rest
  | between _ _ _ ihopening ihp ihclosing => exact ihopening.between ihp ihclosing
  | sequence empty _ ih => exact carries_sequence empty ih
  | repeated least _ ih => exact ih.repeated least
  | program S _ hbody ih => exact (T.carriesSteps_of_uniformOver ih hbody).program
  | @limit _ p within _ hlimit ih =>
    intro input
    obtain ⟨n, hn⟩ := hlimit src input
    obtain ⟨n', hn'⟩ := hlimit src' (T.stream input)
    rw [← hn (max n n') (Nat.le_max_left _ _), ← hn' (max n n') (Nat.le_max_right _ _)]
    exact ih (max n n') input

end Translation

/-! ## Parsers written with others -/

namespace Uniform

variable {p q : Family α} {separator : Family β}

theorem bindValue {next : α → Family β} (hp : Uniform p) (hnext : ∀ value, Uniform (next value)) :
    Uniform fun src => (p src).bind fun value _ => next value src :=
  @Uniform.bind _ _ p (fun value _ => next value) hp fun value _ => hnext value

theorem succeed (value : α) : Uniform fun _ => .succeed value := .succeedWith value []

theorem char (c : Char) : Uniform fun _ => .char c := .label _ (.satisfy _)

theorem ofClass (k : CharClass) : Uniform fun _ => .ofClass k := .label _ (.satisfy _)

theorem andThen (hp : Uniform p) (hq : Uniform separator) :
    Uniform fun src => (p src).andThen (separator src) :=
  hp.bindValue fun _ => hq

theorem withDefault (default : α) (hp : Uniform p) :
    Uniform fun src => (p src).withDefault default :=
  hp.orElse (.succeed default)

theorem optional (hp : Uniform p) : Uniform fun src => (p src).optional :=
  (hp.map some).withDefault none

theorem many [Fragment α] (hp : Uniform p) : Uniform fun src => (p src).many :=
  (hp.repeated 0).map _

theorem many1 [Fragment α] (hp : Uniform p) : Uniform fun src => (p src).many1 :=
  (hp.repeated 1).map _

theorem sepBy1 (hp : Uniform p) (hs : Uniform separator) :
    Uniform fun src => (p src).sepBy1 (separator src) :=
  hp.bindValue fun _ => ((hs.andThen hp).repeated 0).map _

theorem concat [Fragment α] {is : List ι} {p : ι → Family α} (h : ∀ i ∈ is, Uniform (p i)) :
    Uniform fun src => .concat (is.map fun i => p i src) := by
  induction is with
  | nil => exact .succeed []
  | cons i is ih =>
    have hrest := ih fun j hj => h j (List.mem_cons_of_mem _ hj)
    simp only [List.map_cons, Parser.concat_cons]
    exact (h i List.mem_cons_self).bindValue fun _ => hrest.map _

theorem integer : Uniform fun _ => .integer := by
  refine .label _ (.program (fun _ => Uniform) (fun _ _ hp => hp) ?_)
  refine .bind (.run (char '-').optional) fun sign => ?_
  refine .bind (.run (ofClass .digit).many1) fun digits => ?_
  exact .ite (.pure _) .fail

theorem number : Uniform fun _ => .number := by
  refine .label _ (.program (fun _ => Uniform) (fun _ _ hp => hp) ?_)
  refine .bind (.run (char '-').optional) fun sign => ?_
  refine .bind (.run (ofClass .digit).many) fun whole => ?_
  refine .bind (.run ((char '.').andThen (ofClass .digit).many1).optional) fun fraction => ?_
  exact .ite .fail (.pure _)

theorem quoted : Uniform fun _ => .quoted := by
  have hitem : Uniform fun _ => Parser.quotedItem :=
    ((char '\\').andThen (.satisfy _)).orElse (.label _ (.satisfy _))
  refine .label _ (.program (fun _ => Uniform) (fun _ _ hp => hp) ?_)
  refine .bind (.run (char '"')) fun _ => ?_
  refine .bind (.run hitem.many) fun content => ?_
  exact .bind (.run (char '"')) fun _ => .pure content

end Uniform

/-! ## Grammars -/

/-- The step asks for the position. -/
def Step.readsPosition {π : Type} : Step π → Bool
  | position _ => true
  | _ => false

namespace Expr

/-- The expression itself, apart from its children, shows an absolute place. -/
def observesPlace : Expr → Bool
  | bind _ .start => true
  | program steps _ => steps.any Step.readsPosition
  | rewind _ => true
  | _ => false

/-- An expression in which nothing shows an absolute place. -/
def PlaceFree (e : Expr) : Prop := ∀ d ∈ e.parts, d.observesPlace = false

theorem PlaceFree.child {c e : Expr} (he : e.PlaceFree) (hc : c ∈ e.children) : c.PlaceFree :=
  fun d hd => he d (mem_parts_of_child hc hd)

variable {rules : (src : Source) → String → Parser src Value}

/-- The expression stands for a uniform family over the rules. -/
def IsUniform (rules : (src : Source) → String → Parser src Value) (e : Expr) : Prop :=
  Uniform fun src => e.toParser (rules src)

theorem bind_isUniform {first : Expr} {next : Continuation Expr} (hfirst : first.IsUniform rules)
    (hnext : ∀ e ∈ next.parsers, e.IsUniform rules)
    (hplace : (bind first next).observesPlace = false) : (bind first next).IsUniform rules := by
  cases next with
  | pair e => exact hfirst.bindValue fun _ => (hnext e List.mem_cons_self).map _
  | start => cases hplace
  | same => exact hfirst.bindValue fun _ => (Uniform.literal _).map _
  | times e =>
    refine hfirst.bindValue fun v => ?_
    have hcopies : ∀ c ∈ List.replicate v.repetitions e, c.IsUniform rules := by
      intro c hc
      rw [List.eq_of_mem_replicate hc]
      exact hnext e List.mem_cons_self
    have hsequence := Uniform.sequence .null hcopies
    simp only [List.map_replicate] at hsequence
    exact hsequence
  | switch cases otherwise =>
    refine hfirst.bindValue fun v => ?_
    simp only [lookup_toCases]
    rcases hl : cases.lookup v.text with _ | e
    · exact hnext otherwise List.mem_cons_self
    · exact hnext e (List.mem_cons_of_mem _ (List.mem_map.2 ⟨_, mem_of_lookup_eq_some hl, rfl⟩))

theorem performAll_uniformOver {steps : List (Step Expr)}
    (h : ∀ e ∈ steps.flatMap Step.parsers, e.IsUniform rules)
    (hplace : steps.any Step.readsPosition = false) (vars : Bindings) :
    StepsFamily.UniformOver (fun _ => Uniform) fun src =>
      Step.performAll vars (toSteps (rules src) steps) := by
  induction steps generalizing vars with
  | nil => exact .pure vars
  | cons step steps ih =>
    simp only [List.flatMap_cons, List.mem_append] at h
    rw [List.any_cons, Bool.or_eq_false_iff] at hplace
    have hsteps := ih (fun e he => h e (.inr he)) hplace.2
    refine .bind ?_ hsteps
    cases step with
    | run e target => exact .bind (.run (h e (.inl List.mem_cons_self))) fun _ => .pure _
    | attempt e target => exact .bind (.attempt (h e (.inl List.mem_cons_self))) fun _ => .pure _
    | same var => exact .bind (.run (.literal _)) fun _ => .pure _
    | position target => cases hplace.1
    | failIfLonger var limit => exact .ite .fail (.pure _)
    | failUnlessSame var other => exact .ite (.pure _) .fail
    | fail => exact .fail

/-- An expression that shows no place stands for a uniform family if the rules are uniform. -/
theorem toParser_uniform (hrules : ∀ name, Uniform fun src => rules src name) {e : Expr}
    (he : e.PlaceFree) : Uniform fun src => e.toParser (rules src) := by
  show e.IsUniform rules
  induction e using childInduction with
  | step e ih =>
    have hplace : e.observesPlace = false := he e (mem_parts_self e)
    have hchild : ∀ c ∈ e.children, c.IsUniform rules := fun c hc => ih c hc (he.child hc)
    clear ih he
    cases e with
    | item => exact (Uniform.satisfy _).map _
    | ofClass k => exact (Uniform.ofClass k).map _
    | notOfClass k => exact ((Uniform.satisfy _).label _).map _
    | char c => exact (Uniform.char c).map _
    | notChar c => exact ((Uniform.satisfy _).label _).map _
    | satisfy test => exact (Uniform.satisfy _).map _
    | spaces => exact (Uniform.ofClass _).many.map _
    | spaces1 => exact ((Uniform.ofClass _).many1.label _).map _
    | notSpaces => exact (Uniform.satisfy _).many.map _
    | notSpaces1 => exact ((Uniform.satisfy _).many1.label _).map _
    | literal t => exact (Uniform.literal t).map _
    | integer => exact Uniform.integer.map _
    | number => exact Uniform.number.map _
    | quoted => exact Uniform.quoted.map _
    | endOfInput => exact Uniform.endOfInput.map _
    | succeed v matched => exact .succeedWith v matched
    | default k => exact .succeed _
    | fail k => exact .fail
    | map f e => exact (hchild e List.mem_cons_self).map _
    | label description e => exact (hchild e List.mem_cons_self).label _
    | cut e => exact (hchild e List.mem_cons_self).cut
    | cutAfter guard rest =>
      exact (hchild guard (by simp [children])).andThen (hchild rest (by simp [children])).cut
    | orElse left right =>
      exact (hchild left (by simp [children])).orElse (hchild right (by simp [children]))
    | choice es =>
      simp only [IsUniform, toParser, toParsers_eq_map]
      exact .choice hchild
    | andThen first second =>
      exact (hchild first (by simp [children])).andThen (hchild second (by simp [children]))
    | bind first next =>
      exact bind_isUniform (hchild first List.mem_cons_self)
        (fun c hc => hchild c (List.mem_cons_of_mem _ hc)) hplace
    | sequence empty es =>
      simp only [IsUniform, toParser, toParsers_eq_map]
      exact .sequence _ hchild
    | concat es =>
      simp only [IsUniform, toParser, toParsers_eq_map]
      exact (Uniform.concat hchild).map _
    | many e => exact (hchild e List.mem_cons_self).many.map _
    | many1 e => exact (hchild e List.mem_cons_self).many1.map _
    | collect e => exact ((hchild e List.mem_cons_self).repeated 0).map _
    | collect1 e => exact ((hchild e List.mem_cons_self).repeated 1).map _
    | sepBy e separator =>
      have hlist := (hchild e (by simp [children])).sepBy1 (hchild separator (by simp [children]))
      exact (hlist.withDefault []).map _
    | sepBy1 e separator =>
      exact ((hchild e (by simp [children])).sepBy1 (hchild separator (by simp [children]))).map _
    | between opening e closing =>
      exact (hchild opening (by simp [children])).between (hchild e (by simp [children]))
        (hchild closing (by simp [children]))
    | withDefault e => exact (hchild e List.mem_cons_self).withDefault _
    | optional e => exact (hchild e List.mem_cons_self).optional.map _
    | textOf e => exact ((hchild e List.mem_cons_self).map _).map _
    | program steps result =>
      have hsteps := performAll_uniformOver hchild hplace .empty
      exact .program (fun _ => Uniform) (fun _ _ hp => hp)
        (.bind hsteps fun vars => .pure (Value.list (result.map vars)))
    | rule name => exact hrules name
    | peek e => exact (hchild e List.mem_cons_self).peek
    | rewind e => cases hplace

end Expr

namespace Grammar

variable {g : Grammar}

theorem rule_uniform (hg : ∀ r ∈ g.rules, r.2.PlaceFree) (depth : Nat) (name : String) :
    Uniform fun _ => g.rule depth name := by
  induction depth generalizing name with
  | zero => exact .undecided
  | succ depth ih =>
    rcases h : g.rules.lookup name with _ | e
    · simp only [rule, h]
      exact .fail
    · simp only [rule_succ_of_lookup h]
      exact Expr.toParser_uniform ih (hg _ (mem_of_lookup_eq_some h))

/-- A grammar that shows no place stands for uniform families, however its rules refer to each
other. -/
theorem parser_uniform (hg : ∀ r ∈ g.rules, r.2.PlaceFree) {e : Expr} (he : e.PlaceFree) :
    Uniform fun _ => g.parser e := by
  refine .limit (fun n _ => e.toParser (g.rule n)) (fun n => ?_) fun src input => ?_
  · exact Expr.toParser_uniform (rule_uniform hg n) he
  · refine ⟨g.depth src, fun m hm => ?_⟩
    rw [parser, g.rule_eq_of_depth_le hm]

end Grammar

/-! ## Text in front of a source -/

/-- The outcomes are of one kind and agree, except that all places of the second lie `n` bytes
further on. -/
def Outcome.ShiftedBy (n : Nat) :
    Outcome src (Success src α) → Outcome src' (Success src' α) → Prop
  | success s, success s' => s'.value = s.value ∧ s'.matched = s.matched ∧
      s'.start.cursor = n + s.start.cursor ∧ s'.next.cursor = n + s.next.cursor
  | failure f, failure f' =>
      f'.expected = f.expected ∧ f'.fatal = f.fatal ∧ f'.cursor = n + f.cursor
  | undecided, undecided => True
  | _, _ => False

theorem Translation.shiftedBy_outcome (T : Translation src src')
    (o : Outcome src (Success src α)) : o.ShiftedBy T.distance (T.outcome T.success o) := by
  cases o with
  | success s => exact ⟨rfl, rfl, rfl, rfl⟩
  | failure f => exact ⟨rfl, rfl, rfl⟩
  | undecided => trivial

/-- **Translation invariance.** Parsers that do not observe where they are give the same outcome on
`v` and on `v` with `u` in front of it, except that all places lie further on by the bytes of
`u`. -/
theorem Uniform.translation_invariant {p : Family α} (h : Uniform p) (u v : Text) (id id' : Nat)
    (input : Stream ⟨id, v⟩) (input' : Stream ⟨id', u ++ v⟩)
    (hinput : input'.cursor = byteLength u + input.cursor) :
    (p _ input).ShiftedBy (byteLength u) (p _ input') := by
  let T : Translation ⟨id, v⟩ ⟨id', u ++ v⟩ := ⟨u, rfl⟩
  rw [T.eq_stream_of_cursor_eq hinput, T.carries_of_uniform h input]
  exact T.shiftedBy_outcome _

/-- Nested brackets at the beginning of a source, and after a character of two bytes. -/
theorem translation_invariant_nested_brackets :
    let g : Grammar := ⟨[("nest", .between (.char '(') (.optional (.rule "nest")) (.char ')'))]⟩
    let v : Text := ['(', '(', ')', ')']
    let input : Stream ⟨0, v⟩ := .first _
    let input' : Stream ⟨1, ['é'] ++ v⟩ := ⟨['é'], v, 2, rfl, rfl⟩
    ∃ s s', g.parser (.rule "nest") input = .success s ∧
      g.parser (.rule "nest") input' = .success s' ∧ s.next.cursor = 4 ∧
      s'.value = s.value ∧ s'.matched = s.matched ∧ s'.next.cursor = 2 + s.next.cursor := by
  intro g v input input'
  have hrules : ∀ r ∈ g.rules, r.2.PlaceFree := by
    intro r hr
    obtain rfl := List.mem_singleton.1 hr
    simp [Expr.PlaceFree, Expr.parts_eq, Expr.children, Expr.observesPlace]
  have hrule : (Expr.rule "nest").PlaceFree := by
    simp [Expr.PlaceFree, Expr.parts_eq, Expr.children, Expr.observesPlace]
  have hparse : g.parser (.rule "nest") input =
      .success ⟨.present .absent, input, ⟨[')', ')', '(', '('], [], 4, rfl, rfl⟩, v⟩ := rfl
  have hshifted := (Grammar.parser_uniform hrules hrule).translation_invariant ['é'] v 0 1 input
    input' rfl
  rw [hparse] at hshifted
  rcases hparse' : g.parser (.rule "nest") input' with s' | f' | _
  · rw [hparse'] at hshifted
    obtain ⟨hvalue, hmatched, -, hnext⟩ := hshifted
    exact ⟨_, s', hparse, rfl, rfl, hvalue, hmatched, hnext⟩
  · rw [hparse'] at hshifted
    exact hshifted.elim
  · rw [hparse'] at hshifted
    exact hshifted.elim

end Descent
