import Descent.Grammar.Meaning
import Descent.Proofs.Built

/-!
# Expressions inside expressions

Every expression has `children`, the expressions it is directly made of, also those inside its
continuation or its steps.  Properties of all expressions are proved by `Expr.childInduction`: the
case of an expression may assume the property of its children.  The `parts` of an expression are all
expressions inside it, and `Grammar.parts g e` those inside `e` or a rule of `g`.

With these, the parsers of grammars are built parsers: `Grammar.parser_built`.
-/

namespace Descent

variable {src : Source} {π : Type}

/-- The parsers that a sequence may go on with. -/
def Continuation.parsers : Continuation π → List π
  | pair p | times p => [p]
  | start | same => []
  | switch cases otherwise => otherwise :: cases.map Prod.snd

/-- The parsers that a step may run. -/
def Step.parsers : Step π → List π
  | run p _ | attempt p _ => [p]
  | _ => []

namespace Expr

/-- The expressions that an expression is directly made of. -/
def children : Expr → List Expr
  | map _ e | label _ e | cut e | many e | many1 e | collect e | collect1 e => [e]
  | withDefault e | optional e | textOf e | peek e | rewind e => [e]
  | cutAfter e e' | orElse e e' | andThen e e' | sepBy e e' | sepBy1 e e' => [e, e']
  | between opening e closing => [opening, e, closing]
  | choice es | sequence _ es | concat es => es
  | bind first next => first :: next.parsers
  | program steps _ => steps.flatMap Step.parsers
  | _ => []

theorem sizeOf_lt_of_mem_parsers {c : Expr} {next : Continuation Expr} (h : c ∈ next.parsers) :
    sizeOf c < sizeOf next := by
  cases next with
  | pair p | times p =>
    obtain rfl : c = p := List.mem_singleton.1 h
    simp
  | start | same => cases h
  | switch cases otherwise =>
    rcases List.mem_cons.1 h with rfl | h
    · simp only [Continuation.switch.sizeOf_spec]
      omega
    · obtain ⟨⟨t, d⟩, hd, rfl⟩ := List.mem_map.1 h
      have hlt := List.sizeOf_lt_of_mem hd
      simp only [Continuation.switch.sizeOf_spec, Prod.mk.sizeOf_spec] at hlt ⊢
      omega

theorem sizeOf_lt_of_mem_steps {c : Expr} {steps : List (Step Expr)}
    (h : c ∈ steps.flatMap Step.parsers) : sizeOf c < sizeOf steps := by
  obtain ⟨step, hstep, hc⟩ := List.mem_flatMap.1 h
  have hlt := List.sizeOf_lt_of_mem hstep
  cases step with
  | run p target | attempt p target =>
    obtain rfl : c = p := List.mem_singleton.1 hc
    simp only [Step.run.sizeOf_spec, Step.attempt.sizeOf_spec] at hlt
    omega
  | same | position | failIfLonger | failUnlessSame | fail => cases hc

theorem sizeOf_lt_of_mem_children {c e : Expr} (h : c ∈ e.children) : sizeOf c < sizeOf e := by
  cases e
  case bind first next =>
    rcases List.mem_cons.1 h with rfl | h
    · simp only [bind.sizeOf_spec]
      omega
    · have := sizeOf_lt_of_mem_parsers h
      simp only [bind.sizeOf_spec]
      omega
  case program steps result =>
    have := sizeOf_lt_of_mem_steps h
    simp only [program.sizeOf_spec]
    omega
  case choice es =>
    have : sizeOf c < sizeOf es := List.sizeOf_lt_of_mem h
    simp only [choice.sizeOf_spec]
    omega
  case sequence empty es =>
    have : sizeOf c < sizeOf es := List.sizeOf_lt_of_mem h
    simp only [sequence.sizeOf_spec]
    omega
  case concat es =>
    have : sizeOf c < sizeOf es := List.sizeOf_lt_of_mem h
    simp only [concat.sizeOf_spec]
    omega
  all_goals simp only [children, List.mem_cons, List.not_mem_nil, or_false] at h
  -- What is left has between one and three children, each named in `h`.
  all_goals grind

/-- Induction on expressions: the case of an expression may assume the property of its children. -/
@[elab_as_elim]
theorem childInduction {motive : Expr → Prop}
    (step : ∀ e, (∀ c ∈ e.children, motive c) → motive e) (e : Expr) : motive e :=
  step e fun c hc =>
    have := sizeOf_lt_of_mem_children hc
    childInduction step c
termination_by sizeOf e

/-! ## Parts -/

/-- An expression and all expressions that stand somewhere inside it. -/
def parts (e : Expr) : List Expr := e :: e.children.attach.flatMap fun c => c.1.parts
termination_by sizeOf e
decreasing_by exact sizeOf_lt_of_mem_children c.2

theorem parts_eq (e : Expr) : e.parts = e :: e.children.flatMap parts := by
  rw [parts, List.flatMap_subtype (g := parts) fun _ _ => rfl, List.unattach_attach]

theorem mem_parts_self (e : Expr) : e ∈ e.parts := by
  rw [parts_eq]
  exact List.mem_cons_self

theorem mem_parts_of_child {c d e : Expr} (hc : c ∈ e.children) (hd : d ∈ c.parts) :
    d ∈ e.parts := by
  rw [parts_eq]
  exact List.mem_cons_of_mem _ (List.mem_flatMap.2 ⟨c, hc, hd⟩)

/-- The features that an expression uses itself, apart from those its children use. -/
def features : Expr → List Feature
  | succeed _ [] => []
  | succeed _ (_ :: _) => [.injection]
  | cut _ | cutAfter _ _ => [.cut]
  | peek _ | rewind _ => [.jump]
  | _ => []

/-- An expression in which no features but the `allowed` ones are used. -/
def Uses (allowed : List Feature) (e : Expr) : Prop := ∀ d ∈ e.parts, d.features ⊆ allowed

theorem Uses.child {allowed : List Feature} {c e : Expr} (he : e.Uses allowed)
    (hc : c ∈ e.children) : c.Uses allowed :=
  fun d hd => he d (mem_parts_of_child hc hd)

end Expr

/-- The parts of an expression and of the rules of a grammar. -/
def Grammar.parts (g : Grammar) (e : Expr) : List Expr :=
  e.parts ++ g.rules.flatMap fun r => r.2.parts

/-! ## Grammars are built -/

theorem Step.madeOf_perform {S : (α : Type) → Parser src α → Prop}
    (hliteral : ∀ t, S Text (Parser.literal t)) {step : Step (Parser src Value)}
    (h : ∀ p ∈ step.parsers, S Value p) (vars : Bindings) : (step.perform vars).MadeOf S := by
  cases step with
  | run p target => exact .bind (.run (h p List.mem_cons_self)) fun _ => .pure _
  | attempt p target => exact .bind (.attempt (h p List.mem_cons_self)) fun _ => .pure _
  | same var => exact .bind (.run (hliteral _)) fun _ => .pure _
  | position target => exact .bind .position fun _ => .pure _
  | failIfLonger var limit => exact .ite .fail (.pure _)
  | failUnlessSame var other => exact .ite (.pure _) .fail
  | fail => exact .fail

theorem Step.madeOf_performAll {S : (α : Type) → Parser src α → Prop}
    (hliteral : ∀ t, S Text (Parser.literal t)) {steps : List (Step (Parser src Value))}
    (h : ∀ p ∈ steps.flatMap Step.parsers, S Value p) (vars : Bindings) :
    (Step.performAll vars steps).MadeOf S := by
  induction steps generalizing vars with
  | nil => exact .pure _
  | cons step steps ih =>
    simp only [List.flatMap_cons, List.mem_append] at h
    exact .bind (madeOf_perform hliteral (fun p hp => h p (.inl hp)) vars) fun vars =>
      ih (fun p hp => h p (.inr hp)) vars

theorem Parser.ofSteps_built {allowed : List Feature} {steps : List (Step (Parser src Value))}
    (h : ∀ p ∈ steps.flatMap Step.parsers, Built allowed p) (result : List String) :
    Built allowed (Parser.ofSteps steps result) := by
  refine .program (fun _ p => Built allowed p) (fun _ _ hp => hp) ?_
  exact .bind (Step.madeOf_performAll .literal h .empty) fun _ => .pure _

theorem mem_of_lookup_eq_some {κ ν : Type} [BEq κ] [LawfulBEq κ] {table : List (κ × ν)} {k : κ}
    {v : ν} (h : table.lookup k = some v) : (k, v) ∈ table := by
  obtain ⟨before, after, rfl, -⟩ := List.lookup_eq_some_iff.1 h
  simp

theorem Continuation.resume_built {allowed : List Feature}
    {next : Continuation (Parser src Value)} (h : ∀ p ∈ next.parsers, Built allowed p)
    (v : Value) (start : Stream src) : Built allowed (next.resume v start) := by
  cases next with
  | pair p => exact .map _ (h p List.mem_cons_self)
  | start => exact .succeed _
  | same => exact .map _ (.literal _)
  | times p =>
    refine .sequence _ fun q hq => ?_
    obtain rfl := List.eq_of_mem_replicate hq
    exact h q List.mem_cons_self
  | switch cases otherwise =>
    show Built allowed ((cases.lookup v.text).getD otherwise)
    rcases hl : cases.lookup v.text with _ | p
    · exact h otherwise List.mem_cons_self
    · exact h p (List.mem_cons_of_mem _ (List.mem_map.2 ⟨_, mem_of_lookup_eq_some hl, rfl⟩))

namespace Expr

variable (rules : String → Parser src Value)

theorem parsers_toStep (step : Step Expr) :
    (toStep rules step).parsers = step.parsers.map (toParser rules) := by
  cases step <;> rfl

theorem parsers_toSteps (steps : List (Step Expr)) :
    (toSteps rules steps).flatMap Step.parsers =
      (steps.flatMap Step.parsers).map (toParser rules) := by
  rw [toSteps_eq_map, List.flatMap_map, List.map_flatMap]
  simp only [parsers_toStep]

theorem parsers_toContinuation (next : Continuation Expr) :
    (toContinuation rules next).parsers = next.parsers.map (toParser rules) := by
  cases next with
  | switch cases otherwise =>
    simp [toContinuation, Continuation.parsers, toCases_eq_map]
  | _ => rfl

variable {rules} {allowed : List Feature}

/-- An expression stands for a built parser if the rules it refers to are built parsers. -/
theorem toParser_built (hrules : ∀ name, Built allowed (rules name)) {e : Expr}
    (he : e.Uses allowed) : Built allowed (e.toParser rules) := by
  induction e using childInduction with
  | step e ih =>
    have hfeatures : e.features ⊆ allowed := he e (mem_parts_self e)
    have hchild : ∀ c ∈ e.children, Built allowed (c.toParser rules) :=
      fun c hc => ih c hc (he.child hc)
    have hlist : ∀ es : List Expr, (∀ c ∈ es, Built allowed (c.toParser rules)) →
        ∀ p ∈ toParsers rules es, Built allowed p := by
      intro es hes p hp
      rw [toParsers_eq_map] at hp
      obtain ⟨c, hc, rfl⟩ := List.mem_map.1 hp
      exact hes c hc
    clear ih he
    cases e with
    | item => exact Built.item.map _
    | ofClass k => exact (Built.ofClass k).map _
    | notOfClass k => exact (Built.notOfClass k).map _
    | char c => exact (Built.char c).map _
    | notChar c => exact (Built.notChar c).map _
    | satisfy test => exact (Built.satisfy _).map _
    | spaces => exact Built.spaces.map _
    | spaces1 => exact Built.spaces1.map _
    | notSpaces => exact Built.notSpaces.map _
    | notSpaces1 => exact Built.notSpaces1.map _
    | literal t => exact (Built.literal t).map _
    | integer => exact Built.integer.map _
    | number => exact Built.number.map _
    | quoted => exact Built.quoted.map _
    | endOfInput => exact Built.endOfInput.map _
    | succeed v matched =>
      cases matched with
      | nil => exact .succeed v
      | cons c t => exact .succeedWith (hfeatures List.mem_cons_self) v _
    | default k => exact .succeed _
    | fail k => exact .fail
    | map f e => exact .map _ (hchild e List.mem_cons_self)
    | label description e => exact .label _ (hchild e List.mem_cons_self)
    | cut e => exact .cut (hfeatures List.mem_cons_self) (hchild e List.mem_cons_self)
    | cutAfter guard rest =>
      exact .cutAfter (hfeatures List.mem_cons_self) (hchild guard (by simp [children]))
        (hchild rest (by simp [children]))
    | orElse left right =>
      exact .orElse (hchild left (by simp [children])) (hchild right (by simp [children]))
    | choice es => exact .choice (hlist es hchild)
    | andThen first second =>
      exact .andThen (hchild first (by simp [children])) (hchild second (by simp [children]))
    | bind first next =>
      refine .bind (hchild first List.mem_cons_self) (Continuation.resume_built fun p hp => ?_)
      rw [parsers_toContinuation] at hp
      obtain ⟨c, hc, rfl⟩ := List.mem_map.1 hp
      exact hchild c (List.mem_cons_of_mem _ hc)
    | sequence empty es => exact .sequence _ (hlist es hchild)
    | concat es => exact .map _ (.concat (hlist es hchild))
    | many e => exact .map _ (hchild e List.mem_cons_self).many
    | many1 e => exact .map _ (hchild e List.mem_cons_self).many1
    | collect e => exact .map _ (hchild e List.mem_cons_self).collect
    | collect1 e => exact .map _ (hchild e List.mem_cons_self).collect1
    | sepBy e separator =>
      exact .map _ (.sepBy (hchild e (by simp [children])) (hchild separator (by simp [children])))
    | sepBy1 e separator =>
      exact .map _ (.sepBy1 (hchild e (by simp [children])) (hchild separator (by simp [children])))
    | between opening e closing =>
      exact .between (hchild opening (by simp [children])) (hchild e (by simp [children]))
        (hchild closing (by simp [children]))
    | withDefault e => exact .withDefault _ (hchild e List.mem_cons_self)
    | optional e => exact .map _ (hchild e List.mem_cons_self).optional
    | textOf e => exact .map _ (hchild e List.mem_cons_self).textOf
    | program steps result =>
      refine Parser.ofSteps_built (fun p hp => ?_) result
      rw [parsers_toSteps] at hp
      obtain ⟨c, hc, rfl⟩ := List.mem_map.1 hp
      exact hchild c hc
    | rule name => exact hrules name
    | peek e => exact .peek (hfeatures List.mem_cons_self) (hchild e List.mem_cons_self)
    | rewind e => exact .rewind (hfeatures List.mem_cons_self) (hchild e List.mem_cons_self)

end Expr

namespace Grammar

variable {g : Grammar} {allowed : List Feature}

theorem rule_built (hg : ∀ r ∈ g.rules, r.2.Uses allowed) (depth : Nat) (name : String) :
    Built allowed (g.rule depth name : Parser src Value) := by
  induction depth generalizing name with
  | zero => exact .undecided
  | succ depth ih =>
    rcases h : g.rules.lookup name with _ | e
    · rw [rule, h]
      exact .fail
    · rw [rule_succ_of_lookup h]
      exact Expr.toParser_built ih (hg _ (mem_of_lookup_eq_some h))

/-- A grammar stands for built parsers, however far its rules refer to each other. -/
theorem parser_built (hg : ∀ r ∈ g.rules, r.2.Uses allowed) {e : Expr} (he : e.Uses allowed) :
    Built allowed (g.parser e : Parser src Value) :=
  Expr.toParser_built (rule_built hg _) he

end Grammar

end Descent
