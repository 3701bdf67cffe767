import Mathlib.Data.Fintype.Order
import Descent.Proofs.Guarded
import Descent.Proofs.Recognition
import Descent.Proofs.Sequencing

/-!
# Recursive grammars come to an end

`Expr.inOrder` lists what an expression is made of, each part with what has succeeded when it is
run, and `Expr.Exposes` says that an expression refers to a rule although nothing that was run
before the reference is sure to have read something.  An expression that exposes rules of `below`
only stands for a parser that is guarded (`Expr.toParser_guarded`); so a grammar comes to an end
everywhere if its rules can be ranked so that each exposes only rules of smaller rank.
-/

namespace Descent

variable {src : Source} {α : Type}

/-! ## Parts in sequence order -/

/-- The members of a list in order, each with those before it; `before` comes before the list. -/
def stages {ι : Type} (before : List ι) : List ι → List (List ι × ι)
  | [] => []
  | i :: is => (before, i) :: stages (before ++ [i]) is

theorem subset_and_mem_of_mem_stages {ι : Type} {before earlier is : List ι} {i : ι}
    (h : (earlier, i) ∈ stages before is) : before ⊆ earlier ∧ i ∈ is := by
  induction is generalizing before with
  | nil => cases h
  | cons j js ih =>
    rcases List.mem_cons.1 h with heq | h
    · obtain ⟨rfl, rfl⟩ := Prod.mk.inj heq
      exact ⟨fun _ hk => hk, List.mem_cons_self⟩
    · obtain ⟨hsubset, hmem⟩ := ih h
      exact ⟨fun k hk => hsubset (List.mem_append_left _ hk), List.mem_cons_of_mem _ hmem⟩

/-- The parsers that have succeeded when a program goes on after the step. -/
def Step.required {π : Type} : Step π → List π
  | run p _ => [p]
  | _ => []

namespace Expr

/-- The expressions that an expression is directly made of, each with those that have succeeded when
it is run.  What a program only attempts does not have to succeed for the program to go on. -/
def inOrder : Expr → List (List Expr × Expr)
  | cutAfter e e' | andThen e e' | sepBy e e' | sepBy1 e e' => [([], e), ([e], e')]
  | between opening e closing => [([], opening), ([opening], e), ([opening, e], closing)]
  | bind first next => ([], first) :: next.parsers.map fun e => ([first], e)
  | sequence _ es | concat es => stages [] es
  | program steps _ => (stages [] steps).flatMap fun stage =>
      stage.2.parsers.map fun e => (stage.1.flatMap Step.required, e)
  | e => e.children.map fun c => ([], c)

theorem mem_children_of_mem_inOrder {before : List Expr} {c e : Expr}
    (h : (before, c) ∈ e.inOrder) : c ∈ e.children := by
  cases e
  case bind first next =>
    rcases List.mem_cons.1 h with heq | h
    · obtain ⟨-, rfl⟩ := Prod.mk.inj heq
      exact List.mem_cons_self
    · obtain ⟨d, hd, heq⟩ := List.mem_map.1 h
      obtain ⟨-, rfl⟩ := Prod.mk.inj heq
      exact List.mem_cons_of_mem _ hd
  case sequence => exact (subset_and_mem_of_mem_stages h).2
  case concat => exact (subset_and_mem_of_mem_stages h).2
  case program steps result =>
    obtain ⟨⟨earlier, step⟩, hstage, hc⟩ := List.mem_flatMap.1 h
    obtain ⟨d, hd, heq⟩ := List.mem_map.1 hc
    obtain ⟨-, rfl⟩ := Prod.mk.inj heq
    exact List.mem_flatMap.2 ⟨step, (subset_and_mem_of_mem_stages hstage).2, hd⟩
  case cutAfter | andThen | sepBy | sepBy1 | between =>
    simp only [inOrder, children, List.mem_cons, List.not_mem_nil, or_false, Prod.mk.injEq] at h ⊢
    grind
  -- In all others the children are run at the input.
  all_goals
    obtain ⟨d, hd, heq⟩ := List.mem_map.1 h
    obtain ⟨-, rfl⟩ := Prod.mk.inj heq
    exact hd

/-- The expression refers to the rule, and no expression that is run before the reference is one
that `consumes`. -/
inductive Exposes (consumes : Expr → Prop) : Expr → String → Prop where
  | rule (name : String) : Exposes consumes (.rule name) name
  | part {before : List Expr} {c e : Expr} {name : String} : (before, c) ∈ e.inOrder →
      (∀ b ∈ before, ¬ consumes b) → Exposes consumes c name → Exposes consumes e name

theorem Exposes.mem_parts {consumes : Expr → Prop} {e : Expr} {name : String}
    (h : e.Exposes consumes name) : .rule name ∈ e.parts := by
  induction h with
  | rule name => exact mem_parts_self _
  | part hc _ _ ih => exact mem_parts_of_child (mem_children_of_mem_inOrder hc) ih

/-! ## Expressions are guarded -/

/-- The rules that may be referred to when the expressions `before` have succeeded. -/
def allowedAfter (consumes : Expr → Prop) (below : String → Prop) (before : List Expr)
    (name : String) : Prop :=
  below name ∨ ∃ b ∈ before, consumes b

variable {R : Recursion src fun _ : String => Value} {consumes : Expr → Prop}
    {below : String → Prop}
  {before : List Expr}

theorem allowedAfter_nil (consumes : Expr → Prop) (below : String → Prop) :
    allowedAfter consumes below [] = below := by
  funext name
  simp [allowedAfter]

theorem allowedAfter.mono {after : List Expr} (h : before ⊆ after) (name : String)
    (hname : allowedAfter consumes below before name) : allowedAfter consumes below after name :=
  hname.imp id fun ⟨b, hb, hconsumes⟩ => ⟨b, h hb, hconsumes⟩

theorem allowedAfter.last {c : Expr} (name : String)
    (hname : allowedAfter consumes below (before ++ [c]) name) :
    allowedAfter consumes below before name ∨ consumes c := by
  rcases hname with hbelow | ⟨b, hb, hconsumes⟩
  · exact .inl (.inl hbelow)
  · rcases List.mem_append.1 hb with hb | hb
    · exact .inl (.inr ⟨b, hb, hconsumes⟩)
    · obtain rfl := List.mem_singleton.1 hb
      exact .inr hconsumes

/-- The expression is guarded where the expressions `before` have succeeded. -/
abbrev GuardedAfter (R : Recursion src fun _ : String => Value) (consumes : Expr → Prop)
    (below : String → Prop) (before : List Expr) (e : Expr) : Prop :=
  Guarded R (allowedAfter consumes below before) fun rules => e.toParser rules

section Guarded

variable (hconsumes : ∀ c, consumes c → Body.Consumes R fun rules => c.toParser rules)

include hconsumes

/-- What is guarded after one more expression can follow it. -/
theorem guarded_after {c : Expr} {p : Body src (fun _ : String => Value) α}
    (h : Guarded R (allowedAfter consumes below (before ++ [c])) p) :
    Guarded R (fun name => allowedAfter consumes below before name ∨
      Body.Consumes R fun rules => c.toParser rules) p :=
  .weaken (fun _ hname => hname.last.imp id (hconsumes c)) h

theorem guarded_values {es : List Expr}
    (h : ∀ stage ∈ stages before es, GuardedAfter R consumes below stage.1 stage.2) :
    Guarded R (allowedAfter consumes below before) fun rules =>
      Parser.values (es.map (toParser rules)) := by
  refine .program (fun below _ p => Guarded R below p) (fun _ _ _ hp => hp) ?_
  induction es generalizing before with
  | nil =>
    simp only [List.map_nil, List.mapM_nil]
    exact .pure []
  | cons e es ih =>
    simp only [List.map_cons, List.mapM_cons]
    refine .bind (.run (h (before, e) List.mem_cons_self)) fun v => ?_
    refine .weaken (fun name hname => ?_)
      (.bind (ih fun stage hstage => h stage (List.mem_cons_of_mem _ hstage))
        fun vs => .pure (v :: vs))
    exact hname.last.imp id fun he => (hconsumes e he).run

theorem guarded_sequence {es : List Expr}
    (h : ∀ stage ∈ stages before es, GuardedAfter R consumes below stage.1 stage.2)
    (empty : Value) :
    Guarded R (allowedAfter consumes below before) fun rules =>
      Parser.sequence empty (es.map (toParser rules)) := by
  simp only [Parser.sequence_eq_values]
  exact .map _ (guarded_values hconsumes h)

theorem guarded_resume {first : Expr} {next : Continuation Expr}
    (h : ∀ c ∈ next.parsers, GuardedAfter R consumes below [first] c) (v : Value)
    (start : Stream src) :
    Guarded R (allowedAfter consumes below [first]) fun rules =>
      (toContinuation rules next).resume v start := by
  cases next with
  | pair c => exact .map _ (h c List.mem_cons_self)
  | start => exact .closed (Parser.ends_succeedWith _ _) (Built.succeed _).forward
  | same => exact .closed ((Parser.ends_literal _).map _) (Built.map _ (.literal _)).forward
  | times c =>
    have hcopies : ∀ stage ∈ stages [first] (List.replicate v.repetitions c),
        GuardedAfter R consumes below stage.1 stage.2 := by
      intro stage hstage
      obtain ⟨hsubset, hmem⟩ := subset_and_mem_of_mem_stages hstage
      rw [List.eq_of_mem_replicate hmem]
      exact .weaken (fun _ hname => hname.mono hsubset) (h c List.mem_cons_self)
    have hsequence := guarded_sequence hconsumes hcopies .null
    simp only [List.map_replicate] at hsequence
    exact hsequence
  | switch cases otherwise =>
    simp only [toContinuation, Continuation.resume, lookup_toCases]
    rcases hl : cases.lookup v.text with _ | c
    · exact h otherwise List.mem_cons_self
    · exact h c (List.mem_cons_of_mem _ (List.mem_map.2 ⟨_, mem_of_lookup_eq_some hl, rfl⟩))

theorem guarded_sepBy1 {e separator : Expr} (he : GuardedAfter R consumes below [] e)
    (hseparator : GuardedAfter R consumes below [e] separator) :
    Guarded R (allowedAfter consumes below []) fun rules =>
      (e.toParser rules).sepBy1 (separator.toParser rules) := by
  have hround : Guarded R (allowedAfter consumes below [e]) fun rules =>
      (separator.toParser rules).andThen (e.toParser rules) := by
    refine .andThen hseparator (.weaken (fun name hname => .inl ?_) he)
    exact hname.mono (List.nil_subset _)
  exact .bind he fun _ _ => guarded_after hconsumes (.map _ (.repeated 0 hround))

/-! ## Programs -/

omit hconsumes in
theorem guarded_perform {step : Step Expr}
    (h : ∀ c ∈ step.parsers, GuardedAfter R consumes below before c) (vars : Bindings) :
    StepsBody.GuardedOver R (fun below _ p => Guarded R below p)
      (allowedAfter consumes below before)
      fun rules => (toStep rules step).perform vars := by
  cases step with
  | run c target => exact .bind (.run (h c List.mem_cons_self)) fun _ => .pure _
  | attempt c target => exact .bind (.attempt (h c List.mem_cons_self)) fun _ => .pure _
  | same var =>
    refine .bind (.run (.closed (Parser.ends_literal _) ?_)) fun _ => .pure vars
    exact (Built.literal _).forward
  | position target => exact .bind .position fun _ => .pure _
  | failIfLonger var limit => exact .ite .fail (.pure vars)
  | failUnlessSame var other => exact .ite (.pure vars) .fail
  | fail => exact .fail

/-- What a program may refer to after a step. -/
theorem allowedAfter_step {done : List (Step Expr)} {step : Step Expr} (vars : Bindings)
    (name : String)
    (hname : allowedAfter consumes below ((done ++ [step]).flatMap Step.required) name) :
    allowedAfter consumes below (done.flatMap Step.required) name ∨
      StepsBody.Consumes R fun rules => (toStep rules step).perform vars := by
  rw [List.flatMap_append, List.flatMap_singleton] at hname
  cases step with
  | run c target =>
    refine hname.last.imp id fun hc depth progress => ?_
    show (Steps.result (Steps.run (c.toParser (R.rule depth)) >>= _) progress).Ensures _ _
    rw [Steps.result_bind]
    exact ((hconsumes c hc).run depth progress).bind fun _ hr => hr
  | attempt | same | position | failIfLonger | failUnlessSame | fail =>
    simp only [Step.required, List.append_nil] at hname
    exact .inl hname

theorem guarded_performAll (done : List (Step Expr)) {steps : List (Step Expr)}
    (h : ∀ stage ∈ stages done steps, ∀ c ∈ stage.2.parsers,
      GuardedAfter R consumes below (stage.1.flatMap Step.required) c)
    (vars : Bindings) :
    StepsBody.GuardedOver R (fun below _ p => Guarded R below p)
      (allowedAfter consumes below (done.flatMap Step.required))
      fun rules => Step.performAll vars (toSteps rules steps) := by
  induction steps generalizing done vars with
  | nil => exact .pure vars
  | cons step steps ih =>
    refine .bind (guarded_perform (h (done, step) List.mem_cons_self) vars) fun vars' => ?_
    refine .weaken (allowedAfter_step hconsumes vars)
      (ih (done ++ [step]) (fun stage hstage => ?_) vars')
    exact h stage (List.mem_cons_of_mem _ hstage)

/-! ## All expressions -/

/-- An expression that exposes rules of `below` only is guarded. -/
theorem toParser_guarded {allowed : List Feature} (hjump : .jump ∉ allowed) {e : Expr}
    (he : e.Uses allowed) (hexposed : ∀ name, e.Exposes consumes name → below name) :
    Guarded R below fun rules => e.toParser rules := by
  induction e using childInduction generalizing below with
  | step e ih =>
    -- Where something was read before a part, it may refer to any rule; where nothing was, it
    -- exposes no more than the whole.
    have hpart : ∀ stage ∈ e.inOrder, GuardedAfter R consumes below stage.1 stage.2 := by
      rintro ⟨before, c⟩ hc
      have hchild : c ∈ e.children := mem_children_of_mem_inOrder hc
      refine ih c hchild (he.child hchild) fun name hname => ?_
      by_cases hbefore : ∃ b ∈ before, consumes b
      · exact .inr hbefore
      · exact .inl (hexposed name (.part hc (fun b hb hb' => hbefore ⟨b, hb, hb'⟩) hname))
    have hfirst : ∀ c, ([], c) ∈ e.inOrder → GuardedAfter R consumes below [] c :=
      fun c hc => hpart _ hc
    rw [← allowedAfter_nil consumes below]
    clear ih
    cases e with
    | item => exact .closed ((Parser.ends_satisfy _).map _) (Built.map _ .item).forward
    | ofClass k => exact .closed ((Parser.ends_ofClass k).map _) (Built.map _ (.ofClass k)).forward
    | notOfClass k =>
      exact .closed (((Parser.ends_satisfy _).label _).map _) (Built.map _ (.notOfClass k)).forward
    | char c => exact .closed ((Parser.ends_char c).map _) (Built.map _ (.char c)).forward
    | notChar c =>
      exact .closed (((Parser.ends_satisfy _).label _).map _) (Built.map _ (.notChar c)).forward
    | satisfy test =>
      exact .closed ((Parser.ends_satisfy _).map _) (Built.map _ (.satisfy _)).forward
    | spaces => exact .closed ((Parser.ends_ofClass _).many.map _) (Built.map _ .spaces).forward
    | spaces1 =>
      exact .closed (((Parser.ends_ofClass _).many1.label _).map _) (Built.map _ .spaces1).forward
    | notSpaces =>
      exact .closed ((Parser.ends_satisfy _).many.map _) (Built.map _ .notSpaces).forward
    | notSpaces1 =>
      exact .closed (((Parser.ends_satisfy _).many1.label _).map _)
        (Built.map _ .notSpaces1).forward
    | literal t => exact .closed ((Parser.ends_literal t).map _) (Built.map _ (.literal t)).forward
    | integer => exact .closed (Parser.ends_integer.map _) (Built.map _ .integer).forward
    | number => exact .closed (Parser.ends_number.map _) (Built.map _ .number).forward
    | quoted => exact .closed (Parser.ends_quoted.map _) (Built.map _ .quoted).forward
    | endOfInput => exact .closed (Parser.ends_endOfInput.map _) (Built.map _ .endOfInput).forward
    | succeed v matched => exact .closed (Parser.ends_succeedWith v matched) fun _ => Nat.le_refl _
    | default k => exact .closed (Parser.ends_succeedWith _ _) (Built.succeed _).forward
    | fail k => exact .closed Parser.ends_fail Built.fail.forward
    | map f e => exact .map _ (hfirst e List.mem_cons_self)
    | label description e => exact .label _ (hfirst e List.mem_cons_self)
    | cut e => exact .cut (hfirst e List.mem_cons_self)
    | cutAfter guard rest =>
      have hrest := hpart ([guard], rest) (by simp [inOrder])
      exact .andThen (hfirst guard (by simp [inOrder])) (.cut (guarded_after hconsumes hrest))
    | orElse left right =>
      exact .orElse (hfirst left (by simp [inOrder, children]))
        (hfirst right (by simp [inOrder, children]))
    | choice es =>
      simp only [toParser, toParsers_eq_map]
      exact .choice fun c hc => hfirst c (List.mem_map.2 ⟨c, hc, rfl⟩)
    | andThen first second =>
      have hsecond := hpart ([first], second) (by simp [inOrder])
      exact .andThen (hfirst first (by simp [inOrder])) (guarded_after hconsumes hsecond)
    | bind first next =>
      refine .bind (hfirst first List.mem_cons_self) fun v start => ?_
      refine guarded_after hconsumes (guarded_resume hconsumes (fun c hc => ?_) v start)
      exact hpart ([first], c) (List.mem_cons_of_mem _ (List.mem_map.2 ⟨c, hc, rfl⟩))
    | sequence empty es =>
      simp only [toParser, toParsers_eq_map]
      exact guarded_sequence hconsumes hpart _
    | concat es =>
      simp only [toParser, toParsers_eq_map, Parser.concat_eq_values]
      exact .map _ (.map _ (guarded_values hconsumes hpart))
    | many e => exact .map _ (.map _ (.repeated 0 (hfirst e List.mem_cons_self)))
    | many1 e => exact .map _ (.map _ (.repeated 1 (hfirst e List.mem_cons_self)))
    | collect e => exact .map _ (.repeated 0 (hfirst e List.mem_cons_self))
    | collect1 e => exact .map _ (.repeated 1 (hfirst e List.mem_cons_self))
    | sepBy e separator =>
      have hlist := guarded_sepBy1 hconsumes (hfirst e (by simp [inOrder]))
        (hpart ([e], separator) (by simp [inOrder]))
      exact .map _ (.withDefault hlist [])
    | sepBy1 e separator =>
      exact .map _ (guarded_sepBy1 hconsumes (hfirst e (by simp [inOrder]))
        (hpart ([e], separator) (by simp [inOrder])))
    | between opening e closing =>
      have hclosing := hpart ([opening, e], closing) (by simp [inOrder])
      have hrest : Guarded R (allowedAfter consumes below [opening]) fun rules =>
          (e.toParser rules).bind fun x _ => (closing.toParser rules).map fun _ => x :=
        .bind (hpart ([opening], e) (by simp [inOrder]))
          fun _ _ => guarded_after hconsumes (.map _ hclosing)
      simp only [toParser, Parser.between_eq_bind]
      exact .bind (hfirst opening (by simp [inOrder])) fun _ _ => guarded_after hconsumes hrest
    | withDefault e => exact .withDefault (hfirst e List.mem_cons_self) _
    | optional e => exact .map _ (.withDefault (.map some (hfirst e List.mem_cons_self)) none)
    | textOf e => exact .map _ (.map _ (hfirst e List.mem_cons_self))
    | program steps result =>
      have hsteps : StepsBody.GuardedOver R (fun below _ p => Guarded R below p)
          (allowedAfter consumes below [])
          fun rules => Step.performAll .empty (toSteps rules steps) := by
        refine guarded_performAll hconsumes [] (fun stage hstage c hc => ?_) .empty
        exact hpart (stage.1.flatMap Step.required, c)
          (List.mem_flatMap.2 ⟨stage, hstage, List.mem_map.2 ⟨c, hc, rfl⟩⟩)
      exact .program (fun below _ p => Guarded R below p) (fun _ _ _ hp => hp)
        (.bind hsteps fun vars => .pure (Value.list (result.map vars)))
    | rule name => exact .rule (.inl (hexposed name (.rule name)))
    | peek e => exact absurd (he _ (mem_parts_self _) List.mem_cons_self) hjump
    | rewind e => exact absurd (he _ (mem_parts_self _) List.mem_cons_self) hjump

end Guarded

end Expr

/-! ## Grammars -/

namespace Grammar

/-- The rules of a grammar as parsers that refer to rules. -/
def recursion (g : Grammar) : Recursion src fun _ : String => Value := fun name rules =>
  match g.rules.lookup name with
  | none => .fail
  | some e => e.toParser rules

theorem recursion_of_lookup_eq_none {g : Grammar} {name : String} (h : g.rules.lookup name = none) :
    (g.recursion name : Body src (fun _ : String => Value) Value) = fun _ => .fail := by
  funext rules
  rw [recursion, h]

theorem recursion_of_lookup {g : Grammar} {name : String} {e : Expr}
    (h : g.rules.lookup name = some e) :
    (g.recursion name : Body src (fun _ : String => Value) Value) =
      fun rules => e.toParser rules := by
  funext rules
  rw [recursion, h]

theorem rule_recursion (g : Grammar) (depth : Nat) :
    (g.recursion : Recursion src fun _ => Value).rule depth = g.rule depth := by
  induction depth with
  | zero => rfl
  | succ depth ih =>
    funext name
    rw [Recursion.rule, ih]
    rcases h : g.rules.lookup name with _ | e
    · rw [recursion_of_lookup_eq_none h, rule, h]
    · rw [recursion_of_lookup h, rule_succ_of_lookup h]

variable {g : Grammar} {rank : String → Nat}

theorem recursion_guarded (huses : ∀ r ∈ g.rules, r.2.Uses [.injection, .cut])
    (hrank : ∀ r ∈ g.rules, ∀ name,
      r.2.Exposes (fun e => (g.parser e : Parser src Value).Advances) name → rank name < rank r.1)
    (name : String) :
    Guarded g.recursion (fun other => rank other < rank name)
      (g.recursion name : Body src (fun _ : String => Value) Value) := by
  rcases h : g.rules.lookup name with _ | e
  · rw [recursion_of_lookup_eq_none h]
    exact .closed Parser.ends_fail Built.fail.forward
  · have hmem : (name, e) ∈ g.rules := mem_of_lookup_eq_some h
    rw [recursion_of_lookup h]
    refine Expr.toParser_guarded (fun c hc depth => ?_) (by decide) (huses _ hmem) (hrank _ hmem)
    rw [rule_recursion]
    exact hc.of_approximates (g.toParser_rule_approximates depth c)

theorem rule_ends (huses : ∀ r ∈ g.rules, r.2.Uses [.injection, .cut])
    (hrank : ∀ r ∈ g.rules, ∀ name,
      r.2.Exposes (fun e => (g.parser e : Parser src Value).Advances) name → rank name < rank r.1)
    (name : String) : (g.parser (.rule name) : Parser src Value).Ends := by
  intro input
  -- Names that are not in the table may have any rank; what matters is the largest rank in the
  -- table.
  obtain ⟨top, htop⟩ := Finite.exists_le fun k : Fin g.rules.length => rank (g.rules.get k).1
  have hcapped : ∀ r ∈ g.rules, ∀ other,
      r.2.Exposes (fun e => (g.parser e : Parser src Value).Advances) other →
        min (rank other) top < min (rank r.1) top := by
    intro r hr other hother
    have hlt := hrank r hr other hother
    obtain ⟨k, rfl⟩ := List.get_of_mem hr
    have hle := htop k
    omega
  have hdecided := Recursion.rule_ne_undecided (recursion_guarded huses hcapped)
    (fun _ => Nat.min_le_right _ _)
    (Nat.lt_succ_self (input.rest.length * (top + 1) + min (rank name) top))
  rw [rule_recursion] at hdecided
  rcases g.toParser_rule_approximates _ (.rule name) input with hundecided | heq
  · exact absurd hundecided hdecided
  · rw [← heq]
    exact hdecided

end Grammar

theorem Recursion.exists_depth {ι : Type} [Finite ι] {τ : ι → Type} {R : Recursion src τ}
    {rank : ι → Nat} (hR : ∀ i, Guarded R (fun j => rank j < rank i) (R i)) :
    ∃ n, ∀ depth, n ≤ depth → ∀ i, (R.rule depth i).Ends ∧ R.rule depth i = R.rule n i := by
  obtain ⟨top, htop⟩ := Finite.exists_le rank
  have hends : ∀ depth, src.text.length * (top + 1) + top < depth → ∀ i, (R.rule depth i).Ends := by
    intro depth hdepth i input
    refine rule_ne_undecided hR htop ?_
    have hrest : input.rest.length ≤ src.text.length := by
      have := input.length_passed_add_length_rest
      omega
    have hmul := Nat.mul_le_mul_right (top + 1) hrest
    have hrank := htop i
    omega
  refine ⟨src.text.length * (top + 1) + top + 1, fun depth hdepth i => ⟨hends depth hdepth i, ?_⟩⟩
  funext input
  exact ((rule_approximates hR hdepth i input).resolve_left
    (hends _ (Nat.lt_succ_self _) i input)).symm

/-- **Recursive rules come to an end.** Let finitely many rules be ranked so that the body of each
refers only to rules of smaller rank as long as no parser has succeeded that can only do so by
reading something.  Then from some depth on all rules succeed or fail at every place, with outcomes
that no longer depend on the depth.  Likewise every rule of a grammar without jumps succeeds or
fails at every place if the rules are ranked so that each exposes only rules of smaller rank. -/
theorem recursive_rules_end (src : Source) :
    (∀ (ι : Type) [Finite ι] (τ : ι → Type) (R : Recursion src τ) (rank : ι → Nat),
      (∀ i, Guarded R (fun j => rank j < rank i) (R i)) →
      ∃ n, ∀ i input, (∃ s, ∀ depth, n ≤ depth → R.rule depth i input = .success s) ∨
        ∃ f, ∀ depth, n ≤ depth → R.rule depth i input = .failure f) ∧
    ∀ (g : Grammar) (rank : String → Nat), (∀ r ∈ g.rules, r.2.Uses [.injection, .cut]) →
      (∀ r ∈ g.rules, ∀ name,
        r.2.Exposes (fun e => (g.parser e : Parser src Value).Advances) name →
        rank name < rank r.1) →
      ∀ name (input : Stream src), (∃ s, g.parser (.rule name) input = .success s) ∨
        ∃ f, g.parser (.rule name) input = .failure f := by
  constructor
  · intro ι _ τ R rank hR
    obtain ⟨n, hn⟩ := Recursion.exists_depth hR
    refine ⟨n, fun i input => ?_⟩
    have hsame : ∀ depth, n ≤ depth → R.rule depth i input = R.rule n i input :=
      fun depth hdepth => congrFun (hn depth hdepth i).2 input
    rcases Outcome.exists_of_ne_undecided ((hn n (Nat.le_refl n) i).1 input) with ⟨s, hs⟩ | ⟨f, hf⟩
    · exact .inl ⟨s, fun depth hdepth => (hsame depth hdepth).trans hs⟩
    · exact .inr ⟨f, fun depth hdepth => (hsame depth hdepth).trans hf⟩
  · intro g rank huses hrank name input
    exact Outcome.exists_of_ne_undecided (Grammar.rule_ends huses hrank name input)

/-- A rule that counts how deep brackets are nested and closes them by that count, and a grammar of
lists that are read by a program, with values in them that may be runs of nothing. -/
theorem recursive_rules_end_nested_lists :
    let src : Source := ⟨0, ['é', '[', '[', '1', ']', '2']⟩
    let nest : Recursion src fun _ : Unit => Nat := fun _ rules =>
      ((Parser.char '[').andThen ((rules ()).bind fun n _ =>
        (Parser.literal (List.replicate (n + 1) ']')).map fun _ => n + 1)).orElse (.succeed 0)
    let value : Expr := .orElse (.rule "list") (.collect (.optional (.ofClass .digit)))
    let list : Expr := .program
      [.run (.char '[') none, .attempt (.rule "value") (some "v"), .run (.char ']') none] ["v"]
    let g : Grammar := ⟨[("value", value), ("list", list)]⟩
    let input : Stream src := ⟨['é'], ['[', '[', '1', ']', '2'], 2, rfl, rfl⟩
    (∃ n, (∃ s, ∀ depth, n ≤ depth → nest.rule depth () input = .success s) ∨
        ∃ f, ∀ depth, n ≤ depth → nest.rule depth () input = .failure f) ∧
      ((∃ s, g.parser (.rule "value") input = .success s) ∨
        ∃ f, g.parser (.rule "value") input = .failure f) := by
  intro src nest value list g input
  obtain ⟨hrecursion, hgrammar⟩ := recursive_rules_end src
  constructor
  · have hbracket : Body.Consumes nest fun _ => Parser.char '[' :=
      fun _ => (Parser.advances_satisfy _).label _
    have hnest : ∀ i : Unit, Guarded nest (fun _ => 0 < 0) (nest i) := by
      intro i
      refine .orElse (.andThen ?_ (.bind (.rule (.inr hbracket)) fun n _ => ?_)) ?_
      · exact .closed (Parser.ends_char '[') (Built.char '[').forward
      · exact .closed ((Parser.ends_literal _).map _) (Built.map _ (.literal _)).forward
      · exact .closed (Parser.ends_succeedWith 0 []) (Built.succeed 0).forward
    obtain ⟨n, hn⟩ := hrecursion Unit _ nest (fun _ => 0) hnest
    exact ⟨n, hn () input⟩
  · have huses : ∀ r ∈ g.rules, r.2.Uses [.injection, .cut] := by
      intro r hr
      rcases List.mem_pair.1 hr with rfl | rfl
      · simp [value, Expr.Uses, Expr.parts_eq, Expr.children, Expr.features]
      · simp [list, Expr.Uses, Expr.parts_eq, Expr.children, Expr.features, Step.parsers]
    have hbracket : (g.parser (.char '[') : Parser src Value).Advances :=
      ((Parser.advances_satisfy _).label _).map _
    have hrank : ∀ r ∈ g.rules, ∀ name,
        r.2.Exposes (fun e => (g.parser e : Parser src Value).Advances) name →
          (if name = "value" then 1 else 0) < if r.1 = "value" then 1 else 0 := by
      intro r hr name hexposed
      rcases List.mem_pair.1 hr with rfl | rfl
      · have hlist : name = "list" := by
          simpa [value, Expr.parts_eq, Expr.children] using hexposed.mem_parts
        rw [hlist]
        decide
      · -- Only one of the steps refers to a rule, and the bracket comes before it.
        cases hexposed with
        | part hc hbefore hc' =>
          simp only [list, Expr.inOrder, Step.parsers, Step.required, stages, List.nil_append,
            List.cons_append, List.flatMap_cons, List.map_cons, List.map_nil, List.flatMap_nil,
            List.append_nil, List.mem_cons, Prod.mk.injEq, List.not_mem_nil, or_false] at hc
          rcases hc with ⟨rfl, rfl⟩ | ⟨rfl, rfl⟩ | ⟨rfl, rfl⟩
          · simpa [Expr.parts_eq, Expr.children] using hc'.mem_parts
          · exact absurd hbracket (hbefore _ List.mem_cons_self)
          · simpa [Expr.parts_eq, Expr.children] using hc'.mem_parts
    exact hgrammar g _ huses hrank "value" input

end Descent
