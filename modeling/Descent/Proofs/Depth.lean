import Mathlib.Data.Finset.Card
import Mathlib.Data.Finset.Prod
import Descent.Proofs.Subexpression

/-!
# How deep rules have to be followed

One outcome approximates another if it is undecided or equal to it.  Every combinator keeps this
relation, so following rules deeper never changes an outcome that is decided
(`Grammar.rule_approximates`).  At each depth at which some rule still changes, some rule becomes
decided at some place for the first time; so from `Grammar.depth` on nothing changes any more
(`Grammar.rule_eq_of_depth_le`), and what any depth decides `Grammar.parser` decides in the same way
(`Grammar.toParser_rule_approximates`).
-/

namespace Descent

variable {src : Source} {α β γ ι : Type}

/-! ## Approximation -/

namespace Outcome

variable {σ τ : Type}

/-- The outcome is undecided, or it is the other outcome. -/
def Approximates (o o' : Outcome src σ) : Prop := o = .undecided ∨ o = o'

theorem Approximates.refl (o : Outcome src σ) : o.Approximates o := .inr rfl

theorem Approximates.trans {o o' o'' : Outcome src σ} (h : o.Approximates o')
    (h' : o'.Approximates o'') : o.Approximates o'' := by
  rcases h with rfl | rfl
  · exact .inl rfl
  · exact h'

theorem Approximates.bind {o o' : Outcome src σ} {next next' : σ → Outcome src τ}
    (h : o.Approximates o') (hnext : ∀ s, (next s).Approximates (next' s)) :
    (o >>= next).Approximates (o' >>= next') := by
  rcases h with rfl | rfl
  · exact .inl rfl
  · cases o with
    | success s => exact hnext s
    | failure f => exact .refl _
    | undecided => exact .refl _

theorem Approximates.mapFailure {o o' : Outcome src σ} (h : o.Approximates o')
    (g : Failure src → Failure src) : (o.mapFailure g).Approximates (o'.mapFailure g) := by
  rcases h with rfl | rfl
  · exact .inl rfl
  · exact .refl _

theorem Approximates.recover {o o' : Outcome src σ} {resume resume' : Failure src → Outcome src σ}
    (h : o.Approximates o') (hresume : ∀ f, (resume f).Approximates (resume' f)) :
    (o.recover resume).Approximates (o'.recover resume') := by
  rcases h with rfl | rfl
  · exact .inl rfl
  · cases o with
    | success s => exact .refl _
    | failure f =>
      by_cases hf : f.fatal = true
      · rw [recover_failure_of_fatal _ hf, recover_failure_of_fatal _ hf]
        exact .refl _
      · rw [recover_failure _ (Bool.eq_false_iff.2 hf), recover_failure _ (Bool.eq_false_iff.2 hf)]
        exact hresume f
    | undecided => exact .refl _

end Outcome

namespace Parser

/-- The outcomes of a parser approximate those of another. -/
def Approximates (p q : Parser src α) : Prop := ∀ input, (p input).Approximates (q input)

theorem Approximates.refl (p : Parser src α) : p.Approximates p := fun _ => .refl _

variable {p p' : Parser src α} {q q' : Parser src β} {r r' : Parser src γ}

theorem Approximates.map (hp : p.Approximates p') (f : α → β) :
    (p.map f).Approximates (p'.map f) := fun input =>
  (hp input).bind fun _ => .refl _

theorem Approximates.label (hp : p.Approximates p') (description : String) :
    (p.label description).Approximates (p'.label description) := fun input =>
  (hp input).mapFailure _

theorem Approximates.cut (hp : p.Approximates p') : p.cut.Approximates p'.cut := fun input =>
  (hp input).mapFailure _

theorem Approximates.peek (hp : p.Approximates p') : p.peek.Approximates p'.peek := fun input =>
  (hp input).bind fun _ => .refl _

theorem Approximates.rewind (hp : p.Approximates p') : p.rewind.Approximates p'.rewind :=
  fun input => (hp input).bind fun _ => .refl _

theorem Approximates.orElse {q q' : Parser src α} (hp : p.Approximates p')
    (hq : q.Approximates q') : (p.orElse q).Approximates (p'.orElse q') := fun input =>
  (hp input).recover fun first => (hq input).mapFailure first.merge

theorem Approximates.bind {next next' : α → Stream src → Parser src β} (hp : p.Approximates p')
    (hnext : ∀ value start, (next value start).Approximates (next' value start)) :
    (p.bind next).Approximates (p'.bind next') := fun input =>
  (hp input).bind fun first => (hnext first.value input first.next).bind fun _ => .refl _

theorem Approximates.andThen (hp : p.Approximates p') (hq : q.Approximates q') :
    (p.andThen q).Approximates (p'.andThen q') :=
  hp.bind fun _ _ => hq

theorem Approximates.between (hp : p.Approximates p') (hq : q.Approximates q')
    (hr : r.Approximates r') : (p.between q r).Approximates (p'.between q' r') := fun input =>
  (hp input).bind fun first => (hq first.next).bind fun middle =>
    (hr middle.next).bind fun _ => .refl _

theorem Approximates.withDefault (hp : p.Approximates p') (default : α) :
    (p.withDefault default).Approximates (p'.withDefault default) :=
  hp.orElse (.refl _)

theorem Approximates.repeated (hp : p.Approximates p') (least : Nat) :
    (p.repeated least).Approximates (p'.repeated least) := by
  intro input
  have heq : ∀ input, p input ≠ .undecided → p' input = p input := by
    intro input h
    exact ((hp input).resolve_left h).symm
  induction least, input using repeatedInduction (p := p) with
  | advance least input s h hs ih =>
    have h' : p' input = .success s := (heq input (by rw [h]; exact nofun)).trans h
    rw [repeated_of_advance h' hs]
    exact ih.bind fun _ => .refl _
  | halt least input s h hs =>
    have h' : p' input = .success s := (heq input (by rw [h]; exact nofun)).trans h
    exact .inr (repeated_of_halt h' hs).symm
  | failure least input f h hf =>
    have h' : p' input = .failure f := (heq input (by rw [h]; exact nofun)).trans h
    exact .inr (repeated_of_failure h' hf).symm
  | finish input f h hf =>
    have h' : p' input = .failure f := (heq input (by rw [h]; exact nofun)).trans h
    exact .inr (repeated_of_end h' hf).symm
  | undecided => exact .inl rfl

theorem Approximates.sepBy1 (hp : p.Approximates p') (hq : q.Approximates q') :
    (p.sepBy1 q).Approximates (p'.sepBy1 q') :=
  hp.bind fun _ _ => ((hq.andThen hp).repeated 0).map _

/-! ## Lists of parsers

The two lists are given by two functions on a list of indices. -/

variable {f g : ι → Parser src α} {is : List ι}

theorem choiceAfter_approximates (h : ∀ i ∈ is, (f i).Approximates (g i)) (earlier : Failure src) :
    (choiceAfter earlier (is.map f)).Approximates (choiceAfter earlier (is.map g)) := by
  intro input
  induction is generalizing earlier with
  | nil => exact .refl _
  | cons i is ih =>
    simp only [List.map_cons, choiceAfter_cons]
    refine (h i List.mem_cons_self input).recover fun failure => ?_
    exact ih (fun j hj => h j (List.mem_cons_of_mem _ hj)) (earlier.merge failure)

theorem choice_approximates (h : ∀ i ∈ is, (f i).Approximates (g i)) :
    (choice (is.map f)).Approximates (choice (is.map g)) := by
  intro input
  cases is with
  | nil => exact .refl _
  | cons i is =>
    simp only [List.map_cons, choice_cons]
    refine (h i List.mem_cons_self input).recover fun failure => ?_
    exact choiceAfter_approximates (fun j hj => h j (List.mem_cons_of_mem _ hj)) failure input

theorem continueWith_approximates (h : ∀ i ∈ is, (f i).Approximates (g i))
    (done : Success src α) :
    (continueWith done (is.map f)).Approximates (continueWith done (is.map g)) := by
  induction is generalizing done with
  | nil => exact .refl _
  | cons i is ih =>
    simp only [List.map_cons, continueWith]
    refine (h i List.mem_cons_self done.next).bind fun step => ?_
    exact ih (fun j hj => h j (List.mem_cons_of_mem _ hj)) _

theorem sequence_approximates (h : ∀ i ∈ is, (f i).Approximates (g i)) (empty : α) :
    (sequence empty (is.map f)).Approximates (sequence empty (is.map g)) :=
  fun _ => continueWith_approximates h _

theorem concat_approximates [Fragment α] (h : ∀ i ∈ is, (f i).Approximates (g i)) :
    (concat (is.map f)).Approximates (concat (is.map g)) := by
  induction is with
  | nil => exact .refl _
  | cons i is ih =>
    have hrest := ih fun j hj => h j (List.mem_cons_of_mem _ hj)
    simp only [List.map_cons, concat_cons]
    exact (h i List.mem_cons_self).bind fun _ _ => hrest.map _

end Parser

/-! ## Programs -/

namespace Steps

/-- The results of a program approximate those of another. -/
def Approximates (body body' : Steps src α) : Prop :=
  ∀ progress, (body.result progress).Approximates (body'.result progress)

theorem Approximates.refl (body : Steps src α) : body.Approximates body := fun _ => .refl _

theorem Approximates.bind {body body' : Steps src α} {next next' : α → Steps src β}
    (hbody : body.Approximates body') (hnext : ∀ value, (next value).Approximates (next' value)) :
    (body >>= next).Approximates (body' >>= next') := by
  intro progress
  rw [result_bind, result_bind]
  exact (hbody progress).bind fun r => hnext r.1 r.2

theorem run_approximates {p p' : Parser src α} (hp : p.Approximates p') :
    (run p).Approximates (run p') := by
  intro progress
  rw [result_run, result_run]
  exact (hp progress.current).bind fun _ => .refl _

theorem attempt_approximates {p p' : Parser src α} (hp : p.Approximates p') :
    (attempt p).Approximates (attempt p') := by
  intro progress
  rcases hp progress.current with h | h
  · left
    exact result_of_undecided (attempt_of_undecided h)
  · right
    exact result_congr (attempt_congr h)

end Steps

theorem Parser.program_approximates {body body' : Steps src α} (h : body.Approximates body') :
    (program body).Approximates (program body') := by
  intro input
  rw [program_apply, program_apply]
  exact (h ⟨input, []⟩).bind fun _ => .refl _

/-! ## Expressions -/

namespace Expr

variable {rules rules' : String → Parser src Value}

/-- The expression stands for a better approximation over `rules'` than over `rules`. -/
def Improves (rules rules' : String → Parser src Value) (e : Expr) : Prop :=
  (e.toParser rules).Approximates (e.toParser rules')

theorem perform_approximates {step : Step Expr} (h : ∀ e ∈ step.parsers, e.Improves rules rules')
    (vars : Bindings) :
    ((toStep rules step).perform vars).Approximates ((toStep rules' step).perform vars) := by
  cases step with
  | run e target =>
    exact (Steps.run_approximates (h e List.mem_cons_self)).bind fun _ => .refl _
  | attempt e target =>
    exact (Steps.attempt_approximates (h e List.mem_cons_self)).bind fun _ => .refl _
  | same | position | failIfLonger | failUnlessSame | fail => exact .refl _

theorem performAll_approximates {steps : List (Step Expr)}
    (h : ∀ e ∈ steps.flatMap Step.parsers, e.Improves rules rules') (vars : Bindings) :
    (Step.performAll vars (toSteps rules steps)).Approximates
      (Step.performAll vars (toSteps rules' steps)) := by
  induction steps generalizing vars with
  | nil => exact .refl _
  | cons step steps ih =>
    simp only [List.flatMap_cons, List.mem_append] at h
    exact (perform_approximates (fun e he => h e (.inl he)) vars).bind fun vars =>
      ih (fun e he => h e (.inr he)) vars

theorem lookup_toCases (cases : List (Text × Expr)) (t : Text) :
    (toCases rules cases).lookup t = (cases.lookup t).map (toParser rules) := by
  induction cases with
  | nil => rfl
  | cons c cases ih =>
    rw [toCases, List.lookup_cons, List.lookup_cons]
    split
    · rfl
    · exact ih

theorem resume_approximates {next : Continuation Expr}
    (h : ∀ e ∈ next.parsers, e.Improves rules rules') (v : Value) (start : Stream src) :
    ((toContinuation rules next).resume v start).Approximates
      ((toContinuation rules' next).resume v start) := by
  cases next with
  | pair e => exact (h e List.mem_cons_self).map _
  | start | same => exact .refl _
  | times e =>
    have hcopies : ∀ c ∈ List.replicate v.repetitions e, c.Improves rules rules' := by
      intro c hc
      rw [List.eq_of_mem_replicate hc]
      exact h e List.mem_cons_self
    have hsequence := Parser.sequence_approximates hcopies .null
    rwa [List.map_replicate, List.map_replicate] at hsequence
  | switch cases otherwise =>
    simp only [toContinuation, Continuation.resume, lookup_toCases]
    rcases hl : cases.lookup v.text with _ | e
    · exact h otherwise List.mem_cons_self
    · exact h e (List.mem_cons_of_mem _ (List.mem_map.2 ⟨_, mem_of_lookup_eq_some hl, rfl⟩))

/-- Better rules make better parsers. -/
theorem toParser_approximates (hrules : ∀ name, (rules name).Approximates (rules' name))
    (e : Expr) : (e.toParser rules).Approximates (e.toParser rules') := by
  show e.Improves rules rules'
  induction e using childInduction with
  | step e ih =>
    cases e with
    | item | ofClass | notOfClass | char | notChar | satisfy | spaces | spaces1 | notSpaces
    | notSpaces1 | literal | integer | number | quoted | endOfInput | succeed | default | fail =>
      exact .refl _
    | map f e => exact (ih e List.mem_cons_self).map _
    | label description e => exact (ih e List.mem_cons_self).label description
    | cut e => exact (ih e List.mem_cons_self).cut
    | cutAfter guard rest =>
      exact (ih guard (by simp [children])).andThen (ih rest (by simp [children])).cut
    | orElse left right =>
      exact (ih left (by simp [children])).orElse (ih right (by simp [children]))
    | choice es =>
      simp only [Improves, toParser, toParsers_eq_map]
      exact Parser.choice_approximates ih
    | andThen first second =>
      exact (ih first (by simp [children])).andThen (ih second (by simp [children]))
    | bind first next =>
      refine (ih first List.mem_cons_self).bind (resume_approximates fun c hc => ?_)
      exact ih c (List.mem_cons_of_mem _ hc)
    | sequence empty es =>
      simp only [Improves, toParser, toParsers_eq_map]
      exact Parser.sequence_approximates ih _
    | concat es =>
      simp only [Improves, toParser, toParsers_eq_map]
      exact (Parser.concat_approximates ih).map _
    | many e => exact (((ih e List.mem_cons_self).repeated 0).map _).map _
    | many1 e => exact (((ih e List.mem_cons_self).repeated 1).map _).map _
    | collect e => exact ((ih e List.mem_cons_self).repeated 0).map _
    | collect1 e => exact ((ih e List.mem_cons_self).repeated 1).map _
    | sepBy e separator =>
      have hlist := (ih e (by simp [children])).sepBy1 (ih separator (by simp [children]))
      exact (hlist.withDefault []).map _
    | sepBy1 e separator =>
      exact ((ih e (by simp [children])).sepBy1 (ih separator (by simp [children]))).map _
    | between opening e closing =>
      exact (ih opening (by simp [children])).between (ih e (by simp [children]))
        (ih closing (by simp [children]))
    | withDefault e => exact (ih e List.mem_cons_self).withDefault _
    | optional e => exact (((ih e List.mem_cons_self).map _).withDefault _).map _
    | textOf e => exact ((ih e List.mem_cons_self).map _).map _
    | program steps result =>
      exact Parser.program_approximates ((performAll_approximates ih _).bind fun _ => .refl _)
    | rule name => exact hrules name
    | peek e => exact (ih e List.mem_cons_self).peek
    | rewind e => exact (ih e List.mem_cons_self).rewind

end Expr

/-! ## Rules -/

/-- An increasing sequence of subsets of a finite set comes to a stop. -/
theorem exists_eq_succ [DecidableEq ι] {A : Nat → Finset ι} {T : Finset ι}
    (hT : ∀ d, A d ⊆ T) (hA : ∀ d, A d ⊆ A (d + 1)) : ∃ d ≤ T.card, A d = A (d + 1) := by
  by_contra hno
  have hgrows : ∀ d ≤ T.card + 1, d ≤ (A d).card := by
    intro d hd
    induction d with
    | zero => exact Nat.zero_le _
    | succ d ih =>
      have hne : A d ≠ A (d + 1) := fun heq => hno ⟨d, by omega, heq⟩
      have hlt := Finset.card_lt_card ((hA d).ssubset_of_ne hne)
      have hle := ih (by omega)
      omega
  have hlarge := hgrows (T.card + 1) (Nat.le_refl _)
  have hsmall := Finset.card_le_card (hT (T.card + 1))
  omega

theorem Stream.eq_of_length_passed_eq {s t : Stream src} (h : s.passed.length = t.passed.length) :
    s = t :=
  eq_of_passed_eq ((passed_suffix_of_length_le (Nat.le_of_eq h)).eq_of_length h)

namespace Grammar

variable (g : Grammar)

theorem rule_approximates_succ (d : Nat) (name : String) :
    (g.rule d name : Parser src Value).Approximates (g.rule (d + 1) name) := by
  induction d generalizing name with
  | zero => exact fun _ => .inl rfl
  | succ d ih =>
    rcases h : g.rules.lookup name with _ | e
    · rw [rule, rule, h]
      exact .refl _
    · rw [rule_succ_of_lookup h, rule_succ_of_lookup h]
      exact e.toParser_approximates ih

theorem rule_approximates {d d' : Nat} (h : d ≤ d') (name : String) :
    (g.rule d name : Parser src Value).Approximates (g.rule d' name) := by
  induction h with
  | refl => exact .refl _
  | step _ ih => exact fun input => (ih input).trans (g.rule_approximates_succ _ name input)

theorem rule_congr {d d' : Nat} (h : (g.rule d : String → Parser src Value) = g.rule d') :
    (g.rule (d + 1) : String → Parser src Value) = g.rule (d' + 1) := by
  funext name
  rcases hl : g.rules.lookup name with _ | e
  · rw [rule, rule, hl]
  · rw [rule_succ_of_lookup hl, rule_succ_of_lookup hl, h]

/-- If one more level changes nothing, no number of levels does. -/
theorem rule_eq_of_eq_succ {d d' : Nat}
    (h : (g.rule d : String → Parser src Value) = g.rule (d + 1))
    (hd : d ≤ d') : (g.rule d' : String → Parser src Value) = g.rule d := by
  induction hd with
  | refl => rfl
  | step _ ih => rw [g.rule_congr ih, ← h]

/-- The names of the rules, each with every place; a place is given by the characters passed. -/
def pairs (src : Source) : Finset (String × Nat) :=
  (g.rules.map Prod.fst).toFinset ×ˢ Finset.range (src.text.length + 1)

theorem card_pairs_lt_depth (src : Source) : (g.pairs src).card < g.depth src := by
  unfold pairs depth
  rw [Finset.card_product, Finset.card_range, Nat.lt_succ_iff]
  refine Nat.mul_le_mul_right _ ?_
  calc (g.rules.map Prod.fst).toFinset.card
      ≤ (g.rules.map Prod.fst).length := List.toFinset_card_le _
    _ = g.rules.length := List.length_map _

open scoped Classical in
/-- The pairs of a rule and a place that are decided at a depth. -/
noncomputable def decided (src : Source) (d : Nat) : Finset (String × Nat) :=
  (g.pairs src).filter fun x =>
    ∃ place : Stream src, place.passed.length = x.2 ∧ g.rule d x.1 place ≠ .undecided

theorem decided_subset_pairs (src : Source) (d : Nat) : g.decided src d ⊆ g.pairs src := by
  classical
  exact Finset.filter_subset _ _

theorem decided_subset_succ (src : Source) (d : Nat) : g.decided src d ⊆ g.decided src (d + 1) := by
  intro x hx
  simp only [decided, Finset.mem_filter] at hx ⊢
  obtain ⟨hmem, place, hplace, hne⟩ := hx
  refine ⟨hmem, place, hplace, ?_⟩
  rw [← (g.rule_approximates_succ d x.1 place).resolve_left hne]
  exact hne

/-- A level at which no pair becomes decided changes nothing.  The first level is left out: names
that are not in the table are decided there. -/
theorem rule_eq_succ_of_decided_eq {d : Nat} (hd : 0 < d)
    (h : g.decided src d = g.decided src (d + 1)) :
    (g.rule d : String → Parser src Value) = g.rule (d + 1) := by
  obtain ⟨d, rfl⟩ := Nat.exists_eq_succ_of_ne_zero (Nat.ne_of_gt hd)
  funext name place
  by_cases hmem : name ∈ g.rules.map Prod.fst
  · rcases g.rule_approximates_succ (d + 1) name place with hundecided | heq
    · by_contra hne
      have hlater : (name, place.passed.length) ∈ g.decided src (d + 2) := by
        simp only [decided, pairs, Finset.mem_filter, Finset.mem_product, List.mem_toFinset,
          Finset.mem_range]
        refine ⟨⟨hmem, ?_⟩, place, rfl, fun hlater => hne (hundecided.trans hlater.symm)⟩
        have := place.length_passed_add_length_rest
        omega
      rw [← h] at hlater
      simp only [decided, Finset.mem_filter] at hlater
      obtain ⟨-, place', hplace', hdecided⟩ := hlater
      rw [Stream.eq_of_length_passed_eq hplace'] at hdecided
      exact hdecided hundecided
    · exact heq
  · have hnone : g.rules.lookup name = none := by
      rw [List.lookup_eq_none_iff]
      intro r hr
      have hne : name ≠ r.1 := fun heq => hmem (heq ▸ List.mem_map_of_mem hr)
      simpa using hne
    rw [rule, rule, hnone]

/-- From the depth of the grammar on, following rules deeper changes nothing. -/
theorem rule_eq_of_depth_le {d : Nat} (hd : g.depth src ≤ d) :
    (g.rule d : String → Parser src Value) = g.rule (g.depth src) := by
  obtain ⟨d₀, hd₀, heq⟩ := exists_eq_succ (A := fun d => g.decided src (d + 1))
    (fun d => g.decided_subset_pairs src (d + 1)) (fun d => g.decided_subset_succ src (d + 1))
  have hstop : (g.rule (d₀ + 1) : String → Parser src Value) = g.rule (d₀ + 2) :=
    g.rule_eq_succ_of_decided_eq (Nat.succ_pos _) heq
  have hdepth : d₀ + 1 ≤ g.depth src := by
    have := g.card_pairs_lt_depth src
    omega
  rw [g.rule_eq_of_eq_succ hstop (hdepth.trans hd), g.rule_eq_of_eq_succ hstop hdepth]

/-- Whatever is decided at some depth is decided by the parser of the grammar. -/
theorem toParser_rule_approximates (d : Nat) (e : Expr) :
    (e.toParser (g.rule d) : Parser src Value).Approximates (g.parser e) := by
  have hrules : ∀ name, (g.rule d name : Parser src Value).Approximates
      (g.rule (max d (g.depth src)) name) :=
    fun name => g.rule_approximates (Nat.le_max_left _ _) name
  rw [g.rule_eq_of_depth_le (Nat.le_max_right d (g.depth src))] at hrules
  exact e.toParser_approximates hrules

end Grammar

end Descent
