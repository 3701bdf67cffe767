import Descent.Proofs.Agreement
import Descent.Proofs.Depth
import Descent.Proofs.Ending
import Descent.Proofs.SpanLaw

/-!
# Guarded recursion

Rules that refer to each other are given by their bodies: a `Body` is a parser that depends on
parsers for the rules.  `Recursion.rule` puts the bodies into each other, to a given depth.

A rule that refers to itself before anything was read is entered for ever.  `Guarded R below p` says
that the parser `p` refers only to rules of `below` until a parser has succeeded that can only do so
by reading something; after that it may refer to any rule.  If the rules can be ranked so that each
is guarded with respect to those of smaller rank, all rules come to an end everywhere
(`Recursion.rule_ne_undecided`): at each reference either the rest of the source or the rank gets
smaller.
-/

namespace Descent

variable {src : Source} {α β ι : Type} {τ : ι → Type}

/-! ## Parsers that do not go back -/

/-- A success ends no earlier than the parser was run. -/
def Parser.Forward (p : Parser src α) : Prop :=
  ∀ input, (p input).Ensures (fun s => input.cursor ≤ s.next.cursor) fun _ => True

theorem Built.forward {p : Parser src α} (h : Built [.cut] p) : p.Forward := fun input =>
  (h.spans input).mono (fun _ hs => hs.2.cursor_le) fun _ _ => trivial

namespace Parser

variable {p : Parser src α}

theorem Forward.bind {next : α → Stream src → Parser src β} (hp : p.Forward)
    (hnext : ∀ value start, (next value start).Forward) : (p.bind next).Forward := by
  intro input
  refine (hp input).bind fun first hfirst => ?_
  exact (hnext first.value input first.next).bind fun _ hs => Nat.le_trans hfirst hs

theorem Forward.repeated (hp : p.Forward) (least : Nat) : (p.repeated least).Forward := by
  refine ensures_repeated hp ?_ ?_ ?_ ?_ least
  · exact fun _ => Nat.le_refl _
  · exact fun _ _ hs _ => hs
  · exact fun _ _ _ hs _ hothers => Nat.le_trans hs hothers
  · exact fun _ _ _ _ _ => trivial

end Parser

/-- A program whose parsers do not go back does not go back. -/
theorem Steps.MadeOf.forward {body : Steps src α} (hbody : body.MadeOf fun _ p => p.Forward)
    (progress : Progress src) :
    (body.result progress).Ensures (fun r => progress.current.cursor ≤ r.2.current.cursor)
      fun _ => True := by
  refine Steps.MadeOf.ensures (I := fun p => progress.current.cursor ≤ p.current.cursor)
    (fun β p hp reached hreached => ?_) (fun _ _ => trivial) hbody (Nat.le_refl _)
  exact (hp reached.current).mono (fun _ hs => Nat.le_trans hreached hs) fun _ hf => hf

/-! ## Rules and their bodies -/

/-- A parser for every rule; `τ` gives the types of their values. -/
abbrev Rules (src : Source) (τ : ι → Type) := (i : ι) → Parser src (τ i)

/-- A parser that refers to rules. -/
abbrev Body (src : Source) (τ : ι → Type) (α : Type) := Rules src τ → Parser src α

/-- The steps of a program that refers to rules. -/
abbrev StepsBody (src : Source) (τ : ι → Type) (α : Type) := Rules src τ → Steps src α

/-- The bodies of rules that refer to each other. -/
abbrev Recursion (src : Source) (τ : ι → Type) := (i : ι) → Body src τ (τ i)

/-- The rules with references followed at most `depth` deep. -/
def Recursion.rule (R : Recursion src τ) : (depth : Nat) → Rules src τ
  | 0, _ => fun _ => .undecided
  | depth + 1, i => R i (R.rule depth)

/-- Whatever the depth, a success has read something. -/
def Body.Consumes (R : Recursion src τ) (p : Body src τ α) : Prop :=
  ∀ depth, (p (R.rule depth)).Advances

/-- Whatever the depth, the program has read something when it goes on after these steps. -/
def StepsBody.Consumes (R : Recursion src τ) (body : StepsBody src τ α) : Prop :=
  ∀ depth progress, ((body (R.rule depth)).result progress).Ensures
    (fun r => progress.current.cursor < r.2.current.cursor) fun _ => True

theorem Body.Consumes.run {R : Recursion src τ} {p : Body src τ α} (h : p.Consumes R) :
    StepsBody.Consumes R fun rules => Steps.run (p rules) := by
  intro depth progress
  rw [Steps.result_run]
  exact (h depth progress.current).bind fun _ hs => hs

/-- Programs that run parsers of the class `S` only.  The class depends on the rules that may be
referred to: `below` at first, and all rules after steps that have read something.  An attempt may
go on without having read anything, whatever it attempts. -/
inductive StepsBody.GuardedOver (R : Recursion src τ)
    (S : (ι → Prop) → (α : Type) → Body src τ α → Prop) :
    (ι → Prop) → {α : Type} → StepsBody src τ α → Prop where
  | weaken {below below' : ι → Prop} {α : Type} {body : StepsBody src τ α} :
      (∀ i, below i → below' i) → GuardedOver R S below body → GuardedOver R S below' body
  | pure {below : ι → Prop} {α : Type} (value : α) : GuardedOver R S below fun _ => Pure.pure value
  | bind {below : ι → Prop} {α β : Type} {body : StepsBody src τ α} {next : α → StepsBody src τ β} :
      GuardedOver R S below body →
      (∀ value, GuardedOver R S (fun i => below i ∨ body.Consumes R) (next value)) →
      GuardedOver R S below fun rules => body rules >>= fun value => next value rules
  | run {below : ι → Prop} {α : Type} {p : Body src τ α} : S below α p →
      GuardedOver R S below fun rules => Steps.run (p rules)
  | attempt {below : ι → Prop} {α : Type} {p : Body src τ α} : S below α p →
      GuardedOver R S below fun rules => Steps.attempt (p rules)
  | position {below : ι → Prop} : GuardedOver R S below fun _ => Steps.position
  | fail {below : ι → Prop} {α : Type} : GuardedOver R S below fun _ => (Steps.fail : Steps src α)

/-- The parser is put together with the library and refers, as long as no parser has succeeded that
consumes, to rules of `below` only. -/
inductive Guarded (R : Recursion src τ) : (ι → Prop) → {α : Type} → Body src τ α → Prop where
  | weaken {below below' : ι → Prop} {α : Type} {p : Body src τ α} :
      (∀ i, below i → below' i) → Guarded R below p → Guarded R below' p
  /-- A reference. -/
  | rule {below : ι → Prop} {i : ι} : below i → Guarded R below fun rules => rules i
  /-- A parser that refers to no rule, as those that the library starts from: they all come to an
  end, and none goes back. -/
  | closed {below : ι → Prop} {α : Type} {p : Parser src α} : p.Ends → p.Forward →
      Guarded R below fun _ => p
  | map {below : ι → Prop} {α β : Type} {p : Body src τ α} (f : α → β) : Guarded R below p →
      Guarded R below fun rules => (p rules).map f
  | label {below : ι → Prop} {α : Type} {p : Body src τ α} (description : String) :
      Guarded R below p →
      Guarded R below fun rules => (p rules).label description
  | cut {below : ι → Prop} {α : Type} {p : Body src τ α} : Guarded R below p →
      Guarded R below fun rules => (p rules).cut
  | orElse {below : ι → Prop} {α : Type} {p q : Body src τ α} :
      Guarded R below p → Guarded R below q →
      Guarded R below fun rules => (p rules).orElse (q rules)
  | choice {below : ι → Prop} {α κ : Type} {ks : List κ} {p : κ → Body src τ α} :
      (∀ k ∈ ks, Guarded R below (p k)) →
      Guarded R below fun rules => .choice (ks.map fun k => p k rules)
  | bind {below : ι → Prop} {α β : Type} {p : Body src τ α} {next : α → Stream src → Body src τ β} :
      Guarded R below p →
      (∀ value start, Guarded R (fun i => below i ∨ p.Consumes R) (next value start)) →
      Guarded R below fun rules => (p rules).bind fun value start => next value start rules
  | repeated {below : ι → Prop} {α : Type} {p : Body src τ α} (least : Nat) : Guarded R below p →
      Guarded R below fun rules => (p rules).repeated least
  | program {below : ι → Prop} {α : Type} {body : StepsBody src τ α}
      (S : (ι → Prop) → (β : Type) → Body src τ β → Prop) :
      (∀ below β p, S below β p → Guarded R below p) → body.GuardedOver R S below →
      Guarded R below fun rules => .program (body rules)

variable {R : Recursion src τ} {S : (ι → Prop) → (α : Type) → Body src τ α → Prop}
  {below after : ι → Prop} {p : Body src τ α} {body : StepsBody src τ α}
  {rules rules' : Rules src τ}

theorem Guarded.andThen {q : Body src τ β} (hp : Guarded R below p)
    (hq : Guarded R (fun i => below i ∨ p.Consumes R) q) :
    Guarded R below fun rules => (p rules).andThen (q rules) :=
  .bind hp fun _ _ => hq

theorem Guarded.withDefault (hp : Guarded R below p) (default : α) :
    Guarded R below fun rules => (p rules).withDefault default :=
  .orElse hp (.closed (Parser.ends_succeedWith default []) (Built.succeed default).forward)

theorem StepsBody.GuardedOver.ite {c : Prop} [Decidable c] {other : StepsBody src τ α}
    (hbody : body.GuardedOver R S below) (hother : other.GuardedOver R S below) :
    GuardedOver R S below fun rules => if c then body rules else other rules := by
  split
  · exact hbody
  · exact hother

/-! ## What follows for each depth -/

theorem StepsBody.GuardedOver.madeOf {S' : (α : Type) → Parser src α → Prop}
    (hS : ∀ below α p, S below α p → S' α (p rules)) (h : body.GuardedOver R S below) :
    (body rules).MadeOf S' := by
  induction h with
  | weaken _ _ ih => exact ih
  | pure value => exact .pure value
  | bind _ _ ihbody ihnext => exact .bind ihbody ihnext
  | run hp => exact .run (hS _ _ _ hp)
  | attempt hp => exact .attempt (hS _ _ _ hp)
  | position => exact .position
  | fail => exact .fail

theorem Guarded.forward (hrules : ∀ i, (rules i).Forward) (h : Guarded R below p) :
    (p rules).Forward := by
  induction h with
  | weaken _ _ ih => exact ih
  | rule => exact hrules _
  | closed _ hforward => exact hforward
  | map f _ ih => exact fun input => (ih input).bind fun _ hs => hs
  | label description _ ih => exact fun input => (ih input).mapFailure fun _ hf => hf
  | cut _ ih => exact fun input => (ih input).mapFailure fun _ hf => hf
  | orElse _ _ ihp ihq =>
    exact fun input => (ihp input).recover fun _ _ => (ihq input).mapFailure fun _ hf => hf
  | choice _ ih =>
    intro input
    refine Parser.ensures_choice (fun q hq => ?_) (fun _ _ _ _ => trivial) trivial
    obtain ⟨k, hk, rfl⟩ := List.mem_map.1 hq
    exact ih k hk input
  | bind _ _ ihp ihnext => exact ihp.bind ihnext
  | repeated least _ ih => exact ih.repeated least
  | program S _ hbody ih =>
    exact fun input => Parser.ensures_program ((hbody.madeOf ih).forward ⟨input, []⟩)

theorem Recursion.rule_forward {reach : ι → ι → Prop} (hR : ∀ i, Guarded R (reach i) (R i))
    (depth : Nat) (i : ι) : (R.rule depth i).Forward := by
  induction depth generalizing i with
  | zero => exact fun _ => trivial
  | succ depth ih => exact (hR i).forward ih

theorem StepsBody.GuardedOver.approximates
    (hS : ∀ below α p, S below α p → (p rules).Approximates (p rules'))
    (h : body.GuardedOver R S below) : (body rules).Approximates (body rules') := by
  induction h with
  | weaken _ _ ih => exact ih
  | bind _ _ ihbody ihnext => exact ihbody.bind ihnext
  | run hp => exact Steps.run_approximates (hS _ _ _ hp)
  | attempt hp => exact Steps.attempt_approximates (hS _ _ _ hp)
  | pure | position | fail => exact .refl _

theorem Guarded.approximates (hrules : ∀ i, (rules i).Approximates (rules' i))
    (h : Guarded R below p) : (p rules).Approximates (p rules') := by
  induction h with
  | weaken _ _ ih => exact ih
  | rule => exact hrules _
  | closed => exact .refl _
  | map f _ ih => exact ih.map f
  | label description _ ih => exact ih.label description
  | cut _ ih => exact ih.cut
  | orElse _ _ ihp ihq => exact ihp.orElse ihq
  | choice _ ih => exact Parser.choice_approximates ih
  | bind _ _ ihp ihnext => exact ihp.bind ihnext
  | repeated least _ ih => exact ih.repeated least
  | program S _ hbody ih => exact Parser.program_approximates (hbody.approximates ih)

/-- Following rules deeper changes no outcome that is decided. -/
theorem Recursion.rule_approximates {reach : ι → ι → Prop} (hR : ∀ i, Guarded R (reach i) (R i))
    {depth deeper : Nat} (h : depth ≤ deeper) (i : ι) :
    (R.rule depth i).Approximates (R.rule deeper i) := by
  induction depth generalizing deeper i with
  | zero => exact fun _ => .inl rfl
  | succ depth ih =>
    cases deeper with
    | zero => exact absurd h (Nat.not_succ_le_zero _)
    | succ deeper => exact (hR i).approximates fun j => ih (Nat.le_of_succ_le_succ h) j

/-! ## Coming to an end -/

/-- The rules of `below` end at the place, and all rules end at later places. -/
structure Rules.EndFrom (rules : Rules src τ) (below : ι → Prop) (place : Stream src) : Prop where
  here : ∀ i, below i → rules i place ≠ .undecided
  later : ∀ i next, place.cursor < next.cursor → rules i next ≠ .undecided

/-- Once something is read, all rules end. -/
theorem Rules.EndFrom.move {place next : Stream src} (h : rules.EndFrom below place)
    (hle : place.cursor ≤ next.cursor)
    (hafter : ∀ i, after i → below i ∨ place.cursor < next.cursor) : rules.EndFrom after next where
  here i hi := by
    rcases Nat.lt_or_eq_of_le hle with hlt | heq
    · exact h.later i next hlt
    · obtain rfl := Stream.eq_of_cursor_eq heq
      rcases hafter i hi with hbelow | hlt
      · exact h.here i hbelow
      · exact absurd hlt (Nat.lt_irrefl _)
  later i later hlater := h.later i later (Nat.lt_of_le_of_lt hle hlater)

variable {depth : Nat}

theorem StepsBody.GuardedOver.ne_undecided
    (hforward : ∀ below α p, S below α p → (p (R.rule depth)).Forward)
    (hS : ∀ below α p, S below α p → ∀ {place}, (R.rule depth).EndFrom below place →
      p (R.rule depth) place ≠ .undecided)
    (h : body.GuardedOver R S below) {progress : Progress src}
    (hrules : (R.rule depth).EndFrom below progress.current) :
    (body (R.rule depth)).result progress ≠ .undecided := by
  induction h generalizing progress with
  | weaken hbelow _ ih => exact ih ⟨fun i hi => hrules.here i (hbelow i hi), hrules.later⟩
  | pure value => exact nofun
  | bind hbody _ ihbody ihnext =>
    rw [Steps.result_bind]
    refine Outcome.bind_ne_undecided_of_success (ihbody hrules) fun r hr => ihnext r.1 ?_
    refine hrules.move (((hbody.madeOf hforward).forward progress).of_success hr) fun i hi => ?_
    exact hi.imp id fun hconsumes => (hconsumes depth progress).of_success hr
  | run hp => exact Steps.run_ne_undecided (hS _ _ _ hp hrules)
  | attempt hp => exact Steps.attempt_ne_undecided (hS _ _ _ hp hrules)
  | position => exact nofun
  | fail => exact nofun

/-- A guarded parser ends where the rules end that it may refer to. -/
theorem Guarded.ne_undecided (hforward : ∀ i, (R.rule depth i).Forward) (h : Guarded R below p)
    {input : Stream src} (hrules : (R.rule depth).EndFrom below input) :
    p (R.rule depth) input ≠ .undecided := by
  induction h generalizing input with
  | weaken hbelow _ ih => exact ih ⟨fun i hi => hrules.here i (hbelow i hi), hrules.later⟩
  | rule hi => exact hrules.here _ hi
  | closed hends _ => exact hends input
  | map f _ ih => exact Outcome.bind_ne_undecided (ih hrules) fun _ => nofun
  | label description _ ih => exact Outcome.mapFailure_ne_undecided (ih hrules) _
  | cut _ ih => exact Outcome.mapFailure_ne_undecided (ih hrules) _
  | orElse _ _ ihp ihq =>
    exact Outcome.recover_ne_undecided (ihp hrules) fun _ =>
      Outcome.mapFailure_ne_undecided (ihq hrules) _
  | choice _ ih =>
    refine Parser.choice_ne_undecided fun q hq => ?_
    obtain ⟨k, hk, rfl⟩ := List.mem_map.1 hq
    exact ih k hk hrules
  | bind hp _ ihp ihnext =>
    refine Outcome.bind_ne_undecided_of_success (ihp hrules) fun s hs => ?_
    refine Outcome.bind_ne_undecided (ihnext s.value input ?_) fun _ => nofun
    refine hrules.move ((hp.forward hforward input).of_success hs) fun i hi => ?_
    exact hi.imp id fun hconsumes => (hconsumes depth input).of_success hs
  | repeated least _ ih =>
    exact Parser.repeated_ne_undecided (fun place hplace => ih (hrules.move hplace fun _ => .inl))
      least
  | program S hS hbody ih =>
    refine Parser.program_ne_undecided (hbody.ne_undecided ?_ ih hrules)
    exact fun below β q hq => (hS below β q hq).forward hforward

/-- **Ranked rules end.** Each reference goes to a rule of smaller rank, or something was read
before it; so a depth that counts the ranks once for every character to come is enough. -/
theorem Recursion.rule_ne_undecided {rank : ι → Nat}
    (hR : ∀ i, Guarded R (fun j => rank j < rank i) (R i)) {top : Nat} (htop : ∀ i, rank i ≤ top)
    {i : ι} {input : Stream src} (h : input.rest.length * (top + 1) + rank i < depth) :
    R.rule depth i input ≠ .undecided := by
  induction depth generalizing i input with
  | zero => exact absurd h (Nat.not_lt_zero _)
  | succ depth ih =>
    refine (hR i).ne_undecided (rule_forward hR depth)
      ⟨fun j hj => ih (by omega), fun j place hplace => ih ?_⟩
    have hrest : place.rest.length + 1 ≤ input.rest.length :=
      Stream.length_rest_lt_of_cursor_lt hplace
    calc place.rest.length * (top + 1) + rank j
        < place.rest.length * (top + 1) + (top + 1) :=
          Nat.add_lt_add_left (Nat.lt_succ_of_le (htop j)) _
      _ = (place.rest.length + 1) * (top + 1) := (Nat.succ_mul _ _).symm
      _ ≤ input.rest.length * (top + 1) := Nat.mul_le_mul_right _ hrest
      _ ≤ depth := by omega

end Descent
