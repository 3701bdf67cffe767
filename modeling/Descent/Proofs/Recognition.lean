import Descent.Proofs.Agreement
import Descent.Proofs.Depth
import Descent.Proofs.SpanLaw

/-!
# Grammars as parsing expressions

A grammar that is made of the recognising combinators only reads like a grammar of parsing
expressions: `Expr.toPeg` gives the parsing expression of an expression, `Grammar.toPeg` those of
the rules.  Tests of characters are data, but no set of characters is left out
(`CharTest.exists_holds_eq`).  By induction on the depth to which rules are followed, a rule
implements what can be derived with rules nested as deep (`Grammar.rule_implements`).  A derivation
has some depth and the parser of the grammar goes deep enough, so it is the same to parse and to
derive (`Grammar.parser_refines_peg`).
-/

namespace Descent

variable {src : Source} {α β : Type}

/-- Every set of characters is the set of some test. -/
theorem CharTest.exists_holds_eq (member : Char → Bool) :
    ∃ test : CharTest, test.holds = member := by
  refine ⟨.oneOf (((List.range 0x110000).map Char.ofNat).filter member), ?_⟩
  funext c
  have hc : c ∈ (List.range 0x110000).map Char.ofNat := by
    refine List.mem_map.2 ⟨c.toNat, ?_, Char.ofNat_toNat c⟩
    rw [List.mem_range]
    rcases c.valid with h | ⟨-, h⟩
    · exact Nat.lt_trans h (by decide)
    · exact h
  rw [holds, Bool.eq_iff_iff, List.contains_iff_mem, List.mem_filter]
  exact and_iff_right hc

namespace Expr

/-- Whether an expression itself, apart from its children, only recognises: its value does not
decide what is read next, it makes no failure fatal and it goes back only after a failure. -/
def isRecognizer : Expr → Bool
  | integer | number | quoted | cut _ | cutAfter _ _ | bind _ _ | program _ _ => false
  | peek _ | rewind _ => false
  | _ => true

/-- What an expression repeats. -/
def rounds : Expr → List Expr
  | many e | many1 e | collect e | collect1 e => [e]
  | sepBy e separator | sepBy1 e separator => [andThen separator e]
  | _ => []

mutual

/-- The parsing expression of an expression; those that do not recognise have none. -/
def toPeg : Expr → Peg
  | item => .any
  | ofClass k => .one k.holds
  | notOfClass k => .one fun c => !k.holds c
  | char c => .one (· == c)
  | notChar c => .one (· != c)
  | satisfy test => .one test.holds
  | spaces => .star (.one isSpace)
  | spaces1 => .plus (.one isSpace)
  | notSpaces => .star (.one fun c => !isSpace c)
  | notSpaces1 => .plus (.one fun c => !isSpace c)
  | literal t => .literal t
  | endOfInput => .endOfInput
  | succeed _ _ | default _ => .empty
  | fail _ => .fail
  | map _ e | label _ e | textOf e => toPeg e
  | orElse left right => .alt (toPeg left) (toPeg right)
  | choice es => .alts (toPegs es)
  | andThen first second => .seq (toPeg first) (toPeg second)
  | sequence _ es | concat es => .seqs (toPegs es)
  | many e | collect e => .star (toPeg e)
  | many1 e | collect1 e => .plus (toPeg e)
  | sepBy1 e separator => .seq (toPeg e) (.star (.seq (toPeg separator) (toPeg e)))
  | sepBy e separator => .opt (.seq (toPeg e) (.star (.seq (toPeg separator) (toPeg e))))
  | between opening e closing => .seq (toPeg opening) (.seq (toPeg e) (toPeg closing))
  | withDefault e | optional e => .opt (toPeg e)
  | rule name => .rule name
  | _ => .fail

/-- The parsing expressions of several expressions. -/
def toPegs : List Expr → List Peg
  | [] => []
  | e :: es => toPeg e :: toPegs es

end

theorem toPegs_eq_map (es : List Expr) : toPegs es = es.map toPeg := by
  induction es with
  | nil => rfl
  | cons e es ih => rw [toPegs, ih, List.map_cons]

theorem features_subset_of_isRecognizer {e : Expr} (h : e.isRecognizer = true) :
    e.features ⊆ [.injection] := by
  cases e with
  | succeed v matched => cases matched <;> simp [features]
  | cut | cutAfter | peek | rewind => cases h
  | _ => simp [features]

variable {rules : String → Parser src Value} {derives : String → Text → Option Text → Prop}

/-- An expression that only recognises implements its parsing expression if the rules it refers to
implement theirs. -/
theorem toParser_implements (hbuilt : ∀ name, Built [.injection] (rules name))
    (hrules : ∀ name, (rules name).Implements derives (.rule name)) {e : Expr}
    (hfragment : ∀ d ∈ e.parts, d.isRecognizer = true)
    (hrounds : ∀ d ∈ e.parts, ∀ b ∈ d.rounds, (b.toParser rules).Advances) :
    (e.toParser rules).Implements derives e.toPeg := by
  induction e using childInduction with
  | step e ih =>
    have hhead : e.isRecognizer = true := hfragment e (mem_parts_self e)
    have hround := hrounds e (mem_parts_self e)
    have hchild : ∀ c ∈ e.children, (c.toParser rules).Implements derives c.toPeg :=
      fun c hc => ih c hc (fun d hd => hfragment d (mem_parts_of_child hc hd))
        fun d hd => hrounds d (mem_parts_of_child hc hd)
    have hparser : ∀ c ∈ e.children, Built [.injection] (c.toParser rules) :=
      fun c hc => toParser_built hbuilt fun d hd =>
        features_subset_of_isRecognizer (hfragment d (mem_parts_of_child hc hd))
    have hcut : Feature.cut ∉ [Feature.injection] := by decide
    have hrecover : ∀ c ∈ e.children, (c.toParser rules).Recoverable :=
      fun c hc => (hparser c hc).recoverable hcut
    clear ih hfragment hrounds
    cases e with
    | item => exact (Parser.implements_satisfy _).map _
    | ofClass k => exact ((Parser.implements_satisfy _).label _).map _
    | notOfClass k => exact ((Parser.implements_satisfy _).label _).map _
    | char c => exact ((Parser.implements_satisfy _).label _).map _
    | notChar c => exact ((Parser.implements_satisfy _).label _).map _
    | satisfy test => exact (Parser.implements_satisfy _).map _
    -- Every character moves forward, so runs of whitespace need no assumption about their rounds.
    | spaces =>
      exact (((Parser.implements_satisfy _).label _).many ((Built.ofClass .space).recoverable hcut)
        ((Parser.advances_satisfy _).label _)).map _
    | spaces1 =>
      exact ((((Parser.implements_satisfy _).label _).many1
        ((Built.ofClass .space).recoverable hcut)
        ((Parser.advances_satisfy _).label _)).label _).map _
    | notSpaces =>
      exact ((Parser.implements_satisfy _).many ((Built.satisfy _).recoverable hcut)
        (Parser.advances_satisfy _)).map _
    | notSpaces1 =>
      exact (((Parser.implements_satisfy _).many1 ((Built.satisfy _).recoverable hcut)
        (Parser.advances_satisfy _)).label _).map _
    | literal t => exact (Parser.implements_literal t).map _
    | endOfInput => exact Parser.implements_endOfInput.map _
    | succeed v matched => exact Parser.implements_succeedWith _ _
    | default k => exact Parser.implements_succeedWith _ _
    | fail k => exact Parser.implements_fail
    | map f e => exact (hchild e List.mem_cons_self).map _
    | label description e => exact (hchild e List.mem_cons_self).label _
    | orElse left right =>
      exact (hchild left (by simp [children])).orElse (hrecover left (by simp [children]))
        (hchild right (by simp [children]))
    | choice es =>
      unfold toParser toPeg
      rw [toParsers_eq_map, toPegs_eq_map]
      exact Parser.implements_choice hchild hrecover
    | andThen first second =>
      exact (hchild first (by simp [children])).bind fun _ _ => hchild second (by simp [children])
    | sequence empty es =>
      unfold toParser toPeg
      rw [toParsers_eq_map, toPegs_eq_map]
      exact Parser.implements_sequence hchild _
    | concat es =>
      unfold toParser toPeg
      rw [toParsers_eq_map, toPegs_eq_map]
      exact (Parser.implements_concat hchild).map _
    | many e =>
      have hself : e ∈ (many e).children := List.mem_cons_self
      exact ((hchild e hself).many (hrecover e hself) (hround e List.mem_cons_self)).map _
    | many1 e =>
      have hself : e ∈ (many1 e).children := List.mem_cons_self
      exact ((hchild e hself).many1 (hrecover e hself) (hround e List.mem_cons_self)).map _
    | collect e =>
      have hself : e ∈ (collect e).children := List.mem_cons_self
      exact ((hchild e hself).collect (hrecover e hself) (hround e List.mem_cons_self)).map _
    | collect1 e =>
      have hself : e ∈ (collect1 e).children := List.mem_cons_self
      exact ((hchild e hself).collect1 (hrecover e hself) (hround e List.mem_cons_self)).map _
    | sepBy e separator =>
      have hitem : e ∈ (sepBy e separator).children := by simp [children]
      have hsep : separator ∈ (sepBy e separator).children := by simp [children]
      have hlist := (hchild e hitem).sepBy1 (hchild separator hsep)
        (((hparser separator hsep).andThen (hparser e hitem)).recoverable hcut)
        (hround _ List.mem_cons_self)
      have hlistBuilt := (hparser e hitem).sepBy1 (hparser separator hsep)
      exact (hlist.withDefault (hlistBuilt.recoverable hcut) _).map _
    | sepBy1 e separator =>
      have hitem : e ∈ (sepBy1 e separator).children := by simp [children]
      have hsep : separator ∈ (sepBy1 e separator).children := by simp [children]
      exact ((hchild e hitem).sepBy1 (hchild separator hsep)
        (((hparser separator hsep).andThen (hparser e hitem)).recoverable hcut)
        (hround _ List.mem_cons_self)).map _
    | between opening e closing =>
      exact (hchild opening (by simp [children])).between (hchild e (by simp [children]))
        (hchild closing (by simp [children]))
    | withDefault e =>
      exact (hchild e List.mem_cons_self).withDefault (hrecover e List.mem_cons_self) _
    | optional e =>
      exact ((hchild e List.mem_cons_self).optional (hrecover e List.mem_cons_self)).map _
    | textOf e => exact ((hchild e List.mem_cons_self).map _).map _
    | rule name => exact hrules name
    | integer | number | quoted | cut | cutAfter | bind | program | peek | rewind => cases hhead

end Expr

theorem Parser.Advances.of_approximates {p q : Parser src α} (hp : p.Advances)
    (h : q.Approximates p) : q.Advances := by
  intro input
  rcases h input with hundecided | heq
  · rw [hundecided]
    trivial
  · rw [heq]
    exact hp input

theorem Parser.Advances.andThen {p : Parser src α} {q : Parser src β} (hp : p.Advances)
    (hq : Built [.cut] q) : (p.andThen q).Advances := by
  intro input
  refine (hp input).bind fun first hfirst => ?_
  have hsecond : (q first.next).Ensures (fun s => first.next.cursor ≤ s.next.cursor)
      fun _ => True :=
    (hq.spans first.next).mono (fun s hs => hs.2.cursor_le) fun _ _ => trivial
  exact hsecond.bind fun second hle => Nat.lt_of_lt_of_le hfirst hle

namespace Grammar

variable {g : Grammar}

/-- The parsing expressions of the rules. -/
def toPeg (g : Grammar) (name : String) : Peg :=
  match g.rules.lookup name with
  | none => .fail
  | some e => e.toPeg

theorem toPeg_of_lookup {name : String} {e : Expr} (h : g.rules.lookup name = some e) :
    g.toPeg name = e.toPeg := by
  rw [toPeg, h]

theorem parts_subset_of_lookup {name : String} {body : Expr}
    (h : g.rules.lookup name = some body) (e : Expr) : g.parts body ⊆ g.parts e := by
  intro d hd
  rcases List.mem_append.1 hd with hd | hd
  · exact List.mem_append_right _ (List.mem_flatMap.2 ⟨_, mem_of_lookup_eq_some h, hd⟩)
  · exact List.mem_append_right _ hd

/-- Following rules to some depth implements deriving with rules nested as deep. -/
theorem toParser_rule_implements {e : Expr}
    (hfragment : ∀ d ∈ g.parts e, d.isRecognizer = true)
    (hrounds : ∀ d ∈ g.parts e, ∀ b ∈ d.rounds, (g.parser b : Parser src Value).Advances)
    (depth : Nat) :
    (e.toParser (g.rule depth) : Parser src Value).Implements
      (Peg.RuleDerivesWithin g.toPeg depth) e.toPeg := by
  have huses : ∀ r ∈ g.rules, r.2.Uses [.injection] := by
    intro r hr d hd
    refine Expr.features_subset_of_isRecognizer (hfragment d ?_)
    exact List.mem_append_right _ (List.mem_flatMap.2 ⟨r, hr, hd⟩)
  -- The rounds move forward at any depth, since the parser of the grammar decides whatever some
  -- depth decides.
  have hadvances : ∀ d ∈ g.parts e, ∀ b ∈ d.rounds,
      (b.toParser (g.rule depth) : Parser src Value).Advances :=
    fun d hd b hb => (hrounds d hd b hb).of_approximates (g.toParser_rule_approximates depth b)
  refine Expr.toParser_implements (rule_built huses depth) (fun name input r => ?_)
    (fun d hd => hfragment d (List.mem_append_left _ hd))
    (fun d hd => hadvances d (List.mem_append_left _ hd))
  rw [Peg.derives_rule_iff]
  cases depth with
  | zero => simp [Peg.RuleDerivesWithin, Outcome.left]
  | succ depth =>
    show Peg.Derives (Peg.RuleDerivesWithin g.toPeg depth) (g.toPeg name) input.rest r ↔ _
    rcases h : g.rules.lookup name with _ | body
    · rw [rule, toPeg, h]
      exact Parser.implements_fail input r
    · rw [rule_succ_of_lookup h, toPeg_of_lookup h]
      have hsubset : g.parts body ⊆ g.parts e := parts_subset_of_lookup h e
      exact toParser_rule_implements (fun d hd => hfragment d (hsubset hd))
        (fun d hd => hrounds d (hsubset hd)) depth input r
termination_by depth

/-- The parser of a grammar goes deep enough for everything that can be derived. -/
theorem parser_agrees {e : Expr} (hfragment : ∀ d ∈ g.parts e, d.isRecognizer = true)
    (hrounds : ∀ d ∈ g.parts e, ∀ b ∈ d.rounds, (g.parser b : Parser src Value).Advances)
    (input : Stream src) :
    (g.parser e input).Agrees (Peg.RuleDerives g.toPeg) e.toPeg input.rest := by
  intro r
  have himplements : ∀ depth, _ := fun depth =>
    toParser_rule_implements hfragment hrounds depth input r
  rw [Peg.derives_iff_exists_within]
  constructor
  · rintro ⟨depth, hderives⟩
    rw [himplements depth] at hderives
    rcases g.toParser_rule_approximates depth e input with hundecided | heq
    · rw [hundecided] at hderives
      cases hderives
    · rw [← heq]
      exact hderives
  · intro hleft
    exact ⟨g.depth src, (himplements _).2 hleft⟩

/-- **Refinement of parsing expressions.** In a grammar that only recognises and whose repetitions
move forward in each round, parsing is deriving: a parse that succeeds leaves what the parsing
expression leaves, it fails if and only if the parsing expression fails, and it does not come to an
end if and only if nothing can be derived. -/
theorem parser_refines_peg {e : Expr} (hfragment : ∀ d ∈ g.parts e, d.isRecognizer = true)
    (hrounds : ∀ d ∈ g.parts e, ∀ b ∈ d.rounds, (g.parser b : Parser src Value).Advances)
    (input : Stream src) :
    (∀ w, (∃ s, g.parser e input = .success s ∧ s.next.rest = w) ↔
      e.toPeg.Derives (Peg.RuleDerives g.toPeg) input.rest (some w)) ∧
    ((∃ f, g.parser e input = .failure f) ↔
      e.toPeg.Derives (Peg.RuleDerives g.toPeg) input.rest none) ∧
    (g.parser e input = .undecided ↔
      ∀ r, ¬ e.toPeg.Derives (Peg.RuleDerives g.toPeg) input.rest r) := by
  have hagrees := parser_agrees hfragment hrounds input
  rcases h : g.parser e input with s | f | _
  · rw [h, Outcome.agrees_success_iff] at hagrees
    simp [hagrees, eq_comm]
  · rw [h, Outcome.agrees_failure_iff] at hagrees
    simp [hagrees]
  · rw [h, Outcome.agrees_undecided_iff] at hagrees
    simp [hagrees]

end Grammar

/-- Nested lists of digits, with something left after them. -/
theorem parser_refines_peg_nested_lists :
    let src : Source := ⟨0, ['[', '[', ']', ',', '1', ']', ',']⟩
    let entry : Expr := .orElse (.rule "list") (.ofClass .digit)
    let g : Grammar := ⟨[("list", .between (.char '[') (.sepBy entry (.char ',')) (.char ']'))]⟩
    let input : Stream src := .first src
    (∃ s, g.parser (.rule "list") input = .success s ∧ s.next.rest = [',']) ∧
      (Peg.rule "list").Derives (Peg.RuleDerives g.toPeg) input.rest (some [',']) := by
  intro src entry g input
  have hfragment : ∀ d ∈ g.parts (.rule "list"), d.isRecognizer = true := by
    simp [g, entry, Grammar.parts, Expr.parts_eq, Expr.children, Expr.isRecognizer]
  have hround : ∀ d ∈ g.parts (.rule "list"), d.rounds ⊆ [.andThen (.char ',') entry] := by
    simp [g, entry, Grammar.parts, Expr.parts_eq, Expr.children, Expr.rounds]
  have hbuilt : Built [.cut] (g.parser entry : Parser src Value) := by
    refine Grammar.parser_built (fun r hr => ?_) ?_
    · obtain rfl := List.mem_singleton.1 hr
      simp [entry, Expr.Uses, Expr.parts_eq, Expr.children, Expr.features]
    · simp [entry, Expr.Uses, Expr.parts_eq, Expr.children, Expr.features]
  have hadvances : ∀ d ∈ g.parts (.rule "list"), ∀ b ∈ d.rounds,
      (g.parser b : Parser src Value).Advances := by
    intro d hd b hb
    obtain rfl := List.mem_singleton.1 (hround d hd hb)
    exact (((Parser.advances_satisfy _).label _).map _).andThen hbuilt
  have hrest : ((g.parser (.rule "list") input).success?.map fun s => s.next.rest) =
      some [','] := by
    decide +kernel
  have hparse : ∃ s, g.parser (.rule "list") input = .success s ∧ s.next.rest = [','] := by
    obtain ⟨s, hs, hnext⟩ := Option.map_eq_some_iff.1 hrest
    exact ⟨s, Outcome.success?_eq_some_iff.1 hs, hnext⟩
  exact ⟨hparse, ((Grammar.parser_refines_peg hfragment hadvances input).1 [',']).1 hparse⟩

end Descent
