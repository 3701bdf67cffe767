import Descent.Text.Bytes

/-!
# Parsing expressions over lists of characters

The theory that grammars are measured against, without places, bytes, values and messages.  A
parsing expression takes a text to what is left of it, or it fails.  `Peg.Derives` is its big-step
relation; there is no derivation where the recursion of rules or a repetition does not end.

The relation is given in two steps: `Peg.Derives rules` for expressions, over any account of how the
rules read, and `Peg.RuleDerives` for the rules, each of which reads like its body.
`Peg.RuleDerivesWithin` bounds how deep rules are nested, which allows induction on that depth
(`Peg.derives_iff_exists_within`).
-/

namespace Descent

/-- A parsing expression. -/
inductive Peg where
  /-- Reads nothing. -/
  | empty
  /-- Reads one character that passes a test. -/
  | one (test : Char → Bool)
  /-- One expression after the other. -/
  | seq (first second : Peg)
  /-- The second expression is tried only where the first fails. -/
  | alt (first second : Peg)
  /-- As often as possible. -/
  | star (e : Peg)
  /-- Reads nothing, and only where the expression fails. -/
  | not (e : Peg)
  /-- A rule of the grammar. -/
  | rule (name : String)

namespace Peg

/-- Reads any one character. -/
def any : Peg := one fun _ => true

/-- Never succeeds. -/
def fail : Peg := not empty

/-- Succeeds at the end of the text. -/
def endOfInput : Peg := not any

/-- An expression, or nothing where it fails. -/
def opt (e : Peg) : Peg := alt e empty

/-- Once and then as often as possible. -/
def plus (e : Peg) : Peg := seq e (star e)

/-- Expressions one after the other. -/
def seqs : List Peg → Peg
  | [] => empty
  | e :: es => seq e (seqs es)

/-- Alternatives in order; without any it fails. -/
def alts : List Peg → Peg
  | [] => fail
  | e :: es => alt e (alts es)

/-- The characters of a text. -/
def literal : Text → Peg
  | [] => empty
  | c :: t => seq (one (· == c)) (literal t)

/-- The big-step relation of expressions, `rules` saying how the rules read.
`Derives rules e w (some w')`: the expression reads the beginning of `w` and leaves `w'`.
`Derives rules e w none`: the expression fails on `w`. -/
inductive Derives (rules : String → Text → Option Text → Prop) :
    Peg → Text → Option Text → Prop where
  | empty {w : Text} : Derives rules .empty w (some w)
  | one {test : Char → Bool} {c : Char} {w : Text} :
      test c = true → Derives rules (.one test) (c :: w) (some w)
  | oneOther {test : Char → Bool} {c : Char} {w : Text} :
      test c = false → Derives rules (.one test) (c :: w) none
  | oneEnd {test : Char → Bool} : Derives rules (.one test) [] none
  | seq {e e' : Peg} {w w' : Text} {r : Option Text} :
      Derives rules e w (some w') → Derives rules e' w' r → Derives rules (.seq e e') w r
  | seqFail {e e' : Peg} {w : Text} : Derives rules e w none → Derives rules (.seq e e') w none
  | altFirst {e e' : Peg} {w w' : Text} :
      Derives rules e w (some w') → Derives rules (.alt e e') w (some w')
  | altSecond {e e' : Peg} {w : Text} {r : Option Text} :
      Derives rules e w none → Derives rules e' w r → Derives rules (.alt e e') w r
  | starMore {e : Peg} {w w' : Text} {r : Option Text} :
      Derives rules e w (some w') → Derives rules (.star e) w' r → Derives rules (.star e) w r
  | starEnd {e : Peg} {w : Text} : Derives rules e w none → Derives rules (.star e) w (some w)
  | notFail {e : Peg} {w w' : Text} : Derives rules e w (some w') → Derives rules (.not e) w none
  | not {e : Peg} {w : Text} : Derives rules e w none → Derives rules (.not e) w (some w)
  | rule {name : String} {w : Text} {r : Option Text} :
      rules name w r → Derives rules (.rule name) w r

/-- How the rules of a grammar read: each like its body, in which rules stand for how they read. -/
inductive RuleDerives (bodies : String → Peg) : String → Text → Option Text → Prop where
  | body {name : String} {w : Text} {r : Option Text} :
      Derives (RuleDerives bodies) (bodies name) w r → RuleDerives bodies name w r

/-- How the rules of a grammar read if they are nested at most `d` deep. -/
def RuleDerivesWithin (bodies : String → Peg) : (d : Nat) → String → Text → Option Text → Prop
  | 0, _, _, _ => False
  | d + 1, name, w, r => Derives (RuleDerivesWithin bodies d) (bodies name) w r

variable {rules rules' : String → Text → Option Text → Prop} {bodies : String → Peg}
  {e e' : Peg} {w : Text} {r : Option Text}

/-! ## What derivations are made of -/

theorem derives_empty_iff : Derives rules .empty w r ↔ r = some w := by
  constructor
  · rintro ⟨⟩
    rfl
  · rintro rfl
    exact .empty

theorem derives_one_nil_iff {test : Char → Bool} : Derives rules (.one test) [] r ↔ r = none := by
  constructor
  · rintro ⟨⟩
    rfl
  · rintro rfl
    exact .oneEnd

theorem derives_one_cons_iff {test : Char → Bool} {c : Char} :
    Derives rules (.one test) (c :: w) r ↔ r = if test c = true then some w else none := by
  constructor
  · intro h
    cases h with
    | one h => rw [if_pos h]
    | oneOther h => rw [if_neg (Bool.eq_false_iff.1 h)]
  · rintro rfl
    split
    · exact .one ‹_›
    · exact .oneOther (Bool.eq_false_iff.2 ‹_›)

theorem derives_seq_iff : Derives rules (.seq e e') w r ↔
    (Derives rules e w none ∧ r = none) ∨
      ∃ w', Derives rules e w (some w') ∧ Derives rules e' w' r := by
  constructor
  · intro h
    cases h with
    | seq h h' => exact .inr ⟨_, h, h'⟩
    | seqFail h => exact .inl ⟨h, rfl⟩
  · rintro (⟨h, rfl⟩ | ⟨w', h, h'⟩)
    · exact .seqFail h
    · exact .seq h h'

theorem derives_alt_iff : Derives rules (.alt e e') w r ↔
    (Derives rules e w none ∧ Derives rules e' w r) ∨
      ∃ w', Derives rules e w (some w') ∧ r = some w' := by
  constructor
  · intro h
    cases h with
    | altFirst h => exact .inr ⟨_, h, rfl⟩
    | altSecond h h' => exact .inl ⟨h, h'⟩
  · rintro (⟨h, h'⟩ | ⟨w', h, rfl⟩)
    · exact .altSecond h h'
    · exact .altFirst h

theorem derives_star_iff : Derives rules (.star e) w r ↔
    (Derives rules e w none ∧ r = some w) ∨
      ∃ w', Derives rules e w (some w') ∧ Derives rules (.star e) w' r := by
  constructor
  · intro h
    cases h with
    | starMore h h' => exact .inr ⟨_, h, h'⟩
    | starEnd h => exact .inl ⟨h, rfl⟩
  · rintro (⟨h, rfl⟩ | ⟨w', h, h'⟩)
    · exact .starEnd h
    · exact .starMore h h'

theorem derives_not_iff : Derives rules (.not e) w r ↔
    (Derives rules e w none ∧ r = some w) ∨ ∃ w', Derives rules e w (some w') ∧ r = none := by
  constructor
  · intro h
    cases h with
    | notFail h => exact .inr ⟨_, h, rfl⟩
    | not h => exact .inl ⟨h, rfl⟩
  · rintro (⟨h, rfl⟩ | ⟨w', h, rfl⟩)
    · exact .not h
    · exact .notFail h

theorem derives_rule_iff {name : String} : Derives rules (.rule name) w r ↔ rules name w r := by
  constructor
  · intro h
    cases h with
    | rule h => exact h
  · exact .rule

theorem derives_fail_iff : Derives rules fail w r ↔ r = none := by
  simp [fail, derives_not_iff, derives_empty_iff]

/-! ## Nested rules -/

theorem Derives.mono (hrules : ∀ name w r, rules name w r → rules' name w r)
    (h : Derives rules e w r) : Derives rules' e w r := by
  induction h with
  | empty => exact .empty
  | one h => exact .one h
  | oneOther h => exact .oneOther h
  | oneEnd => exact .oneEnd
  | seq _ _ ih ih' => exact .seq ih ih'
  | seqFail _ ih => exact .seqFail ih
  | altFirst _ ih => exact .altFirst ih
  | altSecond _ _ ih ih' => exact .altSecond ih ih'
  | starMore _ _ ih ih' => exact .starMore ih ih'
  | starEnd _ ih => exact .starEnd ih
  | notFail _ ih => exact .notFail ih
  | not _ ih => exact .not ih
  | rule h => exact .rule (hrules _ _ _ h)

/-- How rules read is the least relation that agrees with the bodies of the rules. -/
theorem RuleDerives.least {P : String → Text → Option Text → Prop}
    (hP : ∀ name w r, Derives P (bodies name) w r → P name w r) {name : String}
    (h : RuleDerives bodies name w r) : P name w r := by
  refine @RuleDerives.rec bodies (fun name w r _ => P name w r) (fun e w r _ => Derives P e w r)
    ?_ .empty .one .oneOther .oneEnd ?_ ?_ ?_ ?_ ?_ ?_ ?_ ?_ ?_ name w r h
  · exact fun _ ih => hP _ _ _ ih
  · exact fun _ _ ih ih' => .seq ih ih'
  · exact fun _ ih => .seqFail ih
  · exact fun _ ih => .altFirst ih
  · exact fun _ _ ih ih' => .altSecond ih ih'
  · exact fun _ _ ih ih' => .starMore ih ih'
  · exact fun _ ih => .starEnd ih
  · exact fun _ ih => .notFail ih
  · exact fun _ ih => .not ih
  · exact fun _ ih => .rule ih

theorem RuleDerivesWithin.ruleDerives {d : Nat} {name : String}
    (h : RuleDerivesWithin bodies d name w r) : RuleDerives bodies name w r := by
  induction d generalizing name w r with
  | zero => exact h.elim
  | succ d ih => exact .body (h.mono fun _ _ _ => ih)

theorem RuleDerivesWithin.mono {d d' : Nat} (hd : d ≤ d') {name : String}
    (h : RuleDerivesWithin bodies d name w r) : RuleDerivesWithin bodies d' name w r := by
  induction d generalizing d' name w r with
  | zero => exact h.elim
  | succ d ih =>
    obtain ⟨d', rfl⟩ := Nat.exists_eq_succ_of_ne_zero (by omega : d' ≠ 0)
    exact Derives.mono (fun _ _ _ => ih (Nat.le_of_succ_le_succ hd)) h

theorem Derives.mono_within {d d' : Nat} (hd : d ≤ d')
    (h : Derives (RuleDerivesWithin bodies d) e w r) :
    Derives (RuleDerivesWithin bodies d') e w r :=
  h.mono fun _ _ _ => RuleDerivesWithin.mono hd

/-- A derivation uses rules finitely often, so there is a depth that is enough for all of them. -/
theorem Derives.exists_within
    (h : Derives (fun name w r => ∃ d, RuleDerivesWithin bodies d name w r) e w r) :
    ∃ d, Derives (RuleDerivesWithin bodies d) e w r := by
  induction h with
  | empty => exact ⟨0, .empty⟩
  | one h => exact ⟨0, .one h⟩
  | oneOther h => exact ⟨0, .oneOther h⟩
  | oneEnd => exact ⟨0, .oneEnd⟩
  | seq _ _ ih ih' =>
    obtain ⟨⟨d, h⟩, ⟨d', h'⟩⟩ := And.intro ih ih'
    exact ⟨max d d', .seq (h.mono_within (Nat.le_max_left _ _))
      (h'.mono_within (Nat.le_max_right _ _))⟩
  | seqFail _ ih => exact ih.imp fun _ h => .seqFail h
  | altFirst _ ih => exact ih.imp fun _ h => .altFirst h
  | altSecond _ _ ih ih' =>
    obtain ⟨⟨d, h⟩, ⟨d', h'⟩⟩ := And.intro ih ih'
    exact ⟨max d d', .altSecond (h.mono_within (Nat.le_max_left _ _))
      (h'.mono_within (Nat.le_max_right _ _))⟩
  | starMore _ _ ih ih' =>
    obtain ⟨⟨d, h⟩, ⟨d', h'⟩⟩ := And.intro ih ih'
    exact ⟨max d d', .starMore (h.mono_within (Nat.le_max_left _ _))
      (h'.mono_within (Nat.le_max_right _ _))⟩
  | starEnd _ ih => exact ih.imp fun _ h => .starEnd h
  | notFail _ ih => exact ih.imp fun _ h => .notFail h
  | not _ ih => exact ih.imp fun _ h => .not h
  | rule h => exact h.imp fun _ h => .rule h

/-- A grammar derives what it derives with some depth of nested rules. -/
theorem derives_iff_exists_within : Derives (RuleDerives bodies) e w r ↔
    ∃ d, Derives (RuleDerivesWithin bodies d) e w r := by
  constructor
  · intro h
    have hrule : ∀ name w r, RuleDerives bodies name w r →
        ∃ d, RuleDerivesWithin bodies d name w r := by
      intro name w r hname
      refine hname.least (P := fun name w r => ∃ d, RuleDerivesWithin bodies d name w r)
        fun name w r hbody => ?_
      obtain ⟨d, hd⟩ := hbody.exists_within
      exact ⟨d + 1, hd⟩
    exact (h.mono hrule).exists_within
  · rintro ⟨d, h⟩
    exact h.mono fun _ _ _ => RuleDerivesWithin.ruleDerives

end Peg

end Descent
