import Descent.Proofs.SpanLaw

/-!
# Values that are the text read

A parser is verbatim if the text of its value is the text it matched (`Parser.Verbatim`).
Characters and literals are, and the combinators that put texts together keep it: they collect the
values and the matched texts in the same order, each value once.  A default must have an empty text,
since nothing is matched where it is given.

`Textual` is the class of parsers made in this way.  They are built without injections and jumps, so
what they matched is what they passed (`Textual.built`).  Expressions and grammars of textual
parsers are textual (`Grammar.parser_textual`).
-/

namespace Descent

variable {src : Source} {α β : Type}

/-! ## Verbatim parsers -/

/-- The text of the value of a success is the text it matched. -/
def Parser.Verbatim [Fragment α] (p : Parser src α) : Prop :=
  ∀ input, (p input).Ensures (fun s => Fragment.text s.value = s.matched) fun _ => True

namespace Parser

theorem verbatim_satisfy (test : Char → Bool) : (satisfy test : Parser src Char).Verbatim := by
  intro input
  rcases h : input.uncons with _ | ⟨c, next⟩
  · rw [satisfy_of_uncons_eq_none h]
    trivial
  · rw [satisfy_of_uncons_eq_some h]
    split
    · exact Fragment.text_char c
    · trivial

theorem verbatim_literal (t : Text) : (literal t : Parser src Text).Verbatim := by
  intro input
  unfold literal
  split
  · exact Fragment.text_text t
  · trivial

section Rules

variable [Fragment α] [Fragment β] {p q : Parser src α} {ps : List (Parser src α)}

theorem verbatim_succeed {value : α} (h : Fragment.text value = []) :
    (succeed value : Parser src α).Verbatim :=
  fun _ => h

/-- A change of the value that keeps its text. -/
theorem Verbatim.map (hp : p.Verbatim) {f : α → β}
    (hf : ∀ v, Fragment.text (f v) = Fragment.text v) : (p.map f).Verbatim := fun input =>
  (hp input).bind fun s hs => (hf s.value).trans hs

theorem Verbatim.mapFailure (hp : p.Verbatim) (g : Failure src → Failure src) :
    Verbatim fun input => (p input).mapFailure g := fun input =>
  (hp input).mapFailure fun _ _ => trivial

theorem Verbatim.orElse (hp : p.Verbatim) (hq : q.Verbatim) : (p.orElse q).Verbatim := fun input =>
  (hp input).recover fun _ _ => (hq input).mapFailure fun _ _ => trivial

theorem verbatim_choice (h : ∀ p ∈ ps, p.Verbatim) : (choice ps).Verbatim := fun input =>
  ensures_choice (fun p hp => h p hp input) (fun _ _ _ _ => trivial) trivial

/-- The texts of the values are put together in the order in which the matched texts are. -/
theorem verbatim_concat (h : ∀ p ∈ ps, p.Verbatim) : (concat ps).Verbatim := by
  induction ps with
  | nil => exact verbatim_succeed rfl
  | cons p ps ih =>
    intro input
    have hrest : (concat ps).Verbatim := ih fun q hq => h q (List.mem_cons_of_mem _ hq)
    rw [concat_cons]
    refine (h p List.mem_cons_self input).bind fun first hfirst => ?_
    refine Outcome.Ensures.bind ((hrest first.next).bind fun others hothers => ?_) fun s hs => hs
    show Fragment.text (Fragment.text first.value ++ others.value) = first.matched ++ others.matched
    rw [Fragment.text_text] at hothers ⊢
    rw [hfirst, hothers]

/-- A round that does not move forward counts once, with its value and with its text. -/
theorem Verbatim.repeated (hp : p.Verbatim) (least : Nat) : (p.repeated least).Verbatim := by
  refine ensures_repeated (P := fun _ s => Fragment.text s.value = s.matched) hp ?_ ?_ ?_ ?_ least
  · exact fun _ => rfl
  · intro input s hs _
    rw [Fragment.text_list, List.flatMap_singleton]
    exact hs
  · intro input s others hs _ hothers
    rw [Fragment.text_list] at hothers ⊢
    rw [List.flatMap_cons, hs, hothers]
  · exact fun _ _ _ _ _ => trivial

end Rules

end Parser

/-! ## Textual parsers -/

/-- The parsers that read characters and literals and put their texts together. -/
inductive Textual : {α : Type} → [Fragment α] → Parser src α → Prop where
  /-- A rule that is not followed any further. -/
  | undecided {α : Type} [Fragment α] : Textual (fun _ => .undecided : Parser src α)
  | satisfy (test : Char → Bool) : Textual (Parser.satisfy test)
  | literal (t : Text) : Textual (Parser.literal t)
  /-- A change of the value that keeps its text. -/
  | convert {α β : Type} [Fragment α] [Fragment β] {p : Parser src α} {f : α → β} :
      (∀ v, Fragment.text (f v) = Fragment.text v) → Textual p → Textual (p.map f)
  | label {α : Type} [Fragment α] {p : Parser src α} (description : String) :
      Textual p → Textual (p.label description)
  | cut {α : Type} [Fragment α] {p : Parser src α} : Textual p → Textual p.cut
  | orElse {α : Type} [Fragment α] {p q : Parser src α} :
      Textual p → Textual q → Textual (p.orElse q)
  | choice {α : Type} [Fragment α] {ps : List (Parser src α)} :
      (∀ p ∈ ps, Textual p) → Textual (Parser.choice ps)
  | concat {α : Type} [Fragment α] {ps : List (Parser src α)} :
      (∀ p ∈ ps, Textual p) → Textual (Parser.concat ps)
  | repeated {α : Type} [Fragment α] {p : Parser src α} (least : Nat) :
      Textual p → Textual (p.repeated least)
  | withDefault {α : Type} [Fragment α] {p : Parser src α} {default : α} :
      Fragment.text default = [] → Textual p → Textual (p.withDefault default)

namespace Textual

variable [Fragment α] {p : Parser src α}

theorem item : Textual (Parser.item : Parser src Char) := .satisfy _

theorem ofClass (k : CharClass) : Textual (Parser.ofClass k : Parser src Char) :=
  .label _ (.satisfy _)

theorem notOfClass (k : CharClass) : Textual (Parser.notOfClass k : Parser src Char) :=
  .label _ (.satisfy _)

theorem char (c : Char) : Textual (Parser.char c : Parser src Char) := .label _ (.satisfy _)

theorem notChar (c : Char) : Textual (Parser.notChar c : Parser src Char) := .label _ (.satisfy _)

theorem textOf (hp : Textual p) : Textual p.textOf := .convert (fun _ => Fragment.text_text _) hp

theorem collect (hp : Textual p) : Textual p.collect := hp.repeated 0

theorem collect1 (hp : Textual p) : Textual p.collect1 := hp.repeated 1

theorem many (hp : Textual p) : Textual p.many := hp.collect.textOf

theorem many1 (hp : Textual p) : Textual p.many1 := hp.collect1.textOf

theorem optional (hp : Textual p) : Textual p.optional :=
  .withDefault rfl (.convert (fun _ => rfl) hp)

theorem verbatim (h : Textual p) : p.Verbatim := by
  induction h with
  | undecided => exact fun _ => trivial
  | satisfy test => exact Parser.verbatim_satisfy test
  | literal t => exact Parser.verbatim_literal t
  | convert hf _ ih => exact ih.map hf
  | label description _ ih => exact ih.mapFailure _
  | cut _ ih => exact ih.mapFailure _
  | orElse _ _ ihp ihq => exact ihp.orElse ihq
  | choice _ ih => exact Parser.verbatim_choice ih
  | concat _ ih => exact Parser.verbatim_concat ih
  | repeated least _ ih => exact ih.repeated least
  | withDefault hdefault _ ih => exact ih.orElse (Parser.verbatim_succeed hdefault)

theorem built (h : Textual p) : Built [.cut] p := by
  induction h with
  | undecided => exact .undecided
  | satisfy test => exact .satisfy test
  | literal t => exact .literal t
  | convert _ _ ih => exact ih.map _
  | label description _ ih => exact ih.label description
  | cut _ ih => exact ih.cut List.mem_cons_self
  | orElse _ _ ihp ihq => exact ihp.orElse ihq
  | choice _ ih => exact .choice ih
  | concat _ ih => exact .concat ih
  | repeated least _ ih => exact ih.repeated least
  | withDefault _ _ ih => exact ih.withDefault _

end Textual

/-! ## Grammars -/

namespace Expr

/-- The expression itself, apart from its children, stands for a text. -/
def isTextual : Expr → Bool
  | item | ofClass _ | notOfClass _ | char _ | notChar _ | satisfy _ | literal _ => true
  | spaces | spaces1 | notSpaces | notSpaces1 => true
  | label _ _ | cut _ | orElse _ _ | choice _ | concat _ | rule _ => true
  | many _ | many1 _ | collect _ | collect1 _ | optional _ | textOf _ => true
  | withDefault e => (kind e).default.text.isEmpty
  | _ => false

/-- Expressions of textual parsers stand for textual parsers if the rules do. -/
theorem toParser_textual {rules : String → Parser src Value} (hrules : ∀ name, Textual (rules name))
    {e : Expr} (h : ∀ d ∈ e.parts, d.isTextual = true) : Textual (e.toParser rules) := by
  induction e using childInduction with
  | step e ih =>
    have hhead : e.isTextual = true := h e (mem_parts_self e)
    have hchild : ∀ c ∈ e.children, Textual (c.toParser rules) :=
      fun c hc => ih c hc fun d hd => h d (mem_parts_of_child hc hd)
    have hlist : ∀ es : List Expr, (∀ c ∈ es, Textual (c.toParser rules)) →
        ∀ p ∈ toParsers rules es, Textual p := by
      intro es hes p hp
      rw [toParsers_eq_map] at hp
      obtain ⟨c, hc, rfl⟩ := List.mem_map.1 hp
      exact hes c hc
    have hstr : ∀ t : Text, Fragment.text (Value.str t) = Fragment.text t :=
      fun t => (Fragment.text_text t).symm
    have hvalues : ∀ vs : List Value, Fragment.text (Value.list vs) = Fragment.text vs :=
      Value.texts_eq_flatMap
    clear ih h
    cases e with
    | item => exact .convert (fun _ => rfl) .item
    | ofClass k => exact .convert (fun _ => rfl) (.ofClass k)
    | notOfClass k => exact .convert (fun _ => rfl) (.notOfClass k)
    | char c => exact .convert (fun _ => rfl) (.char c)
    | notChar c => exact .convert (fun _ => rfl) (.notChar c)
    | satisfy test => exact .convert (fun _ => rfl) (.satisfy _)
    | spaces => exact .convert hstr (Textual.ofClass _).many
    | spaces1 => exact .convert hstr (.label _ (Textual.ofClass _).many1)
    | notSpaces => exact .convert hstr (Textual.satisfy _).many
    | notSpaces1 => exact .convert hstr (.label _ (Textual.satisfy _).many1)
    | literal t => exact .convert hstr (.literal t)
    | label description e => exact .label _ (hchild e List.mem_cons_self)
    | cut e => exact .cut (hchild e List.mem_cons_self)
    | orElse left right =>
      exact .orElse (hchild left (by simp [children])) (hchild right (by simp [children]))
    | choice es => exact .choice (hlist es hchild)
    | concat es => exact .convert hstr (.concat (hlist es hchild))
    | many e => exact .convert hstr (hchild e List.mem_cons_self).many
    | many1 e => exact .convert hstr (hchild e List.mem_cons_self).many1
    | collect e => exact .convert hvalues (hchild e List.mem_cons_self).collect
    | collect1 e => exact .convert hvalues (hchild e List.mem_cons_self).collect1
    | withDefault e => exact .withDefault (List.isEmpty_iff.1 hhead) (hchild e List.mem_cons_self)
    | optional e =>
      refine .convert (fun v => ?_) (hchild e List.mem_cons_self).optional
      cases v <;> rfl
    | textOf e => exact .convert hstr (hchild e List.mem_cons_self).textOf
    | rule name => exact hrules name
    | integer | number | quoted | endOfInput | succeed | default | fail | map | cutAfter | andThen
    | bind | sequence | sepBy | sepBy1 | between | program | peek | rewind => cases hhead

end Expr

namespace Grammar

variable {g : Grammar}

theorem rule_textual (hg : ∀ r ∈ g.rules, ∀ d ∈ r.2.parts, d.isTextual = true) (depth : Nat)
    (name : String) : Textual (g.rule depth name : Parser src Value) := by
  induction depth generalizing name with
  | zero => exact .undecided
  | succ depth ih =>
    rcases h : g.rules.lookup name with _ | e
    · rw [rule, h]
      -- A name without a rule is a choice of nothing.
      exact .choice fun p hp => absurd hp List.not_mem_nil
    · rw [rule_succ_of_lookup h]
      exact Expr.toParser_textual ih (hg _ (mem_of_lookup_eq_some h))

/-- A grammar of textual parsers stands for textual parsers, however its rules refer to each
other. -/
theorem parser_textual {e : Expr} (h : ∀ d ∈ g.parts e, d.isTextual = true) :
    Textual (g.parser e : Parser src Value) := by
  refine Expr.toParser_textual (rule_textual (fun r hr d hd => h d ?_) _) fun d hd => h d ?_
  · exact List.mem_append_right _ (List.mem_flatMap.2 ⟨r, hr, hd⟩)
  · exact List.mem_append_left _ hd

end Grammar

/-- **Nothing is lost, nothing is doubled.** The text of the value of a textual parser is the text
it matched, and that is the slice of the source from its input to its end. -/
theorem Textual.text_of_value_is_matched [Fragment α] {p : Parser src α} (h : Textual p)
    {input : Stream src} {s : Success src α} (hs : p input = .success s) :
    Fragment.text s.value = s.matched ∧ s.start = input ∧ s.matched = s.start.sliceTo s.next ∧
      s.span.slice? = some s.matched := by
  obtain ⟨rfl, hpasses⟩ := (h.built.spans input).of_success hs
  exact ⟨(h.verbatim _).of_success hs, rfl, hpasses.eq_sliceTo, hpasses.slice?_eq⟩

/-- Nested brackets around letters, with an optional part and a default, after a character of two
bytes. -/
theorem text_of_value_is_matched_in_brackets :
    let letters : Expr := .withDefault (.many1 (.ofClass .letter))
    let nest : Expr := .concat [.char '(', letters, .optional (.rule "nest"), .literal [')']]
    let g : Grammar := ⟨[("nest", nest)]⟩
    let input : Stream ⟨0, ['é', '(', 'a', 'b', '(', ')', ')', '!']⟩ :=
      ⟨['é'], ['(', 'a', 'b', '(', ')', ')', '!'], 2, rfl, rfl⟩
    ∃ s, g.parser (.collect (.rule "nest")) input = .success s ∧ s.next.rest = ['!'] ∧
      s.value.text = s.matched ∧ s.matched = s.start.sliceTo s.next := by
  intro letters nest g input
  have htextual : ∀ d ∈ g.parts (.collect (.rule "nest")), d.isTextual = true := by
    simp [g, nest, letters, Grammar.parts, Expr.parts_eq, Expr.children, Expr.isTextual, Expr.kind,
      Kind.default, Value.text]
  have hrest : ((g.parser (.collect (.rule "nest")) input).success?.map fun s => s.next.rest) =
      some ['!'] := by
    decide +kernel
  obtain ⟨s, hs, hnext⟩ := Option.map_eq_some_iff.1 hrest
  have hparse := Outcome.success?_eq_some_iff.1 hs
  obtain ⟨htext, -, hslice, -⟩ := (Grammar.parser_textual htextual).text_of_value_is_matched hparse
  exact ⟨s, hparse, hnext, htext, hslice⟩

end Descent
