import Descent.Proofs.Peg
import Descent.Proofs.Recovery

/-!
# Agreement with parsing expressions

An outcome agrees with a parsing expression on a text if it leaves what the expression leaves, fails
where the expression fails and is undecided where nothing can be derived (`Outcome.Agrees`).  A
parser implements a parsing expression if all its outcomes agree with it (`Parser.Implements`).
There is one rule for each combinator.

The rules for alternatives and repetitions need that failures are not fatal (`Parser.Recoverable`),
and the rules for repetitions need that every round moves forward (`Parser.Advances`): a round that
does not would end a repetition, while a parsing expression would repeat it for ever.
-/

namespace Descent

variable {src : Source} {α β γ ι : Type} {rules : String → Text → Option Text → Prop}

namespace Outcome

/-- What an outcome leaves to be read, where `none` stands for a failure. -/
def left : Outcome src (Success src α) → Option (Option Text)
  | success s => some (some s.next.rest)
  | failure _ => some none
  | undecided => none

/-- The outcome is what the parsing expression does on the text. -/
def Agrees (rules : String → Text → Option Text → Prop) (o : Outcome src (Success src α))
    (e : Peg) (w : Text) : Prop :=
  ∀ r, e.Derives rules w r ↔ o.left = some r

variable {o : Outcome src (Success src α)} {o' : Outcome src (Success src β)}
  {s : Success src α} {f : Failure src} {e e' : Peg} {w : Text} {r : Option Text}

theorem agrees_success_iff : (success s).Agrees rules e w ↔
    ∀ r, e.Derives rules w r ↔ r = some s.next.rest := by
  simp [Agrees, left, eq_comm]

theorem agrees_failure_iff : (failure f : Outcome src (Success src α)).Agrees rules e w ↔
    ∀ r, e.Derives rules w r ↔ r = none := by
  simp [Agrees, left, eq_comm]

theorem agrees_undecided_iff : (undecided : Outcome src (Success src α)).Agrees rules e w ↔
    ∀ r, ¬ e.Derives rules w r := by
  simp [Agrees, left]

/-- Only what is left counts. -/
theorem Agrees.of_left_eq (h : o.Agrees rules e w) (heq : o'.left = o.left) :
    o'.Agrees rules e w := by
  intro r
  rw [h r, heq]

theorem left_bind_pure {g : Success src α → Success src β} (hg : ∀ s, (g s).next = s.next) :
    (o >>= fun s => pure (g s)).left = o.left := by
  cases o with
  | success s => simp [left, hg]
  | failure f => rfl
  | undecided => rfl

theorem left_mapFailure (g : Failure src → Failure src) : (o.mapFailure g).left = o.left := by
  cases o <;> rfl

theorem Agrees.bind {next : Success src α → Outcome src (Success src β)} (h : o.Agrees rules e w)
    (hnext : ∀ s, o = .success s → (next s).Agrees rules e' s.next.rest) :
    (o >>= next).Agrees rules (.seq e e') w := by
  intro r
  rw [Peg.derives_seq_iff]
  cases o with
  | success s =>
    rw [agrees_success_iff] at h
    simp [h, hnext s rfl r]
  | failure f =>
    rw [agrees_failure_iff] at h
    simp [h, left, eq_comm]
  | undecided =>
    rw [agrees_undecided_iff] at h
    simp [h, left]

theorem Agrees.recover {resume : Failure src → Outcome src (Success src α)}
    (h : o.Agrees rules e w) (hfatal : o.Ensures (fun _ => True) fun f => f.fatal = false)
    (hresume : ∀ f, (resume f).Agrees rules e' w) :
    (o.recover resume).Agrees rules (.alt e e') w := by
  intro r
  rw [Peg.derives_alt_iff]
  cases o with
  | success s =>
    rw [agrees_success_iff] at h
    simp [h, left, eq_comm]
  | failure f =>
    rw [agrees_failure_iff] at h
    rw [recover_failure _ hfatal]
    simp [h, hresume f r]
  | undecided =>
    rw [agrees_undecided_iff] at h
    simp [h, left]

end Outcome

namespace Parser

/-- The parser does what the parsing expression does, wherever it stands. -/
def Implements (rules : String → Text → Option Text → Prop) (p : Parser src α) (e : Peg) : Prop :=
  ∀ input, (p input).Agrees rules e input.rest

/-- The parser never succeeds without moving forward. -/
def Advances (p : Parser src α) : Prop :=
  ∀ input, (p input).Ensures (fun s => input.cursor < s.next.cursor) fun _ => True

variable {p q : Parser src α} {e e' : Peg}

/-! ## One step -/

theorem implements_succeedWith (value : α) (matched : Text) :
    (succeedWith value matched : Parser src α).Implements rules .empty := by
  intro input
  rw [succeedWith_apply, Outcome.agrees_success_iff]
  exact fun r => Peg.derives_empty_iff

theorem implements_fail : (fail : Parser src α).Implements rules .fail := by
  intro input
  rw [fail_apply, Outcome.agrees_failure_iff]
  exact fun r => Peg.derives_fail_iff

theorem implements_endOfInput : (endOfInput : Parser src Unit).Implements rules .endOfInput := by
  intro input
  unfold Peg.endOfInput Peg.any
  rcases hrest : input.rest with _ | ⟨c, w⟩
  · rw [endOfInput_of_rest_eq_nil hrest, Outcome.agrees_success_iff]
    simp [Peg.derives_not_iff, Peg.derives_one_nil_iff, hrest]
  · have hne : input.rest ≠ [] := by rw [hrest]; exact List.cons_ne_nil c w
    rw [endOfInput_of_rest_ne_nil hne, Outcome.agrees_failure_iff]
    simp [Peg.derives_not_iff, Peg.derives_one_cons_iff]

theorem implements_satisfy (test : Char → Bool) :
    (satisfy test : Parser src Char).Implements rules (.one test) := by
  intro input
  rcases hrest : input.rest with _ | ⟨c, w⟩
  · rw [satisfy_of_uncons_eq_none ((Stream.uncons_eq_none_iff input).2 hrest),
      Outcome.agrees_failure_iff]
    exact fun r => Peg.derives_one_nil_iff
  · obtain ⟨next, huncons, rfl⟩ := Stream.exists_uncons_of_rest hrest
    rw [satisfy_of_uncons_eq_some huncons]
    by_cases hc : test c = true
    · rw [if_pos hc, Outcome.agrees_success_iff]
      simp [Peg.derives_one_cons_iff, hc]
    · rw [if_neg hc, Outcome.agrees_failure_iff]
      simp [Peg.derives_one_cons_iff, hc]

theorem advances_satisfy (test : Char → Bool) : (satisfy test : Parser src Char).Advances := by
  intro input
  rcases huncons : input.uncons with _ | ⟨c, next⟩
  · rw [satisfy_of_uncons_eq_none huncons]
    trivial
  · rw [satisfy_of_uncons_eq_some huncons]
    split
    · show input.cursor < next.cursor
      rw [Stream.cursor_of_uncons huncons]
      have := c.utf8Size_pos
      omega
    · trivial

theorem Implements.map (hp : p.Implements rules e) (g : α → β) :
    (p.map g).Implements rules e := fun input =>
  (hp input).of_left_eq (Outcome.left_bind_pure fun _ => rfl)

theorem Implements.label (hp : p.Implements rules e) (description : String) :
    (p.label description).Implements rules e := fun input =>
  (hp input).of_left_eq (Outcome.left_mapFailure _)

theorem Advances.map (hp : p.Advances) (g : α → β) : (p.map g).Advances := fun input =>
  (hp input).bind fun _ hs => hs

theorem Advances.label (hp : p.Advances) (description : String) :
    (p.label description).Advances := fun input => (hp input).mapFailure fun _ hf => hf

theorem Recoverable.map (hp : p.Recoverable) (g : α → β) : (p.map g).Recoverable := fun input =>
  (hp input).bind fun _ hs => hs

/-! ## Sequences -/

theorem Implements.bind (hp : p.Implements rules e) {next : α → Stream src → Parser src β}
    (hnext : ∀ value start, (next value start).Implements rules e') :
    (p.bind next).Implements rules (.seq e e') := fun input =>
  (hp input).bind fun first _ =>
    (hnext first.value input first.next).of_left_eq (Outcome.left_bind_pure fun _ => rfl)

theorem Implements.between {opening : Parser src β} {closing : Parser src γ} {o c : Peg}
    (hopening : opening.Implements rules o) (hp : p.Implements rules e)
    (hclosing : closing.Implements rules c) :
    (opening.between p closing).Implements rules (.seq o (.seq e c)) := fun input =>
  (hopening input).bind fun first _ => (hp first.next).bind fun middle _ =>
    (hclosing middle.next).of_left_eq (Outcome.left_bind_pure fun _ => rfl)

theorem implements_continueWith {is : List ι} {f : ι → Parser src α} {q : ι → Peg}
    (h : ∀ i ∈ is, (f i).Implements rules (q i)) (done : Success src α) :
    (continueWith done (is.map f)).Agrees rules (.seqs (is.map q)) done.next.rest := by
  induction is generalizing done with
  | nil =>
    rw [List.map_nil, List.map_nil, continueWith, Outcome.agrees_success_iff]
    exact fun r => Peg.derives_empty_iff
  | cons i is ih =>
    obtain ⟨hi, his⟩ := List.forall_mem_cons.1 h
    exact (hi done.next).bind fun step _ => ih his _

theorem implements_sequence {is : List ι} {f : ι → Parser src α} {q : ι → Peg}
    (h : ∀ i ∈ is, (f i).Implements rules (q i)) (empty : α) :
    (sequence empty (is.map f)).Implements rules (.seqs (is.map q)) := fun _ =>
  implements_continueWith h _

theorem implements_concat [Fragment α] {is : List ι} {f : ι → Parser src α} {q : ι → Peg}
    (h : ∀ i ∈ is, (f i).Implements rules (q i)) :
    (concat (is.map f)).Implements rules (.seqs (is.map q)) := by
  induction is with
  | nil => exact implements_succeedWith _ _
  | cons i is ih =>
    obtain ⟨hi, his⟩ := List.forall_mem_cons.1 h
    rw [List.map_cons, concat_cons]
    exact hi.bind fun _ _ => (ih his).map _

/-- What is left after a text was followed is what its characters leave, one after the other. -/
theorem derives_literal_iff (t : Text) (input : Stream src) (r : Option Text) :
    (Peg.literal t).Derives rules input.rest r ↔ r = (follow t input).toOption.map (·.rest) := by
  induction t generalizing input with
  | nil => exact Peg.derives_empty_iff
  | cons c t ih =>
    unfold Peg.literal
    rw [Peg.derives_seq_iff]
    rcases hrest : input.rest with _ | ⟨d, w⟩
    · rw [follow_of_uncons_eq_none ((Stream.uncons_eq_none_iff input).2 hrest)]
      simp [Peg.derives_one_nil_iff, Except.toOption]
    · obtain ⟨next, huncons, rfl⟩ := Stream.exists_uncons_of_rest hrest
      rw [follow_of_uncons_eq_some huncons]
      by_cases hd : d = c
      · simp [Peg.derives_one_cons_iff, hd, ih]
      · simp [Peg.derives_one_cons_iff, hd, Except.toOption]

theorem implements_literal (t : Text) :
    (literal t : Parser src Text).Implements rules (.literal t) := by
  intro input
  unfold literal
  rcases hfollow : follow t input with place | next
  · rw [Outcome.agrees_failure_iff]
    intro r
    rw [derives_literal_iff, hfollow]
    rfl
  · rw [Outcome.agrees_success_iff]
    intro r
    rw [derives_literal_iff, hfollow]
    rfl

/-! ## Alternatives -/

theorem Implements.orElse (hp : p.Implements rules e) (hrecoverable : p.Recoverable)
    (hq : q.Implements rules e') : (p.orElse q).Implements rules (.alt e e') := fun input =>
  (hp input).recover (hrecoverable input) fun _ =>
    (hq input).of_left_eq (Outcome.left_mapFailure _)

theorem Implements.withDefault (hp : p.Implements rules e) (hrecoverable : p.Recoverable)
    (default : α) : (p.withDefault default).Implements rules e.opt :=
  hp.orElse hrecoverable (implements_succeedWith _ _)

theorem Implements.optional (hp : p.Implements rules e) (hrecoverable : p.Recoverable) :
    p.optional.Implements rules e.opt :=
  (hp.map some).withDefault (hrecoverable.map some) none

theorem implements_choiceAfter {is : List ι} {f : ι → Parser src α} {q : ι → Peg}
    (h : ∀ i ∈ is, (f i).Implements rules (q i)) (hrecoverable : ∀ i ∈ is, (f i).Recoverable)
    (earlier : Failure src) :
    (choiceAfter earlier (is.map f)).Implements rules (.alts (is.map q)) := by
  intro input
  induction is generalizing earlier with
  | nil =>
    rw [List.map_nil, choiceAfter_nil, Outcome.agrees_failure_iff]
    exact fun r => Peg.derives_fail_iff
  | cons i is ih =>
    obtain ⟨hi, his⟩ := List.forall_mem_cons.1 h
    obtain ⟨hri, hris⟩ := List.forall_mem_cons.1 hrecoverable
    exact (hi input).recover (hri input) fun _ => ih his hris _

theorem implements_choice {is : List ι} {f : ι → Parser src α} {q : ι → Peg}
    (h : ∀ i ∈ is, (f i).Implements rules (q i)) (hrecoverable : ∀ i ∈ is, (f i).Recoverable) :
    (choice (is.map f)).Implements rules (.alts (is.map q)) := by
  intro input
  cases is with
  | nil => exact implements_fail input
  | cons i is =>
    obtain ⟨hi, his⟩ := List.forall_mem_cons.1 h
    obtain ⟨hri, hris⟩ := List.forall_mem_cons.1 hrecoverable
    exact (hi input).recover (hri input) fun _ => implements_choiceAfter his hris _ input

/-! ## Repetitions -/

section Repetition

variable (hp : p.Implements rules e) (hrecoverable : p.Recoverable) (hadvances : p.Advances)
include hp hrecoverable hadvances

/-- A repetition is greedy: it reads like a star. -/
theorem Implements.collect : p.collect.Implements rules e.star := by
  have hgeneral : ∀ least input, least = 0 →
      (repeated least p input).Agrees rules e.star input.rest := by
    intro least input hleast
    induction least, input using repeatedInduction (p := p) with
    | advance least input s hs _ ih =>
      have hround := hp input
      rw [hs, Outcome.agrees_success_iff] at hround
      have hothers : (repeated (least - 1) p s.next).Agrees rules e.star input.rest := by
        intro r
        rw [← ih (by omega) r, Peg.derives_star_iff]
        simp [hround]
      exact hothers.of_left_eq (Outcome.left_bind_pure fun _ => rfl)
    | halt least input s hs hle =>
      have := (hadvances input).of_success hs
      omega
    | failure least input f hf hcause =>
      rcases hcause with hfatal | hleast'
      · rw [(hrecoverable input).of_failure hf] at hfatal
        cases hfatal
      · omega
    | finish input f hf hfatal =>
      have hround := hp input
      rw [hf, Outcome.agrees_failure_iff] at hround
      rw [Outcome.agrees_success_iff]
      intro r
      rw [Peg.derives_star_iff]
      simp [hround]
    | undecided least input hundecided =>
      have hround := hp input
      rw [hundecided, Outcome.agrees_undecided_iff] at hround
      rw [Outcome.agrees_undecided_iff]
      intro r
      rw [Peg.derives_star_iff]
      simp [hround]
  exact fun input => hgeneral 0 input rfl

theorem Implements.collect1 : p.collect1.Implements rules e.plus := by
  intro input
  have hstar := hp.collect hrecoverable hadvances
  unfold Parser.collect1
  refine ((hp input).bind fun s _ => hstar s.next).of_left_eq ?_
  rcases h : p input with s | f | _
  · rw [repeated_of_advance h ((hadvances input).of_success h)]
    exact Outcome.left_bind_pure fun _ => rfl
  · rw [repeated_of_failure h (.inr Nat.zero_lt_one)]
    rfl
  · rw [repeated_of_undecided h]
    rfl

theorem Implements.many [Fragment α] : p.many.Implements rules e.star :=
  (hp.collect hrecoverable hadvances).map _

theorem Implements.many1 [Fragment α] : p.many1.Implements rules e.plus :=
  (hp.collect1 hrecoverable hadvances).map _

end Repetition

/-- One round of a list is a separator and an item. -/
theorem Implements.sepBy1 {separator : Parser src β} (hp : p.Implements rules e)
    (hseparator : separator.Implements rules e') (hrecoverable : (separator.andThen p).Recoverable)
    (hadvances : (separator.andThen p).Advances) :
    (p.sepBy1 separator).Implements rules (.seq e (.star (.seq e' e))) :=
  hp.bind fun _ _ =>
    ((hseparator.bind fun _ _ => hp).collect hrecoverable hadvances).map _

end Parser

end Descent
