import Descent.Parser.Choice
import Descent.Parser.Sequence
import Descent.Proofs.Merging

/-!
# Three ways to write alternatives

Alternatives can be given to `choice` as a list, or to `orElse` two at a time, grouped from the left
(`leftChain`) or from the right (`rightChain`).  As long as parsers decline, that is, fail without
being fatal, all three do the same: they merge the failures in order.  This is a run of `Declined`,
which takes the failure merged so far through a list of parsers.

The first parser that does not decline decides the rest.  `choice` gives its outcome as it is, while
the chains merge a failure with those before it.  So the three agree unless that parser fails
fatally without getting beyond the earlier failures (`choice_eq_chains`).
-/

namespace Descent

variable {src : Source} {α : Type}

theorem Outcome.mapFailure_mapFailure {σ : Type} (f g : Failure src → Failure src)
    (o : Outcome src σ) : (o.mapFailure g).mapFailure f = o.mapFailure (f ∘ g) := by
  cases o <;> rfl

theorem Outcome.exists_of_mapFailure_eq {σ : Type} {m : Failure src → Failure src}
    {o : Outcome src σ} {g : Failure src} (h : o.mapFailure m = .failure g) :
    ∃ f, o = .failure f ∧ m f = g := by
  cases o with
  | success s => cases h
  | failure f => exact ⟨f, rfl, Outcome.failure.inj h⟩
  | undecided => cases h

theorem Outcome.bind_eq_success_iff {σ τ : Type} {o : Outcome src σ} {next : σ → Outcome src τ}
    {t : τ} : (o >>= next) = .success t ↔ ∃ s, o = .success s ∧ next s = .success t := by
  cases o <;> simp

theorem Outcome.bind_eq_failure_iff {σ τ : Type} {o : Outcome src σ} {next : σ → Outcome src τ}
    {f : Failure src} :
    (o >>= next) = .failure f ↔ o = .failure f ∨ ∃ s, o = .success s ∧ next s = .failure f := by
  cases o <;> simp

namespace Parser

/-- Alternatives grouped from the left. -/
def leftChain (p : Parser src α) (ps : List (Parser src α)) : Parser src α := ps.foldl orElse p

/-- Alternatives grouped from the right. -/
def rightChain : Parser src α → List (Parser src α) → Parser src α
  | p, [] => p
  | p, q :: qs => orElse p (rightChain q qs)

/-- The parser fails, and not fatally. -/
def Declines (p : Parser src α) (input : Stream src) : Prop :=
  ∃ f, p input = .failure f ∧ f.fatal = false

variable {p q : Parser src α} {ps qs : List (Parser src α)} {input : Stream src}
  {f g : Failure src}

theorem declines_congr (h : p input = q input) : p.Declines input ↔ q.Declines input := by
  unfold Declines
  rw [h]

theorem not_declines_of_fatal (hp : p input = .failure f) (hf : f.fatal = true) :
    ¬ p.Declines input := by
  rintro ⟨g, hg, hfatal⟩
  obtain rfl := Outcome.failure.inj (hp.symm.trans hg)
  rw [hf] at hfatal
  cases hfatal

theorem not_declines_of_success {s : Success src α} (hp : p input = .success s) :
    ¬ p.Declines input := by
  rintro ⟨f, hf, -⟩
  rw [hp] at hf
  cases hf

theorem fatal_of_not_declines (hp : ¬ p.Declines input) (hf : p input = .failure f) :
    f.fatal = true := by
  cases h : f.fatal with
  | true => rfl
  | false => exact absurd ⟨f, hf, h⟩ hp

/-- What does not decline is not recovered from. -/
theorem recover_of_not_declines (hp : ¬ p.Declines input)
    (resume : Failure src → Outcome src (Success src α)) :
    (p input).recover resume = p input := by
  rcases h : p input with s | f | _
  · rw [Outcome.recover_success]
  · rw [Outcome.recover_failure_of_fatal _ (fatal_of_not_declines hp h)]
  · rw [Outcome.recover_undecided]

theorem orElse_of_not_declines (hp : ¬ p.Declines input) : orElse p q input = p input :=
  recover_of_not_declines hp _

theorem leftChain_of_not_declines (hp : ¬ p.Declines input) : leftChain p ps input = p input := by
  induction ps generalizing p with
  | nil => rfl
  | cons q ps ih =>
    have hfirst : orElse p q input = p input := orElse_of_not_declines hp
    have hboth : ¬ (orElse p q).Declines input := (not_congr (declines_congr hfirst)).2 hp
    exact (ih hboth).trans hfirst

theorem rightChain_of_not_declines (hp : ¬ p.Declines input) :
    rightChain p ps input = p input := by
  cases ps with
  | nil => rfl
  | cons q ps => exact orElse_of_not_declines hp

/-! ## Parsers that decline -/

/-- The parsers all decline, and merging their failures in order takes `f` to `g`. -/
inductive Declined (input : Stream src) :
    Failure src → List (Parser src α) → Failure src → Prop where
  | nil (f : Failure src) : Declined input f [] f
  | cons {f g h : Failure src} {p : Parser src α} {ps : List (Parser src α)} :
      p input = .failure g → g.fatal = false → Declined input (f.merge g) ps h →
      Declined input f (p :: ps) h

theorem exists_declined (hps : ∀ p ∈ ps, p.Declines input) (f : Failure src) :
    ∃ g, Declined input f ps g := by
  induction ps generalizing f with
  | nil => exact ⟨f, .nil f⟩
  | cons p ps ih =>
    obtain ⟨e, he, hfatal⟩ := hps p List.mem_cons_self
    obtain ⟨g, hg⟩ := ih (fun q hq => hps q (List.mem_cons_of_mem _ hq)) (f.merge e)
    exact ⟨g, .cons he hfatal hg⟩

namespace Declined

theorem fatal_eq_false (h : Declined input f ps g) (hf : f.fatal = false) : g.fatal = false := by
  induction h with
  | nil f => exact hf
  | cons _ hg _ ih => exact ih (Failure.fatal_merge_eq_false hf hg)

/-- The merged failure is before a place just if all the failures are. -/
theorem cursor_lt_iff (h : Declined input f ps g) (n : Nat) :
    g.cursor < n ↔ f.cursor < n ∧ ∀ p ∈ ps, ∀ e, p input = .failure e → e.cursor < n := by
  induction h with
  | nil f => simp
  | cons he _ _ ih =>
    rw [ih, Failure.cursor_merge_lt_iff]
    simp [he, and_assoc]

/-- What was merged in front can be merged in at the end. -/
theorem of_merge {e : Failure src} (h : Declined input (e.merge f) ps g) :
    ∃ g', Declined input f ps g' ∧ g = e.merge g' := by
  generalize hef : e.merge f = ef at h
  induction h generalizing f with
  | nil => exact ⟨f, .nil f, hef.symm⟩
  | cons hk hfatal _ ih =>
    subst hef
    obtain ⟨g', hg', rfl⟩ := ih (Failure.merge_assoc _ _ _).symm
    exact ⟨g', .cons hk hfatal hg', rfl⟩

theorem choiceAfter_append (h : Declined input f ps g) :
    choiceAfter f (ps ++ qs) input = choiceAfter g qs input := by
  induction h with
  | nil => rfl
  | cons he hfatal _ ih =>
    rw [List.cons_append, choiceAfter_cons, he, Outcome.recover_failure _ hfatal]
    exact ih

theorem choice_append (h : Declined input f ps g) (hp : p input = .failure f)
    (hf : f.fatal = false) : choice (p :: (ps ++ qs)) input = choiceAfter g qs input := by
  rw [choice_cons, hp, Outcome.recover_failure _ hf, h.choiceAfter_append]

theorem choice_eq (h : Declined input f ps g) (hp : p input = .failure f) (hf : f.fatal = false) :
    choice (p :: ps) input = .failure g := by
  have happend : choice (p :: (ps ++ [])) input = choiceAfter g [] input := h.choice_append hp hf
  rwa [List.append_nil, choiceAfter_nil] at happend

theorem leftChain_eq (h : Declined input f ps g) (hp : p input = .failure f)
    (hf : f.fatal = false) : leftChain p ps input = .failure g := by
  induction h generalizing p with
  | nil => exact hp
  | @cons f e _ q _ he hfatal _ ih =>
    have hboth : orElse p q input = .failure (f.merge e) := by
      rw [orElse_of_failure hp hf, he, Outcome.mapFailure_failure]
    exact ih hboth (Failure.fatal_merge_eq_false hf hfatal)

theorem rightChain_eq (h : Declined input f ps g) (hp : p input = .failure f)
    (hf : f.fatal = false) : rightChain p ps input = .failure g := by
  induction ps generalizing p f g with
  | nil =>
    cases h
    exact hp
  | cons q ps ih =>
    obtain - | ⟨he, hfatal, h⟩ := h
    obtain ⟨g', hg', rfl⟩ := h.of_merge
    rw [rightChain, orElse_of_failure hp hf, ih hg' he hfatal, Outcome.mapFailure_failure]

/-- A chain from the right merges the failures of what declined into what comes after. -/
theorem rightChain_append (h : Declined input f ps g) (hp : p input = .failure f)
    (hf : f.fatal = false) :
    rightChain p (ps ++ q :: qs) input = (rightChain q qs input).mapFailure g.merge := by
  induction ps generalizing p f g with
  | nil =>
    cases h
    exact orElse_of_failure hp hf
  | cons r ps ih =>
    obtain - | ⟨he, hfatal, h⟩ := h
    obtain ⟨g', hg', rfl⟩ := h.of_merge
    have hmerge : (f.merge g').merge = f.merge ∘ g'.merge :=
      funext fun k => Failure.merge_assoc f g' k
    rw [List.cons_append, rightChain, orElse_of_failure hp hf, ih hg' he hfatal,
      Outcome.mapFailure_mapFailure, hmerge]

end Declined

/-- Parsers that all decline have a merged failure, which gets as far as the furthest of theirs. -/
theorem exists_merged (hps : ∀ r ∈ p :: ps, r.Declines input) :
    ∃ f g, p input = .failure f ∧ f.fatal = false ∧ Declined input f ps g ∧ g.fatal = false ∧
      ∀ n, g.cursor < n ↔ ∀ r ∈ p :: ps, ∀ e, r input = .failure e → e.cursor < n := by
  obtain ⟨f, hp, hf⟩ := hps p List.mem_cons_self
  obtain ⟨g, hg⟩ := exists_declined (fun r hr => hps r (List.mem_cons_of_mem _ hr)) f
  refine ⟨f, g, hp, hf, hg, hg.fatal_eq_false hf, fun n => ?_⟩
  rw [hg.cursor_lt_iff, List.forall_mem_cons]
  simp [hp]

/-- If everything declines, the three ways to write alternatives give the same failure. -/
theorem chains_of_declines (hps : ∀ q ∈ p :: ps, q.Declines input) :
    leftChain p ps input = choice (p :: ps) input ∧
      rightChain p ps input = choice (p :: ps) input := by
  obtain ⟨f, g, hp, hf, hg, -, -⟩ := exists_merged hps
  rw [hg.choice_eq hp hf]
  exact ⟨hg.leftChain_eq hp hf, hg.rightChain_eq hp hf⟩

/-! ## The first parser that does not decline -/

/-- A choice gives the outcome of the first parser that does not decline. -/
theorem choice_of_not_declines {before : List (Parser src α)}
    (hbefore : ∀ r ∈ before, r.Declines input) (hp : ¬ p.Declines input)
    (after : List (Parser src α)) : choice (before ++ p :: after) input = p input := by
  cases before with
  | nil => exact recover_of_not_declines hp _
  | cons q before =>
    obtain ⟨f, g, hq, hf, hg, -, -⟩ := exists_merged hbefore
    rw [List.cons_append, hg.choice_append hq hf]
    exact recover_of_not_declines hp _

theorem leftChain_append_cons (p q : Parser src α) (ps qs : List (Parser src α)) :
    leftChain p (ps ++ q :: qs) = leftChain (orElse (leftChain p ps) q) qs := List.foldl_append ..

/-- A chain from the left goes on from a failure that is not fatal; what makes it fail fatally after
all lies further on. -/
theorem cursor_lt_of_leftChain_fatal (hp : p input = .failure f) (hf : f.fatal = false)
    (h : leftChain p ps input = .failure g) (hg : g.fatal = true) : f.cursor < g.cursor := by
  induction ps generalizing p f with
  | nil =>
    obtain rfl : f = g := Outcome.failure.inj (hp.symm.trans h)
    rw [hf] at hg
    cases hg
  | cons q ps ih =>
    have hboth : orElse p q input = (q input).mapFailure f.merge := orElse_of_failure hp hf
    by_cases hdeclines : (orElse p q).Declines input
    · obtain ⟨e, he, hfatal⟩ := hdeclines
      have hlater : e.cursor < g.cursor := ih he hfatal h
      obtain ⟨k, -, rfl⟩ := Outcome.exists_of_mapFailure_eq (hboth.symm.trans he)
      exact ((Failure.cursor_merge_lt_iff f k _).1 hlater).1
    · have hstop : orElse p q input = .failure g :=
        (leftChain_of_not_declines hdeclines).symm.trans h
      obtain ⟨k, -, rfl⟩ := Outcome.exists_of_mapFailure_eq (hboth.symm.trans hstop)
      -- Merging can only give a fatal failure by giving the later one.
      rcases Nat.lt_or_ge f.cursor k.cursor with hlt | hle
      · rwa [Failure.merge_of_lt hlt]
      · rw [Failure.fatal_merge_of_le hle, hf] at hg
        cases hg

/-- Where the first parser that does not decline succeeds, or fails further on than those before it,
all three ways to write alternatives give its outcome. -/
theorem chains_of_beyond {before after : List (Parser src α)}
    (hsplit : p :: ps = before ++ q :: after) (hbefore : ∀ r ∈ before, r.Declines input)
    (hq : ¬ q.Declines input)
    (hbeyond : ∀ f, q input = .failure f →
      ∀ r ∈ before, ∀ g, r input = .failure g → g.cursor < f.cursor) :
    leftChain p ps input = q input ∧ rightChain p ps input = q input ∧
      choice (p :: ps) input = q input := by
  have hchoice : choice (p :: ps) input = q input :=
    hsplit ▸ choice_of_not_declines hbefore hq after
  obtain - | ⟨p', before⟩ := before
  · obtain ⟨rfl, rfl⟩ := List.cons.inj hsplit
    exact ⟨leftChain_of_not_declines hq, rightChain_of_not_declines hq, hchoice⟩
  · rw [List.cons_append] at hsplit
    obtain ⟨rfl, rfl⟩ := List.cons.inj hsplit
    obtain ⟨f, g, hp, hf, hg, hgfatal, hgcursor⟩ := exists_merged hbefore
    have hmerge : (q input).mapFailure g.merge = q input := by
      rcases hk : q input with s | k | _
      · rfl
      · rw [Outcome.mapFailure_failure, Failure.merge_of_lt ((hgcursor _).2 (hbeyond k hk))]
      · rfl
    have hstop : orElse (leftChain p before) q input = q input := by
      rw [orElse_of_failure (hg.leftChain_eq hp hf) hgfatal, hmerge]
    have hnot : ¬ (orElse (leftChain p before) q).Declines input :=
      (not_congr (declines_congr hstop)).2 hq
    refine ⟨?_, ?_, hchoice⟩
    · rw [leftChain_append_cons, leftChain_of_not_declines hnot, hstop]
    · rw [hg.rightChain_append hp hf, rightChain_of_not_declines hq, hmerge]

/-- Where the first parser that does not decline fails without getting beyond some failure before
it, only `choice` gives its failure. -/
theorem chains_of_overtaken {before after : List (Parser src α)}
    (hsplit : p :: ps = before ++ q :: after) (hbefore : ∀ r ∈ before, r.Declines input)
    (hq : ¬ q.Declines input) {f : Failure src} (hf : q input = .failure f)
    {r : Parser src α} (hr : r ∈ before) {e : Failure src} (he : r input = .failure e)
    (hle : f.cursor ≤ e.cursor) :
    choice (p :: ps) input = .failure f ∧ (rightChain p ps).Declines input ∧
      leftChain p ps input ≠ .failure f := by
  have hfatal : f.fatal = true := fatal_of_not_declines hq hf
  have hchoice : choice (p :: ps) input = .failure f := by
    rw [hsplit, choice_of_not_declines hbefore hq, hf]
  obtain - | ⟨p', before⟩ := before
  · cases hr
  · rw [List.cons_append] at hsplit
    obtain ⟨rfl, rfl⟩ := List.cons.inj hsplit
    obtain ⟨k, g, hp, hk, hg, hgfatal, hgcursor⟩ := exists_merged hbefore
    have hfg : f.cursor ≤ g.cursor := by
      refine Nat.not_lt.1 fun hlt => ?_
      have hef : e.cursor < f.cursor := (hgcursor f.cursor).1 hlt r hr e he
      omega
    have hmerged : (g.merge f).fatal = false := by rw [Failure.fatal_merge_of_le hfg, hgfatal]
    refine ⟨hchoice, ⟨g.merge f, ?_, hmerged⟩, ?_⟩
    · rw [hg.rightChain_append hp hk, rightChain_of_not_declines hq, hf, Outcome.mapFailure_failure]
    · intro hleft
      have hboth : orElse (leftChain p before) q input = .failure (g.merge f) := by
        rw [orElse_of_failure (hg.leftChain_eq hp hk) hgfatal, hf, Outcome.mapFailure_failure]
      rw [leftChain_append_cons] at hleft
      have hlater := cursor_lt_of_leftChain_fatal hboth hmerged hleft hfatal
      rw [Failure.cursor_merge_lt_iff] at hlater
      omega

/-- **Choice and chains.** `choice` and the two chains of `orElse` give the same outcome if all
alternatives decline, and also if the first that does not decline succeeds, is the first of all, or
fails at a place beyond all failures before it.  In the remaining case `choice` gives that fatal
failure, the chain from the right fails but not fatally, and the chain from the left does not give
that failure either. -/
theorem choice_eq_chains (p : Parser src α) (ps : List (Parser src α)) (input : Stream src) :
    ((∀ q ∈ p :: ps, q.Declines input) →
      leftChain p ps input = choice (p :: ps) input ∧
        rightChain p ps input = choice (p :: ps) input) ∧
    ∀ before q after, p :: ps = before ++ q :: after → (∀ r ∈ before, r.Declines input) →
      ¬ q.Declines input →
      ((∀ f, q input = .failure f →
          ∀ r ∈ before, ∀ g, r input = .failure g → g.cursor < f.cursor) →
        leftChain p ps input = choice (p :: ps) input ∧
          rightChain p ps input = choice (p :: ps) input) ∧
      (∀ f, q input = .failure f →
        (∃ r ∈ before, ∃ g, r input = .failure g ∧ f.cursor ≤ g.cursor) →
        f.fatal = true ∧ choice (p :: ps) input = .failure f ∧ (rightChain p ps).Declines input ∧
          leftChain p ps input ≠ choice (p :: ps) input) := by
  refine ⟨chains_of_declines, fun before q after hsplit hbefore hq => ⟨fun hbeyond => ?_, ?_⟩⟩
  · obtain ⟨hleft, hright, hchoice⟩ := chains_of_beyond hsplit hbefore hq hbeyond
    exact ⟨hleft.trans hchoice.symm, hright.trans hchoice.symm⟩
  · rintro f hf ⟨r, hr, g, hg, hle⟩
    obtain ⟨hchoice, hright, hleft⟩ := chains_of_overtaken hsplit hbefore hq hf hr hg hle
    rw [hchoice]
    exact ⟨fatal_of_not_declines hq hf, rfl, hright, hleft⟩

/-- On `ab`: a fatal failure beyond the one before it, and one that is overtaken. -/
theorem choice_eq_chains_on_ab :
    let src : Source := ⟨0, ['a', 'b']⟩
    let start : Stream src := .first src
    let shallow : Parser src Char := char 'y'
    let deep : Parser src Char := (char 'a').andThen (char 'x')
    let committed : Parser src Char := (char 'a').cutAfter (char 'x')
    let early : Parser src Char := (char 'z').cut
    (leftChain shallow [committed, item] start = choice [shallow, committed, item] start ∧
      rightChain shallow [committed, item] start = choice [shallow, committed, item] start) ∧
    choice [deep, early, item] start = .failure ⟨start, ["the character \"z\""], true⟩ ∧
      (rightChain deep [early, item]).Declines start ∧
      leftChain deep [early, item] start ≠ choice [deep, early, item] start := by
  intro src start shallow deep committed early
  let second : Stream src := ⟨['a'], ['b'], 1, rfl, rfl⟩
  have hshallow : shallow start = .failure ⟨start, ["the character \"y\""], false⟩ := rfl
  have hdeep : deep start = .failure ⟨second, ["the character \"x\""], false⟩ := rfl
  have hcommitted : committed start = .failure ⟨second, ["the character \"x\""], true⟩ := rfl
  have hearly : early start = .failure ⟨start, ["the character \"z\""], true⟩ := rfl
  constructor
  · refine ((choice_eq_chains shallow [committed, item] start).2 [shallow] committed [item] rfl ?_
      (not_declines_of_fatal hcommitted rfl)).1 ?_
    · intro r hr
      obtain rfl := List.mem_singleton.1 hr
      exact ⟨_, hshallow, rfl⟩
    · intro f hf r hr g hg
      obtain rfl := List.mem_singleton.1 hr
      obtain rfl := Outcome.failure.inj (hcommitted.symm.trans hf)
      obtain rfl := Outcome.failure.inj (hshallow.symm.trans hg)
      decide
  · refine (((choice_eq_chains deep [early, item] start).2 [deep] early [item] rfl ?_
      (not_declines_of_fatal hearly rfl)).2 _ hearly ⟨deep, List.mem_cons_self, _, hdeep, ?_⟩).2
    · intro r hr
      obtain rfl := List.mem_singleton.1 hr
      exact ⟨_, hdeep, rfl⟩
    · decide

end Parser

end Descent
