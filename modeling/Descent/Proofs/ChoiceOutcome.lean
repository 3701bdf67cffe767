import Descent.Proofs.Alternatives

/-!
# The outcome of alternatives

What alternatives give depends only on what each of them gives at the input.  The first one that
does not decline decides a choice.  If all decline, the outcome is the failure that sums up theirs,
however the alternatives are grouped (`exists_sumsUp`).

So a choice has a closed form (`choice_outcomes`).  Where no alternative fails fatally and at most
one succeeds, the order of the alternatives can only show in the order of the expectations
(`order_of_alternatives`).
-/

namespace Descent

namespace Parser

variable {src : Source} {α : Type} {p q r : Parser src α} {ps qs : List (Parser src α)}
  {input : Stream src} {f g : Failure src} {fs : List (Failure src)}

/-! ## Alternatives that all decline -/

theorem exists_failures (hps : ∀ r ∈ ps, r.Declines input) :
    ∃ fs : List (Failure src), ps.map (· input) = fs.map .failure ∧ ∀ f ∈ fs, f.fatal = false := by
  induction ps with
  | nil => exact ⟨[], rfl, nofun⟩
  | cons p ps ih =>
    obtain ⟨⟨f, hp, hf⟩, hrest⟩ := List.forall_mem_cons.1 hps
    obtain ⟨fs, hmap, hfs⟩ := ih hrest
    refine ⟨f :: fs, ?_, List.forall_mem_cons.2 ⟨hf, hfs⟩⟩
    rw [List.map_cons, List.map_cons, hp, hmap]

theorem declines_of_failures (hps : ps.map (· input) = fs.map .failure)
    (hfs : ∀ f ∈ fs, f.fatal = false) : ∀ r ∈ ps, r.Declines input := by
  intro r hr
  have hmem : r input ∈ fs.map Outcome.failure := hps ▸ List.mem_map_of_mem hr
  obtain ⟨f, hf, hrf⟩ := List.mem_map.1 hmem
  exact ⟨f, hrf.symm, hfs f hf⟩

theorem mem_failures_iff (hps : ps.map (· input) = fs.map .failure) (e : Failure src) :
    e ∈ fs ↔ ∃ r ∈ ps, r input = .failure e := by
  have hmem : Outcome.failure e ∈ ps.map (· input) ↔ e ∈ fs := by simp [hps]
  rw [← hmem, List.mem_map]

/-- Going through parsers that decline sums up their failures after those that came before. -/
theorem Declined.sumsUp (h : Declined input f ps g) {es : List (Failure src)} (hf : f.SumsUp es)
    (hps : ps.map (· input) = fs.map .failure) : g.SumsUp (es ++ fs) := by
  induction h generalizing es fs with
  | nil f =>
    obtain rfl : fs = [] := List.map_eq_nil_iff.1 hps.symm
    rwa [List.append_nil]
  | @cons f e _ p ps he _ _ ih =>
    obtain ⟨e', fs, rfl, hp, hrest⟩ := List.map_eq_cons_iff.1 hps.symm
    obtain rfl : e' = e := Outcome.failure.inj (hp.trans he)
    rw [List.append_cons]
    exact ih (hf.merge (Failure.sumsUp_singleton e')) hrest.symm

/-- The three ways to write one or more alternatives. -/
def alternations (p : Parser src α) (ps : List (Parser src α)) : List (Parser src α) :=
  [choice (p :: ps), leftChain p ps, rightChain p ps]

theorem forall_alternations {motive : Parser src α → Prop} :
    (∀ way ∈ alternations p ps, motive way) ↔
      motive (choice (p :: ps)) ∧ motive (leftChain p ps) ∧ motive (rightChain p ps) := by
  simp [alternations]

/-- If all alternatives decline, one failure sums up theirs and is the outcome of all ways to write
them. -/
theorem exists_sumsUp (hps : (p :: ps).map (· input) = fs.map .failure)
    (hfs : ∀ f ∈ fs, f.fatal = false) :
    ∃ g : Failure src, g.SumsUp fs ∧ g.fatal = false ∧
      ∀ way ∈ alternations p ps, way input = .failure g := by
  obtain ⟨f, g, hp, hf, hg, hfatal, -⟩ := exists_merged (declines_of_failures hps hfs)
  obtain ⟨f', fs, rfl, hf', hrest⟩ := List.map_eq_cons_iff.1 hps.symm
  obtain rfl : f' = f := Outcome.failure.inj (hf'.trans hp)
  refine ⟨g, hg.sumsUp (Failure.sumsUp_singleton f') hrest.symm, hfatal, ?_⟩
  exact forall_alternations.2 ⟨hg.choice_eq hp hf, hg.leftChain_eq hp hf, hg.rightChain_eq hp hf⟩

/-- **The outcome of a choice.** If the first alternatives decline and the next one succeeds or
fails fatally, the choice gives exactly that.  If all decline, and there are some, the choice fails
without being fatal, as far on as the furthest of their failures, and expects what those that got
there expect, without repetitions and in the order in which it came.  A choice of nothing fails
where it stands. -/
theorem choice_outcomes (ps : List (Parser src α)) (input : Stream src) :
    (∀ before p after, ps = before ++ p :: after → (∀ q ∈ before, q.Declines input) →
      (∀ s, p input = .success s → choice ps input = .success s) ∧
      (∀ f, p input = .failure f → f.fatal = true → choice ps input = .failure f)) ∧
    (∀ fs : List (Failure src), ps.map (· input) = fs.map .failure → (∀ f ∈ fs, f.fatal = false) →
      ps ≠ [] →
      ∃ g, choice ps input = .failure g ∧ g.fatal = false ∧
        (∃ f ∈ fs, f.position = g.position) ∧ (∀ f ∈ fs, f.cursor ≤ g.cursor) ∧
        ((∀ f ∈ fs, f.expected.Nodup) →
          g.expected = (Failure.expectedAt g.cursor fs).eraseDups)) ∧
    choice ([] : List (Parser src α)) input = .failure ⟨input, [], false⟩ := by
  refine ⟨?_, ?_, rfl⟩
  · rintro before p after rfl hbefore
    refine ⟨fun s hs => ?_, fun f hf hfatal => ?_⟩
    · rw [choice_of_not_declines hbefore (not_declines_of_success hs), hs]
    · rw [choice_of_not_declines hbefore (not_declines_of_fatal hf hfatal), hf]
  · intro fs hps hfs hne
    obtain ⟨p, ps, rfl⟩ := List.exists_cons_of_ne_nil hne
    obtain ⟨g, hg, hfatal, hways⟩ := exists_sumsUp hps hfs
    exact ⟨g, (forall_alternations.1 hways).1, hfatal, hg.exists_position_eq, hg.cursor_le,
      hg.expected_eq⟩

/-- On `ab`: a success and a fatal failure after an alternative that declines, and three
alternatives that decline, two of them further on and with one expectation in common. -/
theorem choice_outcomes_on_ab :
    let src : Source := ⟨0, ['a', 'b']⟩
    let start : Stream src := .first src
    let second : Stream src := ⟨['a'], ['b'], 1, rfl, rfl⟩
    let digit : Parser src Char := ofClass .digit
    let committed : Parser src Char := (char 'a').cutAfter digit
    let deep : Parser src Char := (char 'a').andThen (digit.orElse (char 'x'))
    let deeper : Parser src Char := (char 'a').andThen ((char 'x').orElse (char 'y'))
    let fs : List (Failure src) := [⟨start, ["a digit"], false⟩,
      ⟨second, ["a digit", "the character \"x\""], false⟩,
      ⟨second, ["the character \"x\"", "the character \"y\""], false⟩]
    choice [digit, item, committed] start = .success ⟨'a', start, second, ['a']⟩ ∧
      choice [digit, committed, item] start = .failure ⟨second, ["a digit"], true⟩ ∧
      ∃ g, choice [digit, deep, deeper] start = .failure g ∧ g.fatal = false ∧
        (∃ f ∈ fs, f.position = g.position) ∧ (∀ f ∈ fs, f.cursor ≤ g.cursor) ∧
        g.expected = (Failure.expectedAt g.cursor fs).eraseDups := by
  intro src start second digit committed deep deeper fs
  have hdigit : ∀ q ∈ [digit], q.Declines start := by
    intro q hq
    obtain rfl := List.mem_singleton.1 hq
    exact ⟨_, rfl, rfl⟩
  obtain ⟨g, hchoice, hfatal, hplace, hfurthest, hexpected⟩ :=
    (choice_outcomes [digit, deep, deeper] start).2.1 fs rfl (by decide) (List.cons_ne_nil _ _)
  obtain ⟨hsuccess, -⟩ :=
    (choice_outcomes [digit, item, committed] start).1 [digit] item [committed] rfl hdigit
  obtain ⟨-, hfailure⟩ :=
    (choice_outcomes [digit, committed, item] start).1 [digit] committed [item] rfl hdigit
  exact ⟨hsuccess _ rfl, hfailure _ rfl rfl, g, hchoice, hfatal, hplace, hfurthest,
    hexpected (by decide)⟩

/-! ## The order of alternatives -/

/-- At `input` each of the parsers comes to an end, none fails fatally, and at most one succeeds. -/
structure Exclusive (ps : List (Parser src α)) (input : Stream src) : Prop where
  ends : ∀ p ∈ ps, p input ≠ .undecided
  not_fatal : ∀ p ∈ ps, ∀ f, p input = .failure f → f.fatal = false
  at_most_one : ps.Pairwise fun p q => ∀ s t, p input = .success s → q input ≠ .success t

namespace Exclusive

theorem perm (h : Exclusive ps input) (hperm : ps.Perm qs) : Exclusive qs input where
  ends p hp := h.ends p (hperm.mem_iff.2 hp)
  not_fatal p hp := h.not_fatal p (hperm.mem_iff.2 hp)
  at_most_one := by
    refine hperm.pairwise h.at_most_one fun {p q} hpq s t hs ht => ?_
    exact hpq t s ht hs

theorem declines (h : Exclusive ps input) (hp : p ∈ ps) (hfails : ∀ s, p input ≠ .success s) :
    p.Declines input := by
  rcases hout : p input with s | f | _
  · exact absurd hout (hfails s)
  · exact ⟨f, hout, h.not_fatal p hp f hout⟩
  · exact absurd hout (h.ends p hp)

/-- The one alternative that succeeds decides, wherever it stands. -/
theorem eq_success (h : Exclusive (p :: ps) input) (hr : r ∈ p :: ps) {s : Success src α}
    (hs : r input = .success s) : ∀ way ∈ alternations p ps, way input = .success s := by
  obtain ⟨before, after, hsplit⟩ := List.append_of_mem hr
  -- What stands before the one that succeeds cannot succeed as well.
  have hbefore : ∀ q ∈ before, q.Declines input := by
    intro q hq
    have hq' : q ∈ p :: ps := hsplit ▸ List.mem_append_left _ hq
    refine h.declines hq' fun t ht => ?_
    have hpairs := h.at_most_one
    rw [hsplit, List.pairwise_append] at hpairs
    exact hpairs.2.2 q hq r List.mem_cons_self t s ht hs
  obtain ⟨hleft, hright, hchoice⟩ :=
    chains_of_beyond hsplit hbefore (not_declines_of_success hs) fun f hf => by
      rw [hs] at hf
      cases hf
  rw [hs] at hleft hright hchoice
  exact forall_alternations.2 ⟨hchoice, hleft, hright⟩

end Exclusive

/-- **The order of alternatives.** Where no alternative fails fatally and at most one succeeds,
putting them in another order changes neither the success, if there is one, nor otherwise the place
of the failure and what is expected there, but for the order in which it is listed.  This holds for
a choice and for both chains. -/
theorem order_of_alternatives (h : Exclusive (p :: ps) input) (hperm : (p :: ps).Perm (q :: qs)) :
    (∀ r ∈ p :: ps, ∀ s, r input = .success s →
      (∀ way ∈ alternations p ps, way input = .success s) ∧
        ∀ way ∈ alternations q qs, way input = .success s) ∧
    ((∀ r ∈ p :: ps, ∀ s, r input ≠ .success s) →
      ∃ f g : Failure src, (∀ way ∈ alternations p ps, way input = .failure f) ∧
        (∀ way ∈ alternations q qs, way input = .failure g) ∧ f.fatal = false ∧ g.fatal = false ∧
        f.position = g.position ∧ ∀ d, d ∈ f.expected ↔ d ∈ g.expected) := by
  refine ⟨fun r hr s hs => ?_, fun hfail => ?_⟩
  · exact ⟨h.eq_success hr hs, (h.perm hperm).eq_success (hperm.mem_iff.1 hr) hs⟩
  · obtain ⟨fs, hps, hfs⟩ := exists_failures fun r hr => h.declines hr (hfail r hr)
    obtain ⟨gs, hqs, hgs⟩ := exists_failures fun r hr =>
      (h.perm hperm).declines hr (hfail r (hperm.mem_iff.2 hr))
    obtain ⟨f, hf, hffatal, hfways⟩ := exists_sumsUp hps hfs
    obtain ⟨g, hg, hgfatal, hgways⟩ := exists_sumsUp hqs hgs
    have hmem : ∀ e, e ∈ fs ↔ e ∈ gs := by
      intro e
      rw [mem_failures_iff hps, mem_failures_iff hqs]
      simp only [hperm.mem_iff]
    exact ⟨f, g, hfways, hgways, hffatal, hgfatal, hf.position_eq_and_mem_expected_iff hg hmem⟩

/-- On `ab`: one alternative that succeeds goes from the middle to the end, and three that decline,
two of them further on, are taken in turn. -/
theorem order_of_alternatives_on_ab :
    let src : Source := ⟨0, ['a', 'b']⟩
    let start : Stream src := .first src
    let second : Stream src := ⟨['a'], ['b'], 1, rfl, rfl⟩
    let digit : Parser src Char := ofClass .digit
    let deep : Parser src Char := (char 'a').andThen (char 'x')
    let deeper : Parser src Char := (char 'a').andThen (char 'y')
    Exclusive [digit, item, deep] start ∧
      (∀ way ∈ alternations digit [deep, item], way start = .success ⟨'a', start, second, ['a']⟩) ∧
      Exclusive [digit, deep, deeper] start ∧
      ∃ f g : Failure src, (∀ way ∈ alternations digit [deep, deeper], way start = .failure f) ∧
        (∀ way ∈ alternations deeper [digit, deep], way start = .failure g) ∧
          f.position = g.position ∧
        ∀ d, d ∈ f.expected ↔ d ∈ g.expected := by
  intro src start second digit deep deeper
  have hdigit : digit start = .failure ⟨start, ["a digit"], false⟩ := rfl
  have hitem : (item : Parser src Char) start = .success ⟨'a', start, second, ['a']⟩ := rfl
  have hdeep : deep start = .failure ⟨second, ["the character \"x\""], false⟩ := rfl
  have hdeeper : deeper start = .failure ⟨second, ["the character \"y\""], false⟩ := rfl
  have hone : Exclusive [digit, item, deep] start := by
    constructor <;> simp [hdigit, hitem, hdeep]
  have hnone : Exclusive [digit, deep, deeper] start := by
    constructor <;> simp [hdigit, hdeep, hdeeper]
  have hswap : [digit, item, deep].Perm [digit, deep, item] := .cons _ (.swap _ _ _)
  have hturn : [digit, deep, deeper].Perm [deeper, digit, deep] :=
    @List.perm_append_comm _ [digit, deep] [deeper]
  obtain ⟨f, g, hf, hg, -, -, hsame⟩ := (order_of_alternatives hnone hturn).2 (by
    simp [hdigit, hdeep, hdeeper])
  have hsuccess := (order_of_alternatives hone hswap).1 item (by simp) _ hitem
  exact ⟨hone, hsuccess.2, hnone, f, g, hf, hg, hsame⟩

end Parser

end Descent
