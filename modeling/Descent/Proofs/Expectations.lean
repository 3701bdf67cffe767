import Descent.Proofs.FailureInvariant

/-!
# Expectations are listed once

The expectations of a failure are a list, but the operations on failures use it like a set that
keeps the order in which its members came: `addNew` adds to the end what is not listed yet, and
nothing else (`exists_addNew_eq_append`, `nodup_addNew`).  So in every failure that the operations
lead to (`Failure.Reachable`) each description occurs once.  The failures of built parsers are such
failures (`Built.reachable_of_failure`).
-/

namespace Descent

variable {src : Source} {α : Type}

/-! ## Adding to a list of expectations -/

theorem nodup_addNew {listed : List String} (h : listed.Nodup) (ds : List String) :
    (addNew listed ds).Nodup := by
  induction ds generalizing listed with
  | nil => exact h
  | cons d ds ih =>
    rw [addNew_cons]
    apply ih
    by_cases hd : d ∈ listed
    · rw [if_pos hd]
      exact h
    · rw [if_neg hd, List.nodup_append]
      refine ⟨h, List.pairwise_singleton _ d, ?_⟩
      intro a ha b hb hab
      obtain rfl := List.mem_singleton.1 hb
      exact hd (hab ▸ ha)

/-- What was listed stays in front, and what is added comes in the order in which it is given. -/
theorem exists_addNew_eq_append (listed ds : List String) :
    ∃ added, addNew listed ds = listed ++ added ∧ added.Sublist ds := by
  induction ds generalizing listed with
  | nil => exact ⟨[], (List.append_nil listed).symm, .slnil⟩
  | cons d ds ih =>
    rw [addNew_cons]
    by_cases hd : d ∈ listed
    · rw [if_pos hd]
      obtain ⟨added, heq, hsub⟩ := ih listed
      exact ⟨added, heq, hsub.cons d⟩
    · rw [if_neg hd]
      obtain ⟨added, heq, hsub⟩ := ih (listed ++ [d])
      refine ⟨d :: added, ?_, hsub.cons_cons d⟩
      rw [heq, List.append_assoc, List.singleton_append]

/-! ## Failures that can arise -/

/-- The failures that the operations on failures lead to. -/
inductive Failure.Reachable : Failure src → Prop where
  | unexpected (place : Stream src) : Reachable (.unexpected place)
  | expecting (place : Stream src) (description : String) : Reachable (.expecting place description)
  | relabel {f : Failure src} (description : String) :
      Reachable f → Reachable (f.relabel description)
  | merge {f g : Failure src} : Reachable f → Reachable g → Reachable (f.merge g)
  | escalate {f : Failure src} : Reachable f → Reachable f.escalate

theorem Failure.nodup_expected_merge {f g : Failure src} (hf : f.expected.Nodup)
    (hg : g.expected.Nodup) : (f.merge g).expected.Nodup := by
  rcases Nat.lt_trichotomy f.cursor g.cursor with h | h | h
  · rw [merge_of_lt h]
    exact hg
  · rw [merge_of_eq h]
    exact nodup_addNew hf g.expected
  · rw [merge_of_gt h]
    exact hf

theorem Failure.Reachable.nodup_expected {f : Failure src} (h : f.Reachable) :
    f.expected.Nodup := by
  induction h with
  | unexpected place => exact List.nodup_nil
  | expecting place description => exact List.pairwise_singleton _ description
  | relabel description _ _ => exact List.pairwise_singleton _ description
  | merge _ _ ihf ihg => exact nodup_expected_merge ihf ihg
  | escalate _ ih => exact ih

theorem failureInvariant_reachable (allowed : List Feature) :
    FailureInvariant allowed (Failure.Reachable : Failure src → Prop) where
  unexpected := .unexpected
  expecting := .expecting
  relabel _ description hf := hf.relabel description
  merge _ _ hf hg := hf.merge hg
  escalate _ _ hf := hf.escalate

theorem Built.reachable_of_failure {allowed : List Feature} {p : Parser src α} (h : Built allowed p)
    {input : Stream src} {f : Failure src} (hf : p input = .failure f) : f.Reachable :=
  (h.ensures_failures (failureInvariant_reachable allowed) input).of_failure hf

/-- **Expectations are listed once, in the order in which they came.** No description occurs twice
in a failure that the operations on failures lead to, nor in a failure of a built parser.  Where
failures at one place are merged, the expectations of the first are the beginning of the list, the
rest is taken from those of the second in their order, and none is lost. -/
theorem Failure.expectations_listed_once :
    (∀ f : Failure src, f.Reachable → f.expected.Nodup) ∧
    (∀ (α : Type) (allowed : List Feature) (p : Parser src α), Built allowed p →
      ∀ input f, p input = .failure f → f.expected.Nodup) ∧
    (∀ f g : Failure src, f.cursor = g.cursor →
      ∃ added, (f.merge g).expected = f.expected ++ added ∧ added.Sublist g.expected ∧
        ∀ d ∈ g.expected, d ∈ f.expected ∨ d ∈ added) := by
  refine ⟨fun f hf => hf.nodup_expected, ?_, ?_⟩
  · intro α allowed p hp input f hf
    exact (hp.reachable_of_failure hf).nodup_expected
  · intro f g h
    obtain ⟨added, heq, hsub⟩ := exists_addNew_eq_append f.expected g.expected
    refine ⟨added, by rw [merge_of_eq h]; exact heq, hsub, fun d hd => ?_⟩
    have hlisted : d ∈ addNew f.expected g.expected := (mem_addNew_iff d _ _).2 (.inr hd)
    rwa [heq, List.mem_append] at hlisted

/-- Alternatives of which two expect the same, and the merging of the failures of the last two. -/
theorem Failure.expectations_listed_once_in_choice :
    let src : Source := ⟨0, ['!']⟩
    let digit : Parser src Char := .ofClass .digit
    let letter : Parser src Char := .ofClass .letter
    let f : Failure src := .expecting (.first src) "a letter"
    let g : Failure src := .expecting (.first src) "a digit"
    Parser.choice [digit, letter.orElse digit] (.first src) =
        .failure ⟨.first src, ["a digit", "a letter"], false⟩ ∧ ["a digit", "a letter"].Nodup ∧
      (g.merge (f.merge g)).expected.Nodup ∧
      ∃ added, (g.merge (f.merge g)).expected = ["a digit"] ++ added ∧
        added.Sublist ["a letter", "a digit"] := by
  intro src digit letter f g
  obtain ⟨hreachable, hbuilt, hmerge⟩ := @expectations_listed_once src
  have hchoice : Built [] (Parser.choice [digit, letter.orElse digit]) := by
    refine .choice fun q hq => ?_
    simp only [List.mem_cons, List.not_mem_nil, or_false] at hq
    rcases hq with rfl | rfl
    · exact .ofClass .digit
    · exact (Built.ofClass .letter).orElse (.ofClass .digit)
  have hparse : Parser.choice [digit, letter.orElse digit] (.first src) =
      .failure ⟨.first src, ["a digit", "a letter"], false⟩ := rfl
  have hg : (g.merge (f.merge g)).Reachable :=
    .merge (.expecting _ _) (.merge (.expecting _ _) (.expecting _ _))
  obtain ⟨added, heq, hsub, -⟩ := hmerge g (f.merge g) rfl
  exact ⟨hparse, hbuilt _ _ _ hchoice _ _ hparse, hreachable _ hg, added, heq, hsub⟩

end Descent
