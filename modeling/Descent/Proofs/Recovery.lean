import Descent.Proofs.Ending
import Descent.Proofs.FailureInvariant
import Descent.Proofs.Merging
import Descent.Proofs.Subexpression

/-!
# Recovery from failures

Failures become fatal only by a cut, so a parser without cuts never fails fatally
(`Built.recoverable`).  The parsers that recover from failures that are not fatal, on the other
hand, fail only fatally, whatever they are made of (`Parser.fatal_of_collect`,
`Parser.fatal_of_withDefault`).  So without cuts they do not fail at all.
-/

namespace Descent

variable {src : Source} {α β : Type}

/-- Not being fatal is kept by all operations on failures but cuts. -/
theorem failureInvariant_not_fatal {allowed : List Feature} (h : .cut ∉ allowed) :
    FailureInvariant allowed fun f : Failure src => f.fatal = false where
  unexpected _ := rfl
  expecting _ _ := rfl
  relabel _ _ hf := hf
  merge _ _ hf hg := Failure.fatal_merge_eq_false hf hg
  escalate hcut := absurd hcut h

/-- The parser never fails fatally. -/
def Parser.Recoverable (p : Parser src α) : Prop :=
  ∀ input, (p input).Ensures (fun _ => True) fun f => f.fatal = false

theorem Built.recoverable {allowed : List Feature} (hcut : .cut ∉ allowed) {p : Parser src α}
    (h : Built allowed p) : p.Recoverable :=
  h.ensures_failures (failureInvariant_not_fatal hcut)

theorem Built.fatal_eq_false {allowed : List Feature} (hcut : .cut ∉ allowed) {p : Parser src α}
    (h : Built allowed p) {input : Stream src} {f : Failure src} (hf : p input = .failure f) :
    f.fatal = false :=
  (h.recoverable hcut input).of_failure hf

namespace Parser

/-! ## Failures of recovering parsers -/

theorem fatal_of_collect {p : Parser src α} {input : Stream src} {f : Failure src}
    (h : p.collect input = .failure f) : f.fatal = true := by
  have hgeneral : ∀ least input, least = 0 →
      (repeated least p input).Ensures (fun _ => True) fun f => f.fatal = true := by
    intro least input hleast
    induction least, input using repeatedInduction (p := p) with
    | advance least input s _ _ ih => exact (ih (by omega)).bind fun _ _ => trivial
    | halt => trivial
    | failure least input g _ hg =>
      rcases hg with hg | hg
      · exact hg
      · omega
    | finish => trivial
    | undecided => trivial
  exact (hgeneral 0 input rfl).of_failure h

theorem fatal_of_withDefault {p : Parser src α} {default : α} {input : Stream src}
    {f : Failure src} (h : p.withDefault default input = .failure f) : f.fatal = true := by
  unfold withDefault at h
  rcases hp : p input with s | g | _
  · rw [orElse_of_success hp] at h
    cases h
  · by_cases hg : g.fatal = true
    · rw [orElse_of_fatal hp hg] at h
      obtain rfl : g = f := Outcome.failure.inj h
      exact hg
    · rw [orElse_of_failure hp (Bool.eq_false_iff.2 hg)] at h
      cases h
  · rw [orElse_of_undecided hp] at h
    cases h

/-! ## Falling back -/

/-- The parser `q` falls back to `value` where `p` fails: it succeeds wherever it comes to an end,
and where `p` fails it gives `value` without having read anything. -/
structure FallsBack (q : Parser src β) (p : Parser src α) (value : β) : Prop where
  succeeds : ∀ input, q input ≠ .undecided → ∃ s, q input = .success s
  of_failure : ∀ input f, p input = .failure f → q input = .success ⟨value, input, input, []⟩

theorem exists_success {q : Parser src β} {input : Stream src}
    (hfatal : ∀ f, q input = .failure f → f.fatal = true)
    (hnotFatal : ∀ f, q input = .failure f → f.fatal = false) (hends : q input ≠ .undecided) :
    ∃ s, q input = .success s := by
  rcases h : q input with s | f | _
  · exact ⟨s, rfl⟩
  · have htrue := hfatal f h
    have hfalse := hnotFatal f h
    rw [hfalse] at htrue
    cases htrue
  · exact absurd h hends

theorem FallsBack.map {q : Parser src β} {p : Parser src α} {value : β} {γ : Type}
    (h : q.FallsBack p value) (g : β → γ) : (q.map g).FallsBack p (g value) where
  succeeds input hends := by
    rcases hq : q input with s | f | _
    · exact ⟨_, map_of_success g hq⟩
    · obtain ⟨s, hs⟩ := h.succeeds input (by rw [hq]; exact nofun)
      rw [hq] at hs
      cases hs
    · exact absurd (map_of_undecided g hq) hends
  of_failure input f hf := map_of_success g (h.of_failure input f hf)

end Parser

/-! ## Parsers without cuts -/

section WithoutCuts

variable {allowed : List Feature} {p : Parser src α}

theorem Built.fallsBack_collect (hcut : .cut ∉ allowed) (hp : Built allowed p) :
    p.collect.FallsBack p [] where
  succeeds _ :=
    Parser.exists_success (fun _ => Parser.fatal_of_collect) fun _ => hp.collect.fatal_eq_false hcut
  of_failure _ _ hf := Parser.repeated_of_end hf (hp.fatal_eq_false hcut hf)

/-- A default falls back where `p` fails if the parser it stands in for then fails in the same
way. -/
theorem Built.fallsBack_withDefault (hcut : .cut ∉ allowed) {q : Parser src β}
    (hq : Built allowed q) (hpq : ∀ input f, p input = .failure f → q input = .failure f)
    (default : β) : (q.withDefault default).FallsBack p default where
  succeeds _ :=
    Parser.exists_success (fun _ => Parser.fatal_of_withDefault) fun _ =>
      (hq.withDefault default).fatal_eq_false hcut
  of_failure input f hf := by
    have hfatal : f.fatal = false := hq.fatal_eq_false hcut (hpq input f hf)
    unfold Parser.withDefault
    rw [Parser.orElse_of_failure (hpq input f hf) hfatal]
    rfl

end WithoutCuts

/-- **Recovery without cuts.** A parser without cuts never fails fatally.  So repetitions, defaults,
options and separated lists of such parsers succeed wherever they come to an end, which they do
if the parsers in them do, and where the parser fails they give the empty value and read nothing. -/
theorem Built.recovers_without_cuts [Fragment α] {p : Parser src α} {separator : Parser src β}
    (hp : Built [.injection, .jump] p) (hs : Built [.injection, .jump] separator) (default : α) :
    (∀ input f, p input = .failure f → f.fatal = false) ∧
    p.many.FallsBack p [] ∧ p.collect.FallsBack p [] ∧
    (p.withDefault default).FallsBack p default ∧ p.optional.FallsBack p none ∧
    (p.sepBy separator).FallsBack p [] ∧
    (p.Ends → p.many.Ends ∧ p.collect.Ends ∧ (p.withDefault default).Ends ∧ p.optional.Ends ∧
      (separator.Ends → (p.sepBy separator).Ends)) := by
  have hcut : Feature.cut ∉ [Feature.injection, Feature.jump] := by decide
  have hcollect : p.collect.FallsBack p [] := hp.fallsBack_collect hcut
  refine ⟨?_, hcollect.map Fragment.text, hcollect, ?_, ?_, ?_, ?_⟩
  · intro input f hf
    exact hp.fatal_eq_false hcut hf
  · exact hp.fallsBack_withDefault hcut (fun _ _ hf => hf) default
  · exact (hp.map some).fallsBack_withDefault hcut (fun _ _ => Parser.map_of_failure some) none
  · exact (hp.sepBy1 hs).fallsBack_withDefault hcut (fun _ _ => Parser.bind_of_failure) []
  · intro hends
    exact ⟨(hends.repeated 0).map _, hends.repeated 0, hends.withDefault default,
      (hends.map some).withDefault none, fun hseparator => hends.sepBy hseparator⟩

/-- A list of quoted texts where there is none. -/
theorem recovers_quoted_list :
    let first : Stream ⟨0, ['x']⟩ := Stream.first _
    Parser.quoted first = .failure ⟨first, ["a quoted string"], false⟩ ∧
      Parser.quoted.sepBy (Parser.char ',') first = .success ⟨[], first, first, []⟩ := by
  intro first
  have hfailure : Parser.quoted first = .failure ⟨first, ["a quoted string"], false⟩ := rfl
  have hquoted : Built [.injection, .jump] (Parser.quoted : Parser ⟨0, ['x']⟩ Text) := .quoted
  obtain ⟨-, -, -, -, -, hlist, -⟩ := hquoted.recovers_without_cuts (.char ',') []
  exact ⟨hfailure, hlist.of_failure first _ hfailure⟩

end Descent
