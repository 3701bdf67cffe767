import Descent.Parser.Program
import Descent.Parser.Repeat

/-!
# Moving a source

A `Translation` from one source to another says that the second has the text of the first after some
text in front.  It takes places of the first source to places of the second, further on by the bytes
of that text, and with them failures, successes and outcomes.

`T.Carries p p'` says that running `p'` at the new place gives the outcome of `p` at the old one,
moved by `T`.  Every combinator that only reads on from where it stands, and only compares places
with each other, keeps this.
-/

namespace Descent

variable {src src' : Source} {α β γ σ σ' τ τ' ι : Type}

/-- The text of the second source is that of the first after `front`. -/
structure Translation (src src' : Source) where
  front : Text
  text_eq : src'.text = front ++ src.text

namespace Translation

variable (T : Translation src src')

/-- The number of bytes by which places are moved. -/
def distance : Nat := byteLength T.front

/-- The same place after the front. -/
def stream (s : Stream src) : Stream src' where
  passed := s.passed ++ T.front.reverse
  rest := s.rest
  cursor := T.distance + s.cursor
  whole := by rw [T.text_eq, ← s.whole]; simp
  cursor_eq := by rw [s.cursor_eq, byteLength_append, byteLength_reverse, distance, Nat.add_comm]

/-- The same failure after the front. -/
def failure (f : Failure src) : Failure src' := ⟨T.stream f.position, f.expected, f.fatal⟩

/-- The same success after the front. -/
def success (s : Success src α) : Success src' α :=
  ⟨s.value, T.stream s.start, T.stream s.next, s.matched⟩

/-- The same progress of a program after the front. -/
def progress (p : Progress src) : Progress src' := ⟨T.stream p.current, p.matched⟩

/-- The same outcome after the front, `g` saying what becomes of a success. -/
def outcome (g : σ → σ') : Outcome src σ → Outcome src' σ'
  | .success s => .success (g s)
  | .failure f => .failure (T.failure f)
  | .undecided => .undecided

/-! ## Places and failures -/

@[simp]
theorem cursor_stream (s : Stream src) : (T.stream s).cursor = T.distance + s.cursor := rfl

@[simp]
theorem rest_stream (s : Stream src) : (T.stream s).rest = s.rest := rfl

/-- The place that lies further on by the distance is the place moved. -/
theorem eq_stream_of_cursor_eq {s : Stream src} {s' : Stream src'}
    (h : s'.cursor = T.distance + s.cursor) : s' = T.stream s :=
  Stream.eq_of_cursor_eq h

theorem uncons_stream_of_none {s : Stream src} (h : s.uncons = none) :
    (T.stream s).uncons = none := by
  rw [Stream.uncons_eq_none_iff] at h ⊢
  exact h

theorem uncons_stream_of_some {s t : Stream src} {c : Char} (h : s.uncons = some (c, t)) :
    (T.stream s).uncons = some (c, T.stream t) := by
  have hrest : (T.stream s).rest = c :: t.rest := Stream.rest_of_uncons h
  obtain ⟨t', ht', -⟩ := Stream.exists_uncons_of_rest hrest
  have hcursor : t'.cursor = T.distance + t.cursor := by
    rw [Stream.cursor_of_uncons ht', Stream.cursor_of_uncons h, cursor_stream, Nat.add_assoc]
  rw [ht', T.eq_stream_of_cursor_eq hcursor]

@[simp]
theorem cursor_failure (f : Failure src) : (T.failure f).cursor = T.distance + f.cursor := rfl

theorem failure_merge (f g : Failure src) :
    T.failure (f.merge g) = (T.failure f).merge (T.failure g) := by
  have hcursors := T.cursor_failure f
  have hcursors' := T.cursor_failure g
  rcases Nat.lt_trichotomy f.cursor g.cursor with h | h | h
  · rw [Failure.merge_of_lt h, Failure.merge_of_lt (by omega)]
  · rw [Failure.merge_of_eq h, Failure.merge_of_eq (by omega)]
    rfl
  · rw [Failure.merge_of_gt h, Failure.merge_of_gt (by omega)]

/-! ## Outcomes -/

section Outcome

variable {T} {g : σ → σ'} {o : Outcome src σ} {o' : Outcome src' σ'}

theorem outcome_bind {k : τ → τ'} {next : σ → Outcome src τ} {next' : σ' → Outcome src' τ'}
    (h : o' = T.outcome g o) (hnext : ∀ s, next' (g s) = T.outcome k (next s)) :
    (o' >>= next') = T.outcome k (o >>= next) := by
  subst h
  cases o with
  | success s => exact hnext s
  | failure f => rfl
  | undecided => rfl

theorem outcome_mapFailure {m : Failure src → Failure src} {m' : Failure src' → Failure src'}
    (h : o' = T.outcome g o) (hm : ∀ f, m' (T.failure f) = T.failure (m f)) :
    o'.mapFailure m' = T.outcome g (o.mapFailure m) := by
  subst h
  cases o with
  | success s => rfl
  | failure f => exact congrArg Outcome.failure (hm f)
  | undecided => rfl

theorem outcome_recover {resume : Failure src → Outcome src σ}
    {resume' : Failure src' → Outcome src' σ'} (h : o' = T.outcome g o)
    (hresume : ∀ f, resume' (T.failure f) = T.outcome g (resume f)) :
    o'.recover resume' = T.outcome g (o.recover resume) := by
  subst h
  cases o with
  | success s => rfl
  | failure f =>
    show (if f.fatal then _ else _) = T.outcome g (if f.fatal then _ else _)
    split
    · rfl
    · exact hresume f
  | undecided => rfl

end Outcome

/-! ## Parsers -/

/-- Running `p'` at a place moved gives the outcome of `p`, moved. -/
def Carries (p : Parser src α) (p' : Parser src' α) : Prop :=
  ∀ input, p' (T.stream input) = T.outcome T.success (p input)

theorem carries_succeedWith (value : α) (matched : Text) :
    T.Carries (.succeedWith value matched) (.succeedWith value matched) := fun _ => rfl

theorem carries_fail : T.Carries (.fail : Parser src α) .fail := fun _ => rfl

theorem carries_endOfInput : T.Carries .endOfInput .endOfInput := by
  intro input
  by_cases h : input.rest = []
  · have h' : (T.stream input).rest = [] := (T.rest_stream input).trans h
    rw [Parser.endOfInput_of_rest_eq_nil h, Parser.endOfInput_of_rest_eq_nil h']
    rfl
  · have h' : (T.stream input).rest ≠ [] := by rwa [T.rest_stream]
    rw [Parser.endOfInput_of_rest_ne_nil h, Parser.endOfInput_of_rest_ne_nil h']
    rfl

theorem carries_satisfy (test : Char → Bool) : T.Carries (.satisfy test) (.satisfy test) := by
  intro input
  rcases h : input.uncons with _ | ⟨c, next⟩
  · rw [Parser.satisfy_of_uncons_eq_none h,
      Parser.satisfy_of_uncons_eq_none (T.uncons_stream_of_none h)]
    rfl
  · rw [Parser.satisfy_of_uncons_eq_some h,
      Parser.satisfy_of_uncons_eq_some (T.uncons_stream_of_some h)]
    split <;> rfl

theorem follow_stream (t : Text) (s : Stream src) :
    Parser.follow t (T.stream s) =
      match Parser.follow t s with
      | .ok next => .ok (T.stream next)
      | .error place => .error (T.stream place) := by
  induction t generalizing s with
  | nil => rfl
  | cons c t ih =>
    rcases h : s.uncons with _ | ⟨d, next⟩
    · rw [Parser.follow_of_uncons_eq_none h,
        Parser.follow_of_uncons_eq_none (T.uncons_stream_of_none h)]
    · rw [Parser.follow_of_uncons_eq_some h,
        Parser.follow_of_uncons_eq_some (T.uncons_stream_of_some h)]
      by_cases hd : d = c
      · rw [if_pos hd, if_pos hd, ih]
      · rw [if_neg hd, if_neg hd]

theorem carries_literal (t : Text) : T.Carries (.literal t) (.literal t) := by
  intro input
  unfold Parser.literal
  rw [follow_stream]
  rcases Parser.follow t input with place | next <;> rfl

section Combinators

variable {T} {p : Parser src α} {p' : Parser src' α}

theorem Carries.map (hp : T.Carries p p') (f : α → β) : T.Carries (p.map f) (p'.map f) :=
  fun input => outcome_bind (hp input) fun _ => rfl

theorem Carries.label (hp : T.Carries p p') (description : String) :
    T.Carries (p.label description) (p'.label description) :=
  fun input => outcome_mapFailure (hp input) fun _ => rfl

theorem Carries.cut (hp : T.Carries p p') : T.Carries p.cut p'.cut :=
  fun input => outcome_mapFailure (hp input) fun _ => rfl

theorem Carries.peek (hp : T.Carries p p') : T.Carries p.peek p'.peek :=
  fun input => outcome_bind (hp input) fun _ => rfl

theorem Carries.orElse {q : Parser src α} {q' : Parser src' α} (hp : T.Carries p p')
    (hq : T.Carries q q') : T.Carries (p.orElse q) (p'.orElse q') := by
  intro input
  refine outcome_recover (hp input) fun f => ?_
  exact outcome_mapFailure (hq input) fun g => (T.failure_merge f g).symm

/-- The continuations may depend on the start as long as they correspond at corresponding places. -/
theorem Carries.bind {next : α → Stream src → Parser src β}
    {next' : α → Stream src' → Parser src' β} (hp : T.Carries p p')
    (hnext : ∀ value start, T.Carries (next value start) (next' value (T.stream start))) :
    T.Carries (p.bind next) (p'.bind next') := by
  intro input
  refine outcome_bind (hp input) fun first => ?_
  exact outcome_bind (hnext first.value input first.next) fun _ => rfl

theorem Carries.between {q : Parser src β} {q' : Parser src' β} {r : Parser src γ}
    {r' : Parser src' γ} (hp : T.Carries p p') (hq : T.Carries q q') (hr : T.Carries r r') :
    T.Carries (p.between q r) (p'.between q' r') := by
  intro input
  refine outcome_bind (hp input) fun first => ?_
  refine outcome_bind (hq first.next) fun middle => ?_
  exact outcome_bind (hr middle.next) fun _ => rfl

theorem Carries.of_success (hp : T.Carries p p') {input : Stream src} {s : Success src α}
    (h : p input = .success s) : p' (T.stream input) = .success (T.success s) := by
  rw [hp, h]
  rfl

theorem Carries.of_failure (hp : T.Carries p p') {input : Stream src} {f : Failure src}
    (h : p input = .failure f) : p' (T.stream input) = .failure (T.failure f) := by
  rw [hp, h]
  rfl

/-- Whether a round moves forward is a matter of two places, so the rounds are the same. -/
theorem Carries.repeated (hp : T.Carries p p') (least : Nat) :
    T.Carries (p.repeated least) (p'.repeated least) := by
  intro input
  induction least, input using Parser.repeatedInduction (p := p) with
  | advance least input s h hs ih =>
    have hs' : (T.stream input).cursor < (T.success s).next.cursor := Nat.add_lt_add_left hs _
    rw [Parser.repeated_of_advance (hp.of_success h) hs']
    exact outcome_bind ih fun _ => rfl
  | halt least input s h hs =>
    have hs' : (T.success s).next.cursor ≤ (T.stream input).cursor := Nat.add_le_add_left hs _
    rw [Parser.repeated_of_halt (hp.of_success h) hs']
    rfl
  | failure least input f h hf =>
    rw [Parser.repeated_of_failure (hp.of_failure h) hf]
    rfl
  | finish input f h hf =>
    rw [Parser.repeated_of_end (hp.of_failure h) hf]
    rfl
  | undecided least input h =>
    rw [Parser.repeated_of_undecided (by rw [hp, h]; rfl)]
    rfl

end Combinators

/-! ## Lists of parsers

The two lists are given by two functions on a list of indices. -/

variable {T} {f : ι → Parser src α} {f' : ι → Parser src' α} {is : List ι}

theorem choiceAfter_stream (h : ∀ i ∈ is, T.Carries (f i) (f' i)) (earlier : Failure src)
    (input : Stream src) :
    Parser.choiceAfter (T.failure earlier) (is.map f') (T.stream input) =
      T.outcome T.success (Parser.choiceAfter earlier (is.map f) input) := by
  induction is generalizing earlier with
  | nil => rfl
  | cons i is ih =>
    simp only [List.map_cons, Parser.choiceAfter_cons]
    refine outcome_recover (h i List.mem_cons_self input) fun failure => ?_
    rw [← failure_merge]
    exact ih (fun j hj => h j (List.mem_cons_of_mem _ hj)) (earlier.merge failure)

theorem carries_choice (h : ∀ i ∈ is, T.Carries (f i) (f' i)) :
    T.Carries (.choice (is.map f)) (.choice (is.map f')) := by
  intro input
  cases is with
  | nil => rfl
  | cons i is =>
    refine outcome_recover (h i List.mem_cons_self input) fun failure => ?_
    exact choiceAfter_stream (fun j hj => h j (List.mem_cons_of_mem _ hj)) failure input

theorem continueWith_success (h : ∀ i ∈ is, T.Carries (f i) (f' i)) (done : Success src α) :
    Parser.continueWith (T.success done) (is.map f') =
      T.outcome T.success (Parser.continueWith done (is.map f)) := by
  induction is generalizing done with
  | nil => rfl
  | cons i is ih =>
    simp only [List.map_cons, Parser.continueWith]
    refine outcome_bind (h i List.mem_cons_self done.next) fun step => ?_
    exact ih (fun j hj => h j (List.mem_cons_of_mem _ hj))
      { step with start := done.start, matched := done.matched ++ step.matched }

theorem carries_sequence (empty : α) (h : ∀ i ∈ is, T.Carries (f i) (f' i)) :
    T.Carries (.sequence empty (is.map f)) (.sequence empty (is.map f')) :=
  fun input => continueWith_success h ⟨empty, input, input, []⟩

/-! ## Programs -/

variable (T) in
/-- Running `body'` from progress moved gives the result of `body`, moved. -/
def CarriesSteps (body : Steps src α) (body' : Steps src' α) : Prop :=
  ∀ progress, body'.result (T.progress progress) =
    T.outcome (fun r => (r.1, T.progress r.2)) (body.result progress)

theorem carriesSteps_pure (value : α) :
    T.CarriesSteps (pure value : Steps src α) (pure value) := fun _ => rfl

theorem carriesSteps_fail : T.CarriesSteps (Steps.fail : Steps src α) Steps.fail := fun _ => rfl

theorem CarriesSteps.bind {body : Steps src α} {body' : Steps src' α} {next : α → Steps src β}
    {next' : α → Steps src' β} (hbody : T.CarriesSteps body body')
    (hnext : ∀ value, T.CarriesSteps (next value) (next' value)) :
    T.CarriesSteps (body >>= next) (body' >>= next') := by
  intro progress
  rw [Steps.result_bind, Steps.result_bind]
  exact outcome_bind (hbody progress) fun r => hnext r.1 r.2

variable {p : Parser src α} {p' : Parser src' α}

theorem Carries.run (hp : T.Carries p p') : T.CarriesSteps (Steps.run p) (Steps.run p') := by
  intro progress
  rw [Steps.result_run, Steps.result_run]
  exact outcome_bind (hp progress.current) fun _ => rfl

theorem Carries.attempt (hp : T.Carries p p') :
    T.CarriesSteps (Steps.attempt p) (Steps.attempt p') := by
  intro progress
  have hmoved := hp progress.current
  rcases h : p progress.current with s | f | _ <;> rw [h] at hmoved
  · rw [Steps.result_of_success (Steps.attempt_of_success h),
      Steps.result_of_success (Steps.attempt_of_success hmoved)]
    rfl
  · rw [Steps.result_of_success (Steps.attempt_of_failure h),
      Steps.result_of_success (Steps.attempt_of_failure hmoved)]
    rfl
  · rw [Steps.result_of_undecided (Steps.attempt_of_undecided h),
      Steps.result_of_undecided (Steps.attempt_of_undecided hmoved)]
    rfl

theorem CarriesSteps.program {body : Steps src α} {body' : Steps src' α}
    (h : T.CarriesSteps body body') : T.Carries (.program body) (.program body') := by
  intro input
  rw [Parser.program_apply, Parser.program_apply]
  exact outcome_bind (h ⟨input, []⟩) fun _ => rfl

end Translation

end Descent
