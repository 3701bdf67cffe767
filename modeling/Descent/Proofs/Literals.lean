import Descent.Proofs.Reading
import Descent.Proofs.Sequencing
import Descent.Proofs.Slicing

/-!
# How far a literal reads

A literal passes the longest common beginning of its text and of what is to come.  It succeeds if
that is its whole text, and otherwise it fails just behind it (`Parser.follow_commonPrefix`).  A
sequence of one parser for each character stops at the same place
(`Parser.sequence_char_of_follow`), so the two decide every input alike
(`Parser.literal_stops_after_commonPrefix`); they differ in the value that they give and in what
they say was expected.
-/

namespace Descent

variable {src : Source}

/-! ## Common beginnings -/

/-- The longest text with which both texts begin. -/
def commonPrefix : Text → Text → Text
  | c :: t, d :: u => if c = d then c :: commonPrefix t u else []
  | _, _ => []

@[simp]
theorem commonPrefix_nil_left (u : Text) : commonPrefix [] u = [] := rfl

@[simp]
theorem commonPrefix_cons_self (c : Char) (t u : Text) :
    commonPrefix (c :: t) (c :: u) = c :: commonPrefix t u := by
  rw [commonPrefix, if_pos rfl]

theorem commonPrefix_of_head_ne {c : Char} {u : Text} (h : u.head? ≠ some c) (t : Text) :
    commonPrefix (c :: t) u = [] := by
  cases u with
  | nil => rfl
  | cons d u =>
    rw [commonPrefix, if_neg]
    rintro rfl
    exact h rfl

/-- Both texts begin with a text just if their longest common beginning does. -/
theorem prefix_commonPrefix_iff {p t u : Text} : p <+: commonPrefix t u ↔ p <+: t ∧ p <+: u := by
  induction t generalizing p u with
  | nil => simp +contextual
  | cons c t ih =>
    cases p with
    | nil => simp
    | cons e p =>
      by_cases h : u.head? = some c
      · obtain ⟨u, rfl⟩ := List.head?_eq_some_iff.1 h
        rw [commonPrefix_cons_self, List.cons_prefix_cons, List.cons_prefix_cons,
          List.cons_prefix_cons, ih]
        exact and_and_left
      · rw [commonPrefix_of_head_ne h, List.prefix_nil, List.cons_prefix_cons]
        constructor
        · exact fun hp => absurd hp (List.cons_ne_nil e p)
        · rintro ⟨⟨rfl, -⟩, r, rfl⟩
          exact absurd rfl h

theorem commonPrefix_prefix_left (t u : Text) : commonPrefix t u <+: t :=
  (prefix_commonPrefix_iff.1 List.prefix_rfl).1

theorem commonPrefix_prefix_right (t u : Text) : commonPrefix t u <+: u :=
  (prefix_commonPrefix_iff.1 List.prefix_rfl).2

theorem commonPrefix_eq_take (t u : Text) : commonPrefix t u = t.take (commonPrefix t u).length :=
  List.prefix_iff_eq_take.1 (commonPrefix_prefix_left t u)

theorem length_commonPrefix_eq_iff (t u : Text) :
    (commonPrefix t u).length = t.length ↔ commonPrefix t u = t :=
  ⟨(commonPrefix_prefix_left t u).eq_of_length, congrArg List.length⟩

namespace Parser

/-! ## Literals -/

theorem exists_uncons_of_head {c : Char} {input : Stream src} (h : input.rest.head? = some c) :
    ∃ next, input.uncons = some (c, next) := by
  obtain ⟨r, hrest⟩ := List.head?_eq_some_iff.1 h
  obtain ⟨next, hnext, -⟩ := Stream.exists_uncons_of_rest hrest
  exact ⟨next, hnext⟩

/-- A text cannot be followed if its first character does not come next. -/
theorem follow_of_head_ne {c : Char} {input : Stream src} (h : input.rest.head? ≠ some c)
    (t : Text) : follow (c :: t) input = .error input := by
  rcases hnext : input.uncons with _ | ⟨d, next⟩
  · exact follow_of_uncons_eq_none hnext c t
  · have hd : d ≠ c := by
      rintro rfl
      exact h (by rw [Stream.rest_of_uncons hnext, List.head?_cons])
    rw [follow_of_uncons_eq_some hnext, if_neg hd]

theorem follow_of_uncons {c : Char} {input next : Stream src} (h : input.uncons = some (c, next))
    (t : Text) : follow (c :: t) input = follow t next := by
  rw [follow_of_uncons_eq_some h, if_pos rfl]

/-- Following a text ends behind the longest common beginning of the text and of what is to come. -/
theorem follow_commonPrefix {t : Text} {input place : Stream src}
    (h : input.Passes (commonPrefix t input.rest) place) :
    follow t input = if commonPrefix t input.rest = t then .ok place else .error place := by
  induction t generalizing input with
  | nil => rw [commonPrefix_nil_left, if_pos rfl, follow_nil, (Stream.Passes.refl input).unique h]
  | cons c t ih =>
    by_cases hhead : input.rest.head? = some c
    · obtain ⟨next, hnext⟩ := exists_uncons_of_head hhead
      have hrest : input.rest = c :: next.rest := Stream.rest_of_uncons hnext
      rw [hrest, commonPrefix_cons_self] at h
      obtain ⟨next', hfirst, hothers⟩ := Stream.Passes.split (t := [c]) h
      obtain rfl : next = next' := (Stream.Passes.of_uncons hnext).unique hfirst
      rw [follow_of_uncons hnext, ih hothers, hrest, commonPrefix_cons_self]
      simp only [List.cons.injEq, true_and]
    · rw [commonPrefix_of_head_ne hhead] at h ⊢
      rw [follow_of_head_ne hhead, if_neg (List.cons_ne_nil c t).symm,
        (Stream.Passes.refl input).unique h]

/-- Where a text can be followed, so can its characters, one after the other; where it cannot, they
stop at the same place. -/
theorem sequence_char_of_follow (t : Text) (empty : Char) (input : Stream src) :
    match follow t input with
    | .ok next => sequence empty (t.map char) input = .success ⟨t.getLastD empty, input, next, t⟩
    | .error place =>
      ∃ expected, sequence empty (t.map char) input = .failure ⟨place, expected, false⟩ := by
  induction t generalizing empty input with
  | nil => rfl
  | cons c t ih =>
    rw [List.map_cons, sequence_cons]
    by_cases hhead : input.rest.head? = some c
    · obtain ⟨next, hnext⟩ := exists_uncons_of_head hhead
      have hfirst : char c input = .success ⟨c, input, next, [c]⟩ :=
        reads_char c (Stream.Passes.of_uncons hnext)
      have hothers := ih c next
      rw [follow_of_uncons hnext]
      rcases hfollow : follow t next with place | stop
      · simp only [hfollow] at hothers
        obtain ⟨expected, hf⟩ := hothers
        exact ⟨expected, bind_of_success_of_failure hfirst hf⟩
      · simp only [hfollow] at hothers
        rw [bind_of_success hfirst hothers, List.getLastD_cons]
        rfl
    · obtain ⟨expected, hf⟩ := char_of_head_ne hhead
      rw [follow_of_head_ne hhead]
      exact ⟨expected, bind_of_failure hf⟩

/-- A literal compares characters up to the end of the longest common beginning of its text and of
what is to come.  It succeeds if that is its whole text, and otherwise it fails there, between two
characters of the source, and can be recovered from.  Reading its characters one by one does the
same. -/
theorem literal_stops_after_commonPrefix (t : Text) (empty : Char) (input : Stream src) :
    (∀ p, p <+: commonPrefix t input.rest ↔ p <+: t ∧ p <+: input.rest) ∧
      ∃ place : Stream src, IsBoundary src.text place.cursor ∧
        place.cursor = input.cursor + byteLength (t.take (commonPrefix t input.rest).length) ∧
        if (commonPrefix t input.rest).length = t.length then
          place.cursor = input.cursor + byteLength t ∧
          literal t input = .success ⟨t, input, place, t⟩ ∧
          sequence empty (t.map char) input = .success ⟨t.getLastD empty, input, place, t⟩
        else
          literal t input = .failure ⟨place, ["\"" ++ String.ofList t ++ "\""], false⟩ ∧
          ∃ expected, sequence empty (t.map char) input = .failure ⟨place, expected, false⟩ := by
  refine ⟨fun p => prefix_commonPrefix_iff, ?_⟩
  obtain ⟨place, hplace⟩ := Stream.exists_passes_of_prefix (commonPrefix_prefix_right t input.rest)
  have hfollow := follow_commonPrefix hplace
  have hsequence := sequence_char_of_follow t empty input
  have hcursor : place.cursor =
      input.cursor + byteLength (t.take (commonPrefix t input.rest).length) := by
    rw [← commonPrefix_eq_take]
    exact hplace.cursor_eq
  refine ⟨place, place.isBoundary_cursor, hcursor, ?_⟩
  by_cases h : commonPrefix t input.rest = t
  · rw [if_pos h] at hfollow
    rw [hfollow] at hsequence
    rw [if_pos ((length_commonPrefix_eq_iff t input.rest).2 h)]
    refine ⟨?_, ?_, hsequence⟩
    · rw [hplace.cursor_eq, h]
    · rw [literal, hfollow]
  · rw [if_neg h] at hfollow
    rw [hfollow] at hsequence
    rw [if_neg (mt (length_commonPrefix_eq_iff t input.rest).1 h)]
    refine ⟨?_, hsequence⟩
    rw [literal, hfollow]
    rfl

-- `é` and `è` begin with the same byte.
example : literal ['c', 'é', '!'] (Stream.first ⟨0, ['c', 'è', '!']⟩) =
    .failure ⟨⟨['c'], ['è', '!'], 1, rfl, rfl⟩, ["\"cé!\""], false⟩ := by
  rfl

end Parser

end Descent
