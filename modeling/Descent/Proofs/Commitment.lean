import Descent.Proofs.Alternatives
import Descent.Proofs.Postcondition
import Descent.Proofs.Propagation

/-!
# Commitment in nested alternatives

An `Alternation` is a tree of alternatives: inner nodes are `orElse` and choices of at least one,
and the leaves stand for parsers.  If the first leaf that does not decline fails fatally, a choice
passes its failure on as it is, but an `orElse` that has it in its second branch merges it with the
failure of the first branch, and the flag is lost unless the failure got further.  So what matters
are the `rivals` of a leaf: the leaves in the first branches of the `orElse` nodes that have it in
their second branch.

If the leaf gets beyond its rivals, its failure is the outcome of the whole tree, whatever stands to
the right of it (`parser_of_fatal_leaf`).  Otherwise the tree does not fail fatally, unless a leaf
further to the right does (`ensures_of_rival`).
-/

namespace Descent

variable {src : Source} {α ι : Type}

/-- A tree of alternatives, `ι` standing for parsers. -/
inductive Alternation (ι : Type) where
  | leaf (i : ι)
  | orElse (left right : Alternation ι)
  | choice (first : Alternation ι) (others : List (Alternation ι))

namespace Alternation

/-- Induction on trees of alternatives. -/
@[induction_eliminator]
theorem branchInduction {motive : Alternation ι → Prop} (leaf : ∀ i, motive (leaf i))
    (orElse : ∀ left right, motive left → motive right → motive (orElse left right))
    (choice : ∀ first others, (∀ t ∈ first :: others, motive t) → motive (choice first others))
    (t : Alternation ι) : motive t :=
  @Alternation.rec ι motive (fun ts => ∀ t ∈ ts, motive t) leaf orElse
    (fun first others hfirst hothers =>
      choice first others (List.forall_mem_cons.2 ⟨hfirst, hothers⟩))
    (fun _ h => nomatch h) (fun _ _ hhead htail => List.forall_mem_cons.2 ⟨hhead, htail⟩) t

mutual

/-- The leaves of a tree from left to right. -/
def leaves : Alternation ι → List ι
  | leaf i => [i]
  | orElse left right => leaves left ++ leaves right
  | choice first others => leaves first ++ allLeaves others

/-- The leaves of several trees. -/
def allLeaves : List (Alternation ι) → List ι
  | [] => []
  | t :: ts => leaves t ++ allLeaves ts

end

mutual

/-- The parser a tree stands for. -/
def parser (meaning : ι → Parser src α) : Alternation ι → Parser src α
  | leaf i => meaning i
  | orElse left right => .orElse (parser meaning left) (parser meaning right)
  | choice first others => .choice (parser meaning first :: parsers meaning others)

/-- The parsers several trees stand for. -/
def parsers (meaning : ι → Parser src α) : List (Alternation ι) → List (Parser src α)
  | [] => []
  | t :: ts => parser meaning t :: parsers meaning ts

end

mutual

/-- The leaves in the first branches of the `orElse` nodes that have the `n`-th leaf in their second
branch. -/
def rivals : Alternation ι → Nat → List ι
  | leaf _, _ => []
  | orElse left right, n =>
    if n < left.leaves.length then rivals left n
    else left.leaves ++ rivals right (n - left.leaves.length)
  | choice first others, n =>
    if n < first.leaves.length then rivals first n
    else rivalsAmong others (n - first.leaves.length)

/-- The rivals of the `n`-th leaf of several trees. -/
def rivalsAmong : List (Alternation ι) → Nat → List ι
  | [], _ => []
  | t :: ts, n =>
    if n < t.leaves.length then rivals t n else rivalsAmong ts (n - t.leaves.length)

end

theorem parsers_eq_map (meaning : ι → Parser src α) (ts : List (Alternation ι)) :
    parsers meaning ts = ts.map (parser meaning) := by
  induction ts with
  | nil => rfl
  | cons t ts ih => rw [parsers, ih, List.map_cons]

theorem allLeaves_eq_flatMap (ts : List (Alternation ι)) : allLeaves ts = ts.flatMap leaves := by
  induction ts with
  | nil => rfl
  | cons t ts ih => rw [allLeaves, ih, List.flatMap_cons]

theorem mem_leaves_choice {first : Alternation ι} {others : List (Alternation ι)} {i : ι} :
    i ∈ (choice first others).leaves ↔ ∃ t ∈ first :: others, i ∈ t.leaves := by
  show i ∈ allLeaves (first :: others) ↔ _
  rw [allLeaves_eq_flatMap, List.mem_flatMap]

theorem parser_choice (meaning : ι → Parser src α) (first : Alternation ι)
    (others : List (Alternation ι)) :
    (choice first others).parser meaning =
      Parser.choice ((first :: others).map (parser meaning)) := by
  rw [parser, parsers_eq_map, List.map_cons]

/-! ## The place of a leaf -/

theorem split_of_append_eq {xs ys before after : List ι} {i : ι}
    (h : xs ++ ys = before ++ i :: after) :
    (∃ middle, xs = before ++ i :: middle ∧ after = middle ++ ys) ∨
      ∃ middle, before = xs ++ middle ∧ ys = middle ++ i :: after := by
  rcases List.append_eq_append_iff.1 h with ⟨middle, hbefore, hys⟩ | ⟨_ | ⟨j, middle⟩, hxs, hafter⟩
  · exact .inr ⟨middle, hbefore, hys⟩
  · refine .inr ⟨[], ?_, hafter.symm⟩
    rw [hxs, List.append_nil, List.append_nil]
  · obtain ⟨rfl, rfl⟩ := List.cons.inj hafter
    exact .inl ⟨middle, hxs, rfl⟩

/-- A leaf of several trees is a leaf of one of them, and has the same rivals there. -/
theorem exists_tree {ts : List (Alternation ι)} {before after : List ι} {i : ι}
    (h : allLeaves ts = before ++ i :: after) :
    ∃ us t vs before' after', ts = us ++ t :: vs ∧ before = allLeaves us ++ before' ∧
      t.leaves = before' ++ i :: after' ∧ after = after' ++ allLeaves vs ∧
      rivalsAmong ts before.length = t.rivals before'.length := by
  induction ts generalizing before with
  | nil => simp [allLeaves] at h
  | cons t ts ih =>
    rcases split_of_append_eq h with ⟨middle, ht, rfl⟩ | ⟨middle, rfl, hts⟩
    · refine ⟨[], t, ts, before, middle, rfl, rfl, ht, rfl, ?_⟩
      have hlt : before.length < t.leaves.length := by
        rw [ht, List.length_append, List.length_cons]
        omega
      rw [rivalsAmong, if_pos hlt]
    · obtain ⟨us, u, vs, before', after', rfl, rfl, hu, rfl, hrivals⟩ := ih hts
      refine ⟨t :: us, u, vs, before', after', rfl, ?_, hu, rfl, ?_⟩
      · rw [allLeaves, List.append_assoc]
      · rw [rivalsAmong, List.length_append, if_neg (by omega), Nat.add_sub_cancel_left, hrivals]

theorem exists_branch {first : Alternation ι} {others : List (Alternation ι)}
    {before after : List ι} {i : ι} (h : (choice first others).leaves = before ++ i :: after) :
    ∃ us t vs before' after', first :: others = us ++ t :: vs ∧
      before = allLeaves us ++ before' ∧ t.leaves = before' ++ i :: after' ∧
      after = after' ++ allLeaves vs ∧
      (choice first others).rivals before.length = t.rivals before'.length := by
  have hall : allLeaves (first :: others) = before ++ i :: after := h
  exact exists_tree hall

theorem rivals_orElse_left {left right : Alternation ι} {before middle : List ι} {i : ι}
    (h : left.leaves = before ++ i :: middle) :
    (orElse left right).rivals before.length = left.rivals before.length := by
  rw [rivals, if_pos]
  rw [h, List.length_append, List.length_cons]
  omega

theorem rivals_orElse_right (left right : Alternation ι) (middle : List ι) :
    (orElse left right).rivals (left.leaves ++ middle).length =
      left.leaves ++ right.rivals middle.length := by
  rw [rivals, List.length_append, if_neg (by omega), Nat.add_sub_cancel_left]

/-- The rivals of a leaf stand before it. -/
theorem rivals_subset {t : Alternation ι} {before after : List ι} {i : ι}
    (h : t.leaves = before ++ i :: after) : t.rivals before.length ⊆ before := by
  induction t generalizing before after with
  | leaf j => exact List.nil_subset _
  | orElse left right ihleft ihright =>
    rcases split_of_append_eq h with ⟨middle, hleft, -⟩ | ⟨middle, rfl, hright⟩
    · rw [rivals_orElse_left hleft]
      exact ihleft hleft
    · rw [rivals_orElse_right]
      exact List.append_subset.2 ⟨List.subset_append_left _ _,
        List.Subset.trans (ihright hright) (List.subset_append_right _ _)⟩
  | choice first others ih =>
    obtain ⟨us, t, vs, before', after', hts, rfl, ht, rfl, hrivals⟩ := exists_branch h
    rw [hrivals]
    exact fun j hj => List.mem_append_right _ (ih t (by simp [hts]) ht hj)

/-! ## What the leaves decide -/

variable {meaning : ι → Parser src α} {input : Stream src} {t : Alternation ι}

/-- If all leaves decline the tree declines, and gets as far as the furthest of them. -/
theorem declines_of_leaves (h : ∀ i ∈ t.leaves, (meaning i).Declines input) :
    ∃ e, t.parser meaning input = .failure e ∧ e.fatal = false ∧
      ∀ n, e.cursor < n ↔ ∀ i ∈ t.leaves, ∀ g, meaning i input = .failure g → g.cursor < n := by
  induction t with
  | leaf i =>
    obtain ⟨f, hi, hf⟩ := h i List.mem_cons_self
    refine ⟨f, hi, hf, fun n => ?_⟩
    simp [leaves, hi]
  | orElse left right ihleft ihright =>
    obtain ⟨e, hleft, he, hecursor⟩ := ihleft fun i hi => h i (List.mem_append_left _ hi)
    obtain ⟨e', hright, he', hecursor'⟩ := ihright fun i hi => h i (List.mem_append_right _ hi)
    refine ⟨e.merge e', ?_, Failure.fatal_merge_eq_false he he', fun n => ?_⟩
    · rw [parser, Parser.orElse_of_failure hleft he, hright, Outcome.mapFailure_failure]
    · rw [Failure.cursor_merge_lt_iff, hecursor, hecursor', leaves, List.forall_mem_append]
  | choice first others ih =>
    have hbranch := fun t ht => ih t ht fun i hi => h i (mem_leaves_choice.2 ⟨t, ht, hi⟩)
    have hdeclines : ∀ r ∈ (first :: others).map (parser meaning), r.Declines input := by
      intro r hr
      obtain ⟨t, ht, rfl⟩ := List.mem_map.1 hr
      obtain ⟨e, he, hfatal, -⟩ := hbranch t ht
      exact ⟨e, he, hfatal⟩
    obtain ⟨f, g, hfirst, hf, hg, hgfatal, hgcursor⟩ := Parser.exists_merged hdeclines
    refine ⟨g, ?_, hgfatal, fun n => ?_⟩
    · rw [parser_choice]
      exact hg.choice_eq hfirst hf
    · rw [hgcursor]
      constructor
      · intro hall i hi
        obtain ⟨t, ht, hi⟩ := mem_leaves_choice.1 hi
        obtain ⟨e, he, -, hecursor⟩ := hbranch t ht
        exact (hecursor n).1 (hall _ (List.mem_map_of_mem ht) e he) i hi
      · intro hall r hr k hk
        obtain ⟨t, ht, rfl⟩ := (List.mem_map (l := first :: others)).1 hr
        obtain ⟨e, he, -, hecursor⟩ := hbranch t ht
        obtain rfl : e = k := Outcome.failure.inj (he.symm.trans hk)
        exact (hecursor n).2 fun i hi => hall i (mem_leaves_choice.2 ⟨t, ht, hi⟩)

/-- If no leaf fails fatally the tree does not. -/
theorem ensures_of_leaves
    (h : ∀ i ∈ t.leaves, ∀ e, meaning i input = .failure e → e.fatal = false) :
    (t.parser meaning input).Ensures (fun _ => True) fun e => e.fatal = false := by
  induction t with
  | leaf i => exact Outcome.ensures_of_forall_failure (h i List.mem_cons_self)
  | orElse left right ihleft ihright =>
    refine (ihleft fun i hi => h i (List.mem_append_left _ hi)).recover fun e he => ?_
    refine (ihright fun i hi => h i (List.mem_append_right _ hi)).mapFailure fun k hk => ?_
    exact Failure.fatal_merge_eq_false he hk
  | choice first others ih =>
    rw [parser_choice]
    refine Parser.ensures_choice (fun r hr => ?_) (fun _ _ => Failure.fatal_merge_eq_false) rfl
    obtain ⟨t, ht, rfl⟩ := List.mem_map.1 hr
    exact ih t ht fun i hi => h i (mem_leaves_choice.2 ⟨t, ht, hi⟩)

section FatalLeaf

variable {before after : List ι} {i : ι} {f : Failure src}

/-- A fatal failure that gets beyond the rivals of its leaf is the outcome of the tree. -/
theorem parser_of_fatal_leaf (hleaves : t.leaves = before ++ i :: after)
    (hbefore : ∀ j ∈ before, (meaning j).Declines input) (hi : meaning i input = .failure f)
    (hf : f.fatal = true)
    (hrivals : ∀ j ∈ t.rivals before.length, ∀ g, meaning j input = .failure g →
      g.cursor < f.cursor) : t.parser meaning input = .failure f := by
  induction t generalizing before after with
  | leaf j =>
    obtain - | ⟨k, before⟩ := before
    · obtain ⟨rfl, -⟩ := List.cons.inj hleaves
      exact hi
    · simp [leaves] at hleaves
  | orElse left right ihleft ihright =>
    rcases split_of_append_eq hleaves with ⟨middle, hleft, -⟩ | ⟨middle, rfl, hright⟩
    · rw [rivals_orElse_left hleft] at hrivals
      exact Parser.orElse_of_fatal (ihleft hleft hbefore hrivals) hf
    · rw [rivals_orElse_right] at hrivals
      obtain ⟨hrivalsLeft, hrivalsRight⟩ := List.forall_mem_append.1 hrivals
      obtain ⟨hbeforeLeft, hbeforeRight⟩ := List.forall_mem_append.1 hbefore
      obtain ⟨e, hleft, he, hecursor⟩ := declines_of_leaves hbeforeLeft
      have hlt : e.cursor < f.cursor := (hecursor f.cursor).2 hrivalsLeft
      rw [parser, Parser.orElse_of_failure hleft he, ihright hright hbeforeRight hrivalsRight,
        Outcome.mapFailure_failure, Failure.merge_of_lt hlt]
  | choice first others ih =>
    obtain ⟨us, t, vs, before', after', hts, rfl, ht, rfl, heq⟩ := exists_branch hleaves
    rw [heq] at hrivals
    obtain ⟨hbeforeLeft, hbeforeRight⟩ := List.forall_mem_append.1 hbefore
    have hbranch := ih t (by simp [hts]) ht hbeforeRight hrivals
    rw [parser_choice, hts, List.map_append, List.map_cons]
    refine Parser.choice_of_fatal (fun r hr => ?_) hbranch hf
    obtain ⟨u, hu, rfl⟩ := List.mem_map.1 hr
    rw [allLeaves_eq_flatMap] at hbeforeLeft
    obtain ⟨e, he, hfatal, -⟩ := declines_of_leaves (t := u) fun j hj =>
      hbeforeLeft j (List.mem_flatMap.2 ⟨u, hu, hj⟩)
    exact ⟨e, he, hfatal⟩

/-- A fatal failure that some rival of its leaf overtakes is not the outcome of the tree: nothing to
the left of the leaf, nor the leaf itself, makes the tree fail fatally. -/
theorem ensures_of_rival (hleaves : t.leaves = before ++ i :: after)
    (hbefore : ∀ j ∈ before, (meaning j).Declines input) (hi : meaning i input = .failure f)
    (hf : f.fatal = true) {j : ι} (hj : j ∈ t.rivals before.length) {g : Failure src}
    (hg : meaning j input = .failure g) (hle : f.cursor ≤ g.cursor)
    (hafter : ∀ k ∈ after, ∀ e, meaning k input = .failure e → e.fatal = false) :
    (t.parser meaning input).Ensures (fun _ => True) fun e => e.fatal = false := by
  induction t generalizing before after j g with
  | leaf j => cases hj
  | orElse left right ihleft ihright =>
    rcases split_of_append_eq hleaves with ⟨middle, hleft, rfl⟩ | ⟨middle, rfl, hright⟩
    · rw [rivals_orElse_left hleft] at hj
      obtain ⟨hafterLeft, hafterRight⟩ := List.forall_mem_append.1 hafter
      refine (ihleft hleft hbefore hj hg hle hafterLeft).recover fun e he => ?_
      exact (ensures_of_leaves hafterRight).mapFailure fun k hk =>
        Failure.fatal_merge_eq_false he hk
    · rw [rivals_orElse_right] at hj
      obtain ⟨hbeforeLeft, hbeforeRight⟩ := List.forall_mem_append.1 hbefore
      obtain ⟨e, hleft, he, hecursor⟩ := declines_of_leaves hbeforeLeft
      rw [parser, Parser.orElse_of_failure hleft he]
      -- Either the failure comes out of the second branch and is overtaken here, or it does not.
      by_cases hsurvives : ∀ k ∈ right.rivals middle.length, ∀ m, meaning k input = .failure m →
          m.cursor < f.cursor
      · have hjleft : j ∈ left.leaves := by
          refine (List.mem_append.1 hj).resolve_right fun hjright => ?_
          have := hsurvives j hjright g hg
          omega
        have hfe : f.cursor ≤ e.cursor := by
          refine Nat.not_lt.1 fun hlt => ?_
          have := (hecursor f.cursor).1 hlt j hjleft g hg
          omega
        rw [parser_of_fatal_leaf hright hbeforeRight hi hf hsurvives, Outcome.mapFailure_failure]
        exact (Failure.fatal_merge_of_le hfe).trans he
      · simp only [Classical.not_forall, Nat.not_lt] at hsurvives
        obtain ⟨k, hk, m, hm, hfm⟩ := hsurvives
        exact (ihright hright hbeforeRight hk hm hfm hafter).mapFailure fun d hd =>
          Failure.fatal_merge_eq_false he hd
  | choice first others ih =>
    obtain ⟨us, t, vs, before', after', hts, rfl, ht, rfl, heq⟩ := exists_branch hleaves
    rw [heq] at hj
    obtain ⟨hbeforeLeft, hbeforeRight⟩ := List.forall_mem_append.1 hbefore
    obtain ⟨hafterLeft, hafterRight⟩ := List.forall_mem_append.1 hafter
    rw [allLeaves_eq_flatMap] at hbeforeLeft hafterRight
    rw [parser_choice]
    refine Parser.ensures_choice (fun r hr => ?_) (fun _ _ => Failure.fatal_merge_eq_false) rfl
    obtain ⟨u, hu, rfl⟩ := List.mem_map.1 hr
    rw [hts] at hu
    rcases List.mem_append.1 hu with hu | hu
    · refine ensures_of_leaves fun k hk e hke => ?_
      obtain ⟨d, hd, hfatal⟩ := hbeforeLeft k (List.mem_flatMap.2 ⟨u, hu, hk⟩)
      obtain rfl : d = e := Outcome.failure.inj (hd.symm.trans hke)
      exact hfatal
    · rcases List.mem_cons.1 hu with rfl | hu
      · exact ih u (by simp [hts]) ht hbeforeRight hj hg hle hafterLeft
      · exact ensures_of_leaves fun k hk => hafterRight k (List.mem_flatMap.2 ⟨u, hu, hk⟩)

/-- **Commitment.** Let the first leaf that does not decline fail fatally.  If it gets beyond all
its rivals the tree fails with its failure, and does so with any other parsers at the leaves to the
right of it.  If some rival got as far or further, the tree does not fail fatally unless a leaf to
the right does. -/
theorem commits_beyond_rivals (hleaves : t.leaves = before ++ i :: after)
    (hbefore : ∀ j ∈ before, (meaning j).Declines input) (hi : meaning i input = .failure f)
    (hf : f.fatal = true) :
    ((∀ j ∈ t.rivals before.length, ∀ g, meaning j input = .failure g → g.cursor < f.cursor) →
      ∀ other : ι → Parser src α, (∀ j ∈ before ++ [i], other j input = meaning j input) →
        t.parser other input = .failure f) ∧
    ((∃ j ∈ t.rivals before.length, ∃ g, meaning j input = .failure g ∧ f.cursor ≤ g.cursor) →
      (∀ j ∈ after, ∀ e, meaning j input = .failure e → e.fatal = false) →
        ∀ e, t.parser meaning input = .failure e → e.fatal = false) := by
  constructor
  · intro hrivals other hother
    obtain ⟨hotherBefore, hotherLeaf⟩ := List.forall_mem_append.1 hother
    refine parser_of_fatal_leaf hleaves (fun j hj => ?_) ?_ hf fun j hj => ?_
    · exact (Parser.declines_congr (hotherBefore j hj)).2 (hbefore j hj)
    · rw [hotherLeaf i List.mem_cons_self]
      exact hi
    · rw [hotherBefore j (rivals_subset hleaves hj)]
      exact hrivals j hj
  · rintro ⟨j, hj, g, hg, hle⟩ hafter e he
    exact (ensures_of_rival hleaves hbefore hi hf hj hg hle hafter).of_failure he

end FatalLeaf

/-- A committed branch beyond its only rival, inside a choice after a branch that got further. -/
theorem commits_beyond_rivals_on_ab :
    let src : Source := ⟨0, ['a', 'b']⟩
    let start : Stream src := .first src
    let t : Alternation Nat := .orElse (.choice (.leaf 0) [.orElse (.leaf 1) (.leaf 2)]) (.leaf 3)
    let meaning : Nat → Parser src Char
      | 0 => (Parser.literal ['a', 'b']).andThen (.char 'd')
      | 1 => .char 'x'
      | 2 => (Parser.char 'a').cutAfter (.char 'c')
      | _ => .item
    (∃ s, meaning 3 start = .success s) ∧
      t.parser meaning start =
        .failure ⟨⟨['a'], ['b'], 1, rfl, rfl⟩, ["the character \"c\""], true⟩ := by
  intro src start t meaning
  have hdeep : meaning 0 start =
      .failure ⟨⟨['b', 'a'], [], 2, rfl, rfl⟩, ["the character \"d\""], false⟩ := rfl
  have hrival : meaning 1 start = .failure ⟨start, ["the character \"x\""], false⟩ := rfl
  have hleaf : meaning 2 start =
      .failure ⟨⟨['a'], ['b'], 1, rfl, rfl⟩, ["the character \"c\""], true⟩ := rfl
  have hbefore : ∀ j ∈ [0, 1], (meaning j).Declines start := by
    intro j hj
    rcases List.mem_cons.1 hj with rfl | hj
    · exact ⟨_, hdeep, rfl⟩
    · obtain rfl := List.mem_singleton.1 hj
      exact ⟨_, hrival, rfl⟩
  have hleaves : t.leaves = [0, 1] ++ 2 :: [3] := rfl
  refine ⟨⟨_, rfl⟩, (commits_beyond_rivals hleaves hbefore hleaf rfl).1 ?_ meaning fun _ _ => rfl⟩
  intro j hj g hg
  have hj : j ∈ [1] := hj
  obtain rfl := List.mem_singleton.1 hj
  obtain rfl := Outcome.failure.inj (hrival.symm.trans hg)
  decide

/-- A fatal failure at the place of the failure before it is not final: a later alternative of an
enclosing `orElse` turns the parse into a success. -/
theorem fatal_leaf_not_final :
    let src : Source := ⟨0, ['z']⟩
    let start : Stream src := .first src
    let committed : Parser src Char := (Parser.char 'b').cut
    let t : Alternation (Parser src Char) :=
      .orElse (.orElse (.leaf .fail) (.leaf committed)) (.leaf (.succeed 'c'))
    t.leaves = [.fail] ++ committed :: [.succeed 'c'] ∧
      (Parser.fail : Parser src Char).Declines start ∧
      committed start = .failure ⟨start, ["the character \"b\""], true⟩ ∧
      t.parser id start = .success ⟨'c', start, start, []⟩ :=
  ⟨rfl, ⟨_, rfl, rfl⟩, rfl, rfl⟩

end Alternation

end Descent
