import Descent.Failure

/-!
# The algebra of merging

Merging keeps what got furthest, and at one place it keeps the order in which expectations were
recorded.  Both are associative (`addNew_assoc`, `Failure.merge_assoc`), so in whichever grouping
the failures of several alternatives are merged, the outcome is the same.

`Failure.SumsUp` says without merging what comes out: the first of the failures that got furthest,
with the expectations of the later ones that got as far added to its own.  Merging what sums up two
lists sums up both lists one after the other (`Failure.SumsUp.merge`), which is all that loops and
groupings need.
-/

namespace Descent

/-! ## Expectations -/

theorem addNew_append (listed ds es : List String) :
    addNew listed (ds ++ es) = addNew (addNew listed ds) es := by
  induction ds generalizing listed with
  | nil => rfl
  | cons d ds ih => rw [List.cons_append, addNew_cons, ih, addNew_cons]

/-- Adding one description after others: it is new if it is neither listed nor among the others. -/
theorem addNew_addNew_singleton (listed ds : List String) (e : String) :
    addNew listed (addNew ds [e]) = addNew (addNew listed ds) [e] := by
  rw [addNew_cons ds e []]
  by_cases he : e ∈ ds
  · have hlisted : e ∈ addNew listed ds := (mem_addNew_iff e listed ds).2 (.inr he)
    rw [addNew_cons, if_pos he, if_pos hlisted, addNew_nil, addNew_nil]
  · rw [if_neg he, addNew_nil, addNew_append]

theorem addNew_assoc (listed ds es : List String) :
    addNew listed (addNew ds es) = addNew (addNew listed ds) es := by
  induction es generalizing ds with
  | nil => rfl
  | cons e es ih =>
    calc addNew listed (addNew ds (e :: es))
        = addNew listed (addNew (addNew ds [e]) es) := by rw [← addNew_append]; rfl
      _ = addNew (addNew (addNew listed ds) [e]) es := by rw [ih, addNew_addNew_singleton]
      _ = addNew (addNew listed ds) (e :: es) := by rw [← addNew_append]; rfl

theorem addNew_of_subset {listed ds : List String} (h : ∀ d ∈ ds, d ∈ listed) :
    addNew listed ds = listed := by
  induction ds with
  | nil => rfl
  | cons d ds ih =>
    rw [addNew_cons, if_pos (h d List.mem_cons_self)]
    exact ih fun e he => h e (List.mem_cons_of_mem _ he)

theorem eraseDups_append_singleton (ds : List String) (e : String) :
    (ds ++ [e]).eraseDups = if e ∈ ds.eraseDups then ds.eraseDups else ds.eraseDups ++ [e] := by
  rw [List.eraseDups_append]
  by_cases he : e ∈ ds <;> simp [List.removeAll, he, List.eraseDups_cons]

theorem eraseDups_of_nodup {ds : List String} (h : ds.Nodup) : ds.eraseDups = ds := by
  induction ds with
  | nil => rfl
  | cons d ds ih =>
    obtain ⟨hd, hds⟩ := List.nodup_cons.1 h
    have hfilter : ds.filter (fun e => !e == d) = ds := by
      rw [List.filter_eq_self]
      intro e he
      have hne : e ≠ d := fun hed => hd (hed ▸ he)
      simpa using hne
    rw [List.eraseDups_cons, hfilter, ih hds]

/-- Adding to a list without repetitions is putting the lists together and dropping repetitions. -/
theorem addNew_eq_eraseDups {listed : List String} (h : listed.Nodup) (ds : List String) :
    addNew listed ds = (listed ++ ds).eraseDups := by
  have key : ∀ listed, addNew listed.eraseDups ds = (listed ++ ds).eraseDups := by
    induction ds with
    | nil => exact fun listed => by rw [addNew_nil, List.append_nil]
    | cons d ds ih =>
      intro listed
      rw [addNew_cons, ← eraseDups_append_singleton, ih, List.append_assoc, List.singleton_append]
  rw [← key, eraseDups_of_nodup h]

/-! ## Failures -/

namespace Failure

variable {src : Source}

theorem merge_assoc (f g h : Failure src) : (f.merge g).merge h = f.merge (g.merge h) := by
  rcases Nat.lt_trichotomy f.cursor g.cursor with hfg | hfg | hfg
  · -- The first failure is behind the second, so it is behind whatever the second merges to.
    have hlater : f.cursor < (g.merge h).cursor := by
      rw [cursor_merge]
      omega
    rw [merge_of_lt hfg, merge_of_lt hlater]
  · rcases Nat.lt_trichotomy g.cursor h.cursor with hgh | hgh | hgh
    · have hfh : (f.merge g).cursor < h.cursor := by
        rw [cursor_merge]
        omega
      rw [merge_of_lt hfh, merge_of_lt hgh, merge_of_lt (by omega)]
    · have hmerged : (f.merge g).cursor = h.cursor := by
        rw [cursor_merge]
        omega
      have hmerged' : f.cursor = (g.merge h).cursor := by
        rw [cursor_merge]
        omega
      rw [merge_of_eq hmerged, merge_of_eq hmerged', merge_of_eq hfg, merge_of_eq hgh, addNew_assoc]
    · have hhf : h.cursor < (f.merge g).cursor := by
        rw [cursor_merge]
        omega
      rw [merge_of_gt hhf, merge_of_gt hgh]
  · by_cases hgh : f.cursor ≤ h.cursor
    · have hg : g.merge h = h := merge_of_lt (by omega)
      rw [merge_of_gt hfg, hg]
    · have hlater : (g.merge h).cursor < f.cursor := by
        rw [cursor_merge]
        omega
      rw [merge_of_gt hfg, merge_of_gt hlater, merge_of_gt (by omega)]

/-- The flag of a failure that no other one overtakes is kept. -/
theorem fatal_merge_of_le {f g : Failure src} (h : g.cursor ≤ f.cursor) :
    (f.merge g).fatal = f.fatal := by
  rcases Nat.lt_or_eq_of_le h with hlt | heq
  · rw [merge_of_gt hlt]
  · rw [merge_of_eq heq.symm]

/-- Failures that are not fatal merge to one that is not fatal. -/
theorem fatal_merge_eq_false {f g : Failure src} (hf : f.fatal = false) (hg : g.fatal = false) :
    (f.merge g).fatal = false := by
  rcases Nat.lt_or_ge f.cursor g.cursor with hlt | hle
  · rw [merge_of_lt hlt]
    exact hg
  · rw [fatal_merge_of_le hle]
    exact hf

theorem cursor_merge_lt_iff (f g : Failure src) (n : Nat) :
    (f.merge g).cursor < n ↔ f.cursor < n ∧ g.cursor < n := by
  rw [cursor_merge]
  omega

theorem merge_self (f : Failure src) : f.merge f = f := by
  rw [merge_of_eq rfl, addNew_of_subset fun d hd => hd]

/-- Where failures got to different places, their order does not matter. -/
theorem merge_comm_of_ne {f g : Failure src} (h : f.cursor ≠ g.cursor) : f.merge g = g.merge f := by
  rcases Nat.lt_or_gt_of_ne h with hlt | hgt
  · rw [merge_of_lt hlt, merge_of_gt hlt]
  · rw [merge_of_gt hgt, merge_of_lt hgt]

/-! ## Several failures -/

/-- The expectations of those failures that got to byte offset `n`, one list after the other. -/
def expectedAt (n : Nat) (fs : List (Failure src)) : List String :=
  (fs.filter fun f => f.cursor = n).flatMap expected

theorem expectedAt_append (n : Nat) (fs gs : List (Failure src)) :
    expectedAt n (fs ++ gs) = expectedAt n fs ++ expectedAt n gs := by
  rw [expectedAt, List.filter_append, List.flatMap_append]
  rfl

theorem expectedAt_eq_nil {n : Nat} {fs : List (Failure src)} (h : ∀ f ∈ fs, f.cursor < n) :
    expectedAt n fs = [] := by
  have hfilter : fs.filter (fun f => f.cursor = n) = [] :=
    List.filter_eq_nil_iff.2 fun f hf => by simpa using Nat.ne_of_lt (h f hf)
  rw [expectedAt, hfilter, List.flatMap_nil]

/-- Failures that stay behind the next one have no part in what is expected there. -/
theorem expectedAt_append_cons {before : List (Failure src)} {first : Failure src}
    (h : ∀ f ∈ before, f.cursor < first.cursor) (after : List (Failure src)) :
    expectedAt first.cursor (before ++ first :: after) =
      first.expected ++ expectedAt first.cursor after := by
  rw [expectedAt_append, expectedAt_eq_nil h]
  simp [expectedAt]

theorem mem_expectedAt_iff (d : String) (n : Nat) (fs : List (Failure src)) :
    d ∈ expectedAt n fs ↔ ∃ f ∈ fs, f.cursor = n ∧ d ∈ f.expected := by
  simp [expectedAt, and_assoc]

/-- The failure `g` sums up the failures `fs`: it is the first of those that got furthest, but for
the expectations of the later ones that got as far, which are added to its own. -/
def SumsUp (g : Failure src) (fs : List (Failure src)) : Prop :=
  ∃ before first after, fs = before ++ first :: after ∧ (∀ f ∈ before, f.cursor < first.cursor) ∧
    (∀ f ∈ after, f.cursor ≤ first.cursor) ∧
    g = { first with expected := addNew first.expected (expectedAt first.cursor after) }

theorem sumsUp_singleton (f : Failure src) : f.SumsUp [f] :=
  ⟨[], f, [], rfl, nofun, nofun, rfl⟩

namespace SumsUp

variable {f g : Failure src} {fs gs : List (Failure src)}

/-- No failure got further than the one that sums them up. -/
theorem cursor_le (h : g.SumsUp fs) : ∀ f ∈ fs, f.cursor ≤ g.cursor := by
  obtain ⟨before, first, after, rfl, hbefore, hafter, rfl⟩ := h
  intro f hf
  rcases List.mem_append.1 hf with hf | hf
  · exact Nat.le_of_lt (hbefore f hf)
  · rcases List.mem_cons.1 hf with rfl | hf
    · exact Nat.le_refl _
    · exact hafter f hf

theorem exists_position_eq (h : g.SumsUp fs) : ∃ f ∈ fs, f.position = g.position := by
  obtain ⟨before, first, after, rfl, -, -, rfl⟩ := h
  exact ⟨first, List.mem_append_right _ List.mem_cons_self, rfl⟩

theorem mem_expected_iff (h : g.SumsUp fs) (d : String) :
    d ∈ g.expected ↔ ∃ f ∈ fs, f.cursor = g.cursor ∧ d ∈ f.expected := by
  rw [← mem_expectedAt_iff]
  obtain ⟨before, first, after, rfl, hbefore, -, rfl⟩ := h
  show d ∈ addNew _ _ ↔ d ∈ expectedAt first.cursor _
  rw [mem_addNew_iff, expectedAt_append_cons hbefore, List.mem_append]

/-- Where no failure lists an expectation twice, the expectations of those that got furthest are put
together and repetitions are dropped. -/
theorem expected_eq (h : g.SumsUp fs) (hfs : ∀ f ∈ fs, f.expected.Nodup) :
    g.expected = (expectedAt g.cursor fs).eraseDups := by
  obtain ⟨before, first, after, rfl, hbefore, -, rfl⟩ := h
  have hfirst : first.expected.Nodup := hfs first (List.mem_append_right _ List.mem_cons_self)
  show addNew _ _ = (expectedAt first.cursor _).eraseDups
  rw [addNew_eq_eraseDups hfirst, expectedAt_append_cons hbefore]

/-- A failure that the others do not overtake gets the expectations of those that got as far. -/
theorem merge_eq_of_le (hg : g.SumsUp gs) (h : g.cursor ≤ f.cursor) :
    f.merge g = { f with expected := addNew f.expected (expectedAt f.cursor gs) } := by
  rcases Nat.lt_or_eq_of_le h with hlt | heq
  · rw [merge_of_gt hlt, expectedAt_eq_nil fun e he => Nat.lt_of_le_of_lt (hg.cursor_le e he) hlt,
      addNew_nil]
  · rw [merge_of_eq heq.symm, ← heq]
    obtain ⟨before, first, after, rfl, hbefore, -, rfl⟩ := hg
    show { f with expected := _ } = { f with expected := addNew _ (expectedAt first.cursor _) }
    rw [expectedAt_append_cons hbefore, addNew_append, addNew_assoc]

/-- Merging sums up one list after the other. -/
theorem merge (hf : f.SumsUp fs) (hg : g.SumsUp gs) : (f.merge g).SumsUp (fs ++ gs) := by
  rcases Nat.lt_or_ge f.cursor g.cursor with h | h
  · -- All of the first list is overtaken, so it comes before the leader of the second.
    have hfs := hf.cursor_le
    rw [merge_of_lt h]
    obtain ⟨before, first, after, rfl, hbefore, hafter, rfl⟩ := hg
    refine ⟨fs ++ before, first, after, (List.append_assoc ..).symm, fun e he => ?_, hafter, rfl⟩
    rcases List.mem_append.1 he with he | he
    · exact Nat.lt_of_le_of_lt (hfs e he) h
    · exact hbefore e he
  · -- The leader of the first list stays, and all of the second list comes after it.
    have hgs := hg.cursor_le
    rw [hg.merge_eq_of_le h]
    obtain ⟨before, first, after, rfl, hbefore, hafter, rfl⟩ := hf
    refine ⟨before, first, after ++ gs, List.append_assoc .., hbefore, fun e he => ?_, ?_⟩
    · rcases List.mem_append.1 he with he | he
      · exact hafter e he
      · exact Nat.le_trans (hgs e he) h
    · rw [expectedAt_append, addNew_append]
      rfl

/-- What sums up the same failures, in whatever order, is at the same place and expects the same. -/
theorem position_eq_and_mem_expected_iff (hf : f.SumsUp fs) (hg : g.SumsUp gs)
    (h : ∀ e, e ∈ fs ↔ e ∈ gs) :
    f.position = g.position ∧ ∀ d, d ∈ f.expected ↔ d ∈ g.expected := by
  obtain ⟨e, he, hef⟩ := hf.exists_position_eq
  obtain ⟨k, hk, hkg⟩ := hg.exists_position_eq
  have hle : f.cursor ≤ g.cursor := by
    have heg : e.cursor ≤ g.cursor := hg.cursor_le e ((h e).1 he)
    rwa [cursor, hef] at heg
  have hge : g.cursor ≤ f.cursor := by
    have hkf : k.cursor ≤ f.cursor := hf.cursor_le k ((h k).2 hk)
    rwa [cursor, hkg] at hkf
  have hcursor : f.cursor = g.cursor := Nat.le_antisymm hle hge
  refine ⟨Stream.eq_of_cursor_eq hcursor, fun d => ?_⟩
  rw [hf.mem_expected_iff, hg.mem_expected_iff, hcursor]
  simp only [h]

end SumsUp

/-! ## Groupings -/

/-- One or more failures in a row, grouped in pairs in whatever way. -/
inductive Grouping (src : Source) where
  | single (f : Failure src)
  | pair (left right : Grouping src)

namespace Grouping

/-- The failures of a grouping from left to right. -/
def failures : Grouping src → List (Failure src)
  | single f => [f]
  | pair left right => failures left ++ failures right

/-- The failures of a grouping, merged pair by pair. -/
def merged : Grouping src → Failure src
  | single f => f
  | pair left right => (merged left).merge (merged right)

theorem sumsUp_merged (t : Grouping src) : t.merged.SumsUp t.failures := by
  induction t with
  | single f => exact sumsUp_singleton f
  | pair left right ihleft ihright => exact ihleft.merge ihright

end Grouping

/-- **The algebra of merging.** Merging is associative and idempotent and gets as far as the further
failure.  Either order of two failures gives the same place and the same expectations, and the same
failure if the places differ.  However several failures are grouped, the merged one has the flag of
the first of those that got furthest. -/
theorem merging_laws :
    (∀ f g h : Failure src, (f.merge g).merge h = f.merge (g.merge h)) ∧
    (∀ f : Failure src, f.merge f = f) ∧
    (∀ f g : Failure src, (f.merge g).cursor = max f.cursor g.cursor) ∧
    (∀ f g : Failure src, (f.merge g).position = (g.merge f).position ∧
      (∀ d, d ∈ (f.merge g).expected ↔ d ∈ (g.merge f).expected) ∧
      (f.position ≠ g.position → f.merge g = g.merge f)) ∧
    ∀ t : Grouping src, ∃ before first after, t.failures = before ++ first :: after ∧
      (∀ f ∈ before, f.cursor < first.cursor) ∧ (∀ f ∈ after, f.cursor ≤ first.cursor) ∧
      t.merged.fatal = first.fatal := by
  refine ⟨merge_assoc, merge_self, cursor_merge, fun f g => ?_, fun t => ?_⟩
  · have hfg : (f.merge g).SumsUp [f, g] := (sumsUp_singleton f).merge (sumsUp_singleton g)
    have hgf : (g.merge f).SumsUp [g, f] := (sumsUp_singleton g).merge (sumsUp_singleton f)
    obtain ⟨hposition, hexpected⟩ :=
      hfg.position_eq_and_mem_expected_iff hgf fun e => (List.Perm.swap g f []).mem_iff
    refine ⟨hposition, hexpected, fun hne => merge_comm_of_ne fun hcursor => ?_⟩
    exact hne (Stream.eq_of_cursor_eq hcursor)
  · obtain ⟨before, first, after, hsplit, hbefore, hafter, hmerged⟩ := t.sumsUp_merged
    exact ⟨before, first, after, hsplit, hbefore, hafter, by rw [hmerged]⟩

/-- On `ab`: a fatal failure at the start, and two further on of which only the later one is
fatal. -/
theorem merging_laws_on_ab :
    let src : Source := ⟨0, ['a', 'b']⟩
    let second : Stream src := ⟨['a'], ['b'], 1, rfl, rfl⟩
    let near : Failure src := ⟨.first src, ["an end"], true⟩
    let far : Failure src := ⟨second, ["a digit", "a sign"], false⟩
    let committed : Failure src := ⟨second, ["a sign", "a letter"], true⟩
    near.position ≠ far.position ∧ near.merge far = far.merge near ∧
      (near.merge far).merge committed = near.merge (far.merge committed) ∧
      ∃ before first after, [near, far, committed] = before ++ first :: after ∧
        (∀ f ∈ before, f.cursor < first.cursor) ∧ (∀ f ∈ after, f.cursor ≤ first.cursor) ∧
        (near.merge (far.merge committed)).fatal = first.fatal := by
  intro src second near far committed
  obtain ⟨hassoc, -, -, hcomm, hgrouping⟩ := @merging_laws src
  have hne : near.position ≠ far.position := by decide
  exact ⟨hne, (hcomm near far).2.2 hne, hassoc near far committed,
    hgrouping (.pair (.single near) (.pair (.single far) (.single committed)))⟩

end Failure

end Descent
