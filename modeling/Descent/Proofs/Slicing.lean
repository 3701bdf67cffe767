import Descent.Failure.Report
import Descent.Proofs.SpanLaw

/-!
# Reading a text by slices

A slice of a text exists just if its two offsets are in order and on character boundaries
(`Span.slice?_isSome_iff`).  What streams and reports do with characters can be done with byte
offsets and slices instead, where a slice that does not exist ends the computation: `restAt?`,
`unconsAt?`, `sliceAt?`, `findLine?`, `nextOnLine?` and `renderAt?`.  At the cursor of a stream none
of them ends that way, and they give what the stream itself gives.
-/

namespace Descent

variable {src : Source}

/-! ## Boundaries -/

/-- A byte offset at which a text can be cut without cutting a character. -/
def IsBoundary (t : Text) (n : Nat) : Prop :=
  ∃ before after, t = before ++ after ∧ byteLength before = n

theorem IsBoundary.le {t : Text} {n : Nat} (h : IsBoundary t n) : n ≤ byteLength t := by
  obtain ⟨before, after, rfl, rfl⟩ := h
  simp

theorem Stream.isBoundary_cursor (s : Stream src) : IsBoundary src.text s.cursor := by
  refine ⟨s.passed.reverse, s.rest, s.whole.symm, ?_⟩
  rw [byteLength_reverse, s.cursor_eq]

/-- Of two beginnings of a text, one with at most as many bytes begins the other. -/
theorem exists_append_of_byteLength_le {t u before after : Text} (h : t ++ u = before ++ after)
    (hle : byteLength t ≤ byteLength before) :
    ∃ middle, before = t ++ middle ∧ u = middle ++ after := by
  rcases List.append_eq_append_iff.1 h with ⟨middle, hbefore, hu⟩ | ⟨middle, rfl, rfl⟩
  · exact ⟨middle, hbefore, hu⟩
  · obtain rfl : middle = [] := by
      rw [← byteLength_eq_zero_iff]
      rw [byteLength_append] at hle
      omega
    exact ⟨[], by simp, rfl⟩

/-- A span selects something just if its offsets are in order and on character boundaries. -/
theorem Span.slice?_isSome_iff (s : Span) :
    s.slice?.isSome ↔ s.start ≤ s.stop ∧ IsBoundary s.source s.start ∧
      IsBoundary s.source s.stop := by
  rw [Option.isSome_iff_exists]
  constructor
  · rintro ⟨t, ht⟩
    obtain ⟨before, after, hsource, hstart, hstop⟩ := (slice?_eq_some_iff s t).1 ht
    refine ⟨by omega, ⟨before, t ++ after, hsource, hstart⟩, before ++ t, after, ?_, ?_⟩
    · rw [hsource, List.append_assoc]
    · rw [byteLength_append, hstop]
  · rintro ⟨hle, ⟨before, rest, hsource, hstart⟩, upto, after, hsource', hstop⟩
    obtain ⟨t, rfl, rfl⟩ := exists_append_of_byteLength_le (hsource.symm.trans hsource') (by omega)
    refine ⟨t, (slice?_eq_some_iff s t).2 ⟨before, after, hsource, hstart, ?_⟩⟩
    rw [← hstop, byteLength_append]

/-! ## Streams -/

/-- The characters from a byte offset on. -/
def restAt? (t : Text) (cursor : Nat) : Option Text := Span.slice? ⟨t, cursor, byteLength t⟩

/-- The character at a byte offset, with the offset after it, or nothing at the end. -/
def unconsAt? (t : Text) (cursor : Nat) : Option (Option (Char × Nat)) := do
  let rest ← restAt? t cursor
  return rest.head?.map fun c => (c, cursor + c.utf8Size)

/-- The text from one byte offset to another; it is empty if the other one is not further on. -/
def sliceAt? (t : Text) (cursor stop : Nat) : Option Text :=
  Span.slice? ⟨t, cursor, max stop cursor⟩

theorem restAt?_append (before after : Text) :
    restAt? (before ++ after) (byteLength before) = some after := by
  refine (Span.slice?_eq_some_iff _ _).2 ⟨before, [], ?_, rfl, ?_⟩
  · rw [List.append_nil]
  · exact (byteLength_append ..).symm

namespace Stream

theorem restAt?_cursor (s : Stream src) : restAt? src.text s.cursor = some s.rest := by
  rw [← s.whole, s.cursor_eq, ← byteLength_reverse, restAt?_append]

theorem unconsAt?_cursor (s : Stream src) :
    unconsAt? src.text s.cursor = some (s.uncons.map fun r => (r.1, r.2.cursor)) := by
  rw [unconsAt?, s.restAt?_cursor]
  rcases h : s.uncons with _ | ⟨c, next⟩
  · rw [(uncons_eq_none_iff s).1 h]
    rfl
  · rw [rest_of_uncons h, Option.map_some, cursor_of_uncons h]
    rfl

/-- From a place to one that is not before it lies a text. -/
theorem exists_passes_of_cursor_le {s s' : Stream src} (h : s.cursor ≤ s'.cursor) :
    ∃ t, s.Passes t s' := by
  have hwhole : s.passed.reverse ++ s.rest = s'.passed.reverse ++ s'.rest :=
    s.whole.trans s'.whole.symm
  have hle : byteLength s.passed.reverse ≤ byteLength s'.passed.reverse := by
    rw [byteLength_reverse, byteLength_reverse, ← s.cursor_eq, ← s'.cursor_eq]
    exact h
  obtain ⟨t, -, ht⟩ := exists_append_of_byteLength_le hwhole hle
  exact ⟨t, ht⟩

/-- Nothing lies between a place and an earlier one. -/
theorem sliceTo_of_cursor_le {s s' : Stream src} (h : s'.cursor ≤ s.cursor) :
    s.sliceTo s' = [] := by
  have hcut := splitAtByte_byteLength [] s.rest
  rw [byteLength_nil, List.nil_append] at hcut
  rw [sliceTo, Nat.sub_eq_zero_of_le h, hcut]

theorem sliceAt?_cursor (s s' : Stream src) :
    sliceAt? src.text s.cursor s'.cursor = some (s.sliceTo s') := by
  unfold sliceAt?
  rcases Nat.le_total s.cursor s'.cursor with h | h
  · obtain ⟨t, ht⟩ := exists_passes_of_cursor_le h
    rw [Nat.max_eq_left h, ht.slice?_eq, ← ht.eq_sliceTo]
  · rw [Nat.max_eq_right h, (Passes.refl s).slice?_eq, sliceTo_of_cursor_le h]

end Stream

/-- The span between two places has no length, and selects nothing, just if it runs backwards. -/
theorem Success.span_undefined_iff {α : Type} (s : Success src α) :
    (s.span.length? = none ↔ s.next.cursor < s.start.cursor) ∧
      (s.span.slice? = none ↔ s.next.cursor < s.start.cursor) := by
  constructor
  · show (if s.start.cursor ≤ s.next.cursor then some _ else none) = none ↔ _
    by_cases h : s.start.cursor ≤ s.next.cursor
    · simp [h]
    · simp [h, Nat.lt_of_not_le h]
  · have hsome := Span.slice?_isSome_iff s.span
    have hboundaries := And.intro s.start.isBoundary_cursor s.next.isBoundary_cursor
    rw [← Option.not_isSome_iff_eq_none, hsome]
    simp only [span, hboundaries, and_true, and_self, Nat.not_le]

/-! ## Lines -/

/-- The byte offset of the first line feed. -/
def firstLineFeed? : Text → Option Nat
  | [] => none
  | c :: t => if c = '\n' then some 0 else (firstLineFeed? t).map (· + c.utf8Size)

/-- The byte offset of the last line feed. -/
def lastLineFeed? : Text → Option Nat
  | [] => none
  | c :: t =>
    match lastLineFeed? t with
    | some n => some (n + c.utf8Size)
    | none => if c = '\n' then some 0 else none

/-- The last character boundary that is not beyond a byte offset. -/
def clampToBoundary (t : Text) (offset : Nat) : Nat := byteLength (splitAtByte offset t).1

/-- The row, column and line of a byte offset, computed with byte offsets. -/
def findLine? (t : Text) (offset : Nat) : Option LinePlace := do
  let offset := clampToBoundary t offset
  let before ← Span.slice? ⟨t, 0, offset⟩
  let after ← restAt? t offset
  let lineStart := (lastLineFeed? before).elim 0 (· + 1)
  let lineEnd := (firstLineFeed? after).elim (byteLength t) (offset + ·)
  let left ← Span.slice? ⟨t, lineStart, offset⟩
  let line ← Span.slice? ⟨t, lineStart, lineEnd⟩
  return { row := before.count '\n', column := left.length, line }

/-- What follows a byte offset on its line, clipped. -/
def nextOnLine? (t : Text) (offset width : Nat) : Option Text := do
  let rest ← restAt? t (clampToBoundary t offset)
  return clip width (untilLineEnd rest)

theorem exists_eq_untilLineEnd_append (t : Text) : ∃ after, t = untilLineEnd t ++ after :=
  ⟨_, (untilLineEnd_append_dropWhile t).symm⟩

theorem exists_eq_append_sinceLineStart (t : Text) : ∃ before, t = before ++ sinceLineStart t := by
  obtain ⟨after, h⟩ := exists_eq_untilLineEnd_append t.reverse
  refine ⟨after.reverse, ?_⟩
  rw [sinceLineStart, ← List.reverse_append, ← h, List.reverse_reverse]

/-- The first line feed, or else the end, is where the line ends. -/
theorem firstLineFeed?_elim (t : Text) (n : Nat) :
    (firstLineFeed? t).elim (n + byteLength t) (n + ·) = n + byteLength (untilLineEnd t) := by
  induction t generalizing n with
  | nil => rfl
  | cons c t ih =>
    by_cases hc : c = '\n'
    · subst hc
      rfl
    · have hrest := ih (n + c.utf8Size)
      rw [untilLineEnd_cons hc, byteLength_cons, byteLength_cons, ← Nat.add_assoc, ← Nat.add_assoc,
        ← hrest, firstLineFeed?, if_neg hc]
      cases firstLineFeed? t with
      | none => rfl
      | some k =>
        show n + (k + c.utf8Size) = n + c.utf8Size + k
        omega

theorem lastLineFeed?_isSome_iff (t : Text) : (lastLineFeed? t).isSome ↔ '\n' ∈ t := by
  induction t with
  | nil => simp [lastLineFeed?]
  | cons c t ih =>
    rw [List.mem_cons, ← ih, lastLineFeed?]
    cases lastLineFeed? t with
    | some n => simp
    | none => by_cases hc : c = '\n' <;> simp [hc, eq_comm]

theorem untilLineEnd_append (t u : Text) :
    untilLineEnd (t ++ u) = if '\n' ∈ t then untilLineEnd t else t ++ untilLineEnd u := by
  induction t with
  | nil => rfl
  | cons c t ih =>
    by_cases hc : c = '\n'
    · subst hc
      simp
    · rw [List.cons_append, untilLineEnd_cons hc, untilLineEnd_cons hc, ih]
      by_cases ht : '\n' ∈ t <;> simp [ht, Ne.symm hc]

/-- A character at the front belongs to the last line just if no line feed comes after it. -/
theorem sinceLineStart_cons (c : Char) (t : Text) :
    sinceLineStart (c :: t) =
      if '\n' ∈ t then sinceLineStart t else if c = '\n' then t else c :: t := by
  rw [sinceLineStart, List.reverse_cons, untilLineEnd_append]
  by_cases ht : '\n' ∈ t
  · simp [ht, sinceLineStart]
  · by_cases hc : c = '\n'
    · simp [ht, hc]
    · simp [ht, hc, untilLineEnd_cons hc]

/-- The byte after the last line feed, or else the beginning, is where the last line starts. -/
theorem lastLineFeed?_elim (t : Text) :
    (lastLineFeed? t).elim 0 (· + 1) + byteLength (sinceLineStart t) = byteLength t := by
  induction t with
  | nil => rfl
  | cons c t ih =>
    have hmem := lastLineFeed?_isSome_iff t
    rw [sinceLineStart_cons, lastLineFeed?, byteLength_cons]
    rcases h : lastLineFeed? t with _ | n
    · have hnot : '\n' ∉ t := by simpa [h] using hmem
      rw [if_neg hnot]
      by_cases hc : c = '\n'
      · subst hc
        rfl
      · simp [hc]
    · have hin : '\n' ∈ t := by simpa [h] using hmem
      rw [h] at ih
      rw [if_pos hin]
      simp only [Option.elim_some] at ih ⊢
      omega

theorem findLine?_eq (t : Text) (offset : Nat) : findLine? t offset = some (findLine t offset) := by
  unfold findLine? findLine clampToBoundary
  rcases hcut : splitAtByte offset t with ⟨before, after⟩
  have ht : t = before ++ after := by
    have hwhole := splitAtByte_fst_append_snd offset t
    rw [hcut] at hwhole
    exact hwhole.symm
  obtain ⟨earlier, hearlier⟩ := exists_eq_append_sinceLineStart before
  obtain ⟨later, hlater⟩ := exists_eq_untilLineEnd_append after
  have hstart : (lastLineFeed? before).elim 0 (· + 1) = byteLength earlier := by
    have hbytes := congrArg byteLength hearlier
    have helim := lastLineFeed?_elim before
    rw [byteLength_append] at hbytes
    omega
  have hend := firstLineFeed?_elim after (byteLength before)
  have hbefore : Span.slice? ⟨t, 0, byteLength before⟩ = some before :=
    (Span.slice?_eq_some_iff _ _).2 ⟨[], after, ht, rfl, by simp⟩
  have hafter : restAt? t (byteLength before) = some after := by rw [ht, restAt?_append]
  have hleft : Span.slice? ⟨t, byteLength earlier, byteLength before⟩ =
      some (sinceLineStart before) := by
    refine (Span.slice?_eq_some_iff _ _).2 ⟨earlier, after, ?_, rfl, ?_⟩
    · rw [ht, ← List.append_assoc, ← hearlier]
    · rw [← byteLength_append, ← hearlier]
  have hline : Span.slice? ⟨t, byteLength earlier,
      byteLength before + byteLength (untilLineEnd after)⟩ =
      some (sinceLineStart before ++ untilLineEnd after) := by
    refine (Span.slice?_eq_some_iff _ _).2 ⟨earlier, later, ?_, rfl, ?_⟩
    · rw [ht, List.append_assoc, ← hlater, ← List.append_assoc, ← hearlier]
    · rw [byteLength_append, ← Nat.add_assoc, ← byteLength_append, ← hearlier]
  rw [← byteLength_append, ← ht] at hend
  simp only [hbefore, hafter, hstart, hend, hleft, hline, Option.bind_eq_bind, Option.bind_some,
    Option.pure_def]

theorem nextOnLine?_eq (t : Text) (offset width : Nat) :
    nextOnLine? t offset width = some (nextOnLine t offset width) := by
  have hrest := restAt?_append (splitAtByte offset t).1 (splitAtByte offset t).2
  rw [splitAtByte_fst_append_snd] at hrest
  rw [nextOnLine?, clampToBoundary, hrest]
  rfl

/-! ## Reports -/

/-- What stands at a byte offset: up to `width` characters of its line, and at least one. -/
def sawAt? (t : Text) (cursor width : Nat) : Option Saw := do
  match ← unconsAt? t cursor with
  | none => return .endOfInput
  | some (c, _) =>
    match ← nextOnLine? t cursor width with
    | [] => return .excerpt [c]
    | shown => return .excerpt shown

/-- The wording of a failure at a byte offset. -/
def renderAt? (t : Text) (cursor : Nat) (expected : List String) (width : Nat) : Option String := do
  let place ← findLine? t cursor
  let saw ← sawAt? t cursor width
  return Report.toString { place, expected, saw }

theorem Failure.sawAt?_cursor (f : Failure src) (width : Nat) :
    sawAt? src.text f.cursor width = some (f.saw width) := by
  have huncons : unconsAt? src.text f.cursor =
      some (f.position.uncons.map fun r => (r.1, r.2.cursor)) := f.position.unconsAt?_cursor
  rw [sawAt?, huncons, nextOnLine?_eq, saw]
  rcases h : f.position.uncons with _ | ⟨c, next⟩
  · rw [(Stream.uncons_eq_none_iff _).1 h]
    rfl
  · rw [Stream.rest_of_uncons h]
    simp only [Option.map_some, Option.bind_eq_bind, Option.bind_some, Option.pure_def]
    cases nextOnLine src.text f.cursor width <;> rfl

theorem Failure.renderAt?_cursor (f : Failure src) (width : Nat) :
    renderAt? src.text f.cursor f.expected width = some (f.renderWith width) := by
  rw [renderAt?, findLine?_eq, f.sawAt?_cursor]
  rfl

end Descent
