import Mathlib.Data.List.TFAE
import Descent.Proofs.Decoding
import Descent.Proofs.Joining
import Descent.Proofs.Reading

/-!
# Walks

A walk starts at the first place of a source and goes on by `next` or by `uncons`
(`Stream.Reached`).  Every step passes one character, so `n` steps pass the first `n` characters,
whatever their lengths in bytes (`Stream.reached_iff`), and the ways to ask for the end all ask
whether a character is left (`Stream.Reached.ended_tfae`).  Skipping characters is a walk
(`Stream.skip_eq_ok_iff`), and taking them until there are none gives the whole text
(`Stream.readAll_spec`).

The same walks can be made over the bytes of the source, with an offset and no characters: what one
step can do is the same on both sides, and so by induction is what `n` steps can do
(`Walk.iff_of_step_iff`).
-/

namespace Descent

variable {src : Source}

/-! ## Steps and walks -/

/-- Where a number of steps leads from a start. -/
inductive Walk {σ : Type} (step : σ → σ → Prop) (start : σ) : Nat → σ → Prop
  | start : Walk step start 0 start
  | step {n : Nat} {s t : σ} : Walk step start n s → step s t → Walk step start (n + 1) t

/-- If each step from an image is the image of a step, walks from an image are the images of
walks. -/
theorem Walk.iff_of_step_iff {σ τ : Type} {step : σ → σ → Prop} {step' : τ → τ → Prop} {f : σ → τ}
    (hstep : ∀ s b, step' (f s) b ↔ ∃ t, step s t ∧ f t = b) (start : σ) (n : Nat) (b : τ) :
    Walk step' (f start) n b ↔ ∃ s, Walk step start n s ∧ f s = b := by
  constructor
  · intro h
    induction h with
    | start => exact ⟨start, .start, rfl⟩
    | step _ hb ih =>
      obtain ⟨s, hs, rfl⟩ := ih
      obtain ⟨t, ht, rfl⟩ := (hstep s _).1 hb
      exact ⟨t, hs.step ht, rfl⟩
  · rintro ⟨s, hs, rfl⟩
    induction hs with
    | start => exact .start
    | step _ ht ih => exact ih.step ((hstep _ _).2 ⟨_, ht, rfl⟩)

/-- A step goes to the next place, by `next` or by `uncons`. -/
def ByteStream.Step (b b' : ByteStream) : Prop :=
  b.next? = some (.ok b') ∨ ∃ c, b.uncons? = some (some (c, b'))

/-- A place that `n` steps lead to from the first place of a text. -/
def ByteStream.Reached (t : Text) (n : Nat) (b : ByteStream) : Prop := Walk Step (ofText t) n b

namespace Stream

/-- A step goes to the next place, by `next` or by `uncons`. -/
def Step (s t : Stream src) : Prop := s.next = .ok t ∨ ∃ c, s.uncons = some (c, t)

/-- A place that `n` steps lead to from the first place of the source. -/
def Reached (n : Nat) (s : Stream src) : Prop := Walk Step (first src) n s

variable {s t : Stream src} {n : Nat}

theorem next_eq_ok_iff : s.next = .ok t ↔ ∃ c, s.uncons = some (c, t) := by
  rw [next]
  rcases s.uncons with _ | ⟨c, next⟩ <;> simp

/-- A step passes one character. -/
theorem step_iff : s.Step t ↔ ∃ c, s.Passes [c] t := by
  rw [Step, next_eq_ok_iff, or_self]
  refine exists_congr fun c => ⟨Passes.of_uncons, fun h => ?_⟩
  obtain ⟨next, hnext, -⟩ := exists_uncons_of_rest h
  obtain rfl : next = t := (Passes.of_uncons hnext).unique h
  exact hnext

/-- A walk passes one character with each step. -/
theorem walk_iff : Walk Step s n t ↔ ∃ w : Text, w.length = n ∧ s.Passes w t := by
  constructor
  · intro h
    induction h with
    | start => exact ⟨[], rfl, .refl s⟩
    | step _ hstep ih =>
      obtain ⟨w, rfl, hw⟩ := ih
      obtain ⟨c, hc⟩ := step_iff.1 hstep
      exact ⟨w ++ [c], by simp, hw.trans hc⟩
  · rintro ⟨w, rfl, hw⟩
    -- A walk grows at its end, and so does the text that it passes.
    induction w using List.reverseRecOn generalizing t with
    | nil =>
      obtain rfl : s = t := (Passes.refl s).unique hw
      exact .start
    | append_singleton w c ih =>
      obtain ⟨middle, hmiddle, hc⟩ := hw.split
      rw [List.length_append]
      exact (ih hmiddle).step (step_iff.2 ⟨c, hc⟩)

theorem skip_succ_of_uncons {c : Char} (h : s.uncons = some (c, t)) (n : Nat) :
    skip (n + 1) s = skip n t := by
  rw [skip, next_eq_ok_iff.2 ⟨c, h⟩]
  rfl

theorem skip_succ_of_rest_eq_nil (h : s.rest = []) (n : Nat) :
    skip (n + 1) s = .error (.stepPastEnd s.cursor) := by
  rw [skip, next, (uncons_eq_none_iff s).2 h]
  rfl

/-- To skip characters is to walk.  The walk grows at its end while skipping takes the first
character first, so both are compared with the text that they pass. -/
theorem skip_eq_ok_iff : skip n s = .ok t ↔ Walk Step s n t := by
  rw [walk_iff]
  induction n generalizing s with
  | zero =>
    constructor
    · intro h
      obtain rfl : s = t := Except.ok.inj h
      exact ⟨[], rfl, .refl s⟩
    · rintro ⟨w, hw, h⟩
      obtain rfl := List.length_eq_zero_iff.1 hw
      exact congrArg Except.ok ((Passes.refl s).unique h)
  | succ n ih =>
    rcases h : s.uncons with _ | ⟨c, next⟩
    · have hrest := (uncons_eq_none_iff s).1 h
      rw [skip_succ_of_rest_eq_nil hrest]
      refine ⟨nofun, ?_⟩
      rintro ⟨w, hw, hpasses⟩
      have hlength := congrArg List.length (hrest.symm.trans hpasses)
      rw [List.length_append, hw, List.length_nil] at hlength
      omega
    · rw [skip_succ_of_uncons h, ih]
      constructor
      · rintro ⟨w, rfl, hw⟩
        exact ⟨c :: w, rfl, (Passes.of_uncons h).trans hw⟩
      · rintro ⟨w, hw, hpasses⟩
        obtain ⟨d, w, rfl⟩ := List.exists_cons_of_length_eq_add_one hw
        have hrest : c :: next.rest = d :: (w ++ t.rest) := (rest_of_uncons h).symm.trans hpasses
        exact ⟨w, Nat.succ.inj hw, (List.cons.inj hrest).2⟩

/-- After `n` steps just the first `n` characters are passed. -/
theorem reached_iff :
    Reached n s ↔ n ≤ src.text.length ∧ (first src).Passes (src.text.take n) s := by
  rw [Reached, walk_iff]
  constructor
  · rintro ⟨w, rfl, hw⟩
    have htext : src.text = w ++ s.rest := hw
    rw [htext, List.take_left, ← htext]
    exact ⟨by rw [htext, List.length_append]; omega, hw⟩
  · rintro ⟨hle, h⟩
    exact ⟨src.text.take n, List.length_take_of_le hle, h⟩

/-- Every place is reached by a walk. -/
theorem reached_length_passed (s : Stream src) : Reached s.passed.length s :=
  walk_iff.2 ⟨s.passed.reverse, List.length_reverse, s.whole.symm⟩

/-- What `n` steps leave to come. -/
theorem Reached.rest_eq (h : Reached n s) : s.rest = src.text.drop n := by
  have hpasses : src.text = src.text.take n ++ s.rest := (reached_iff.1 h).2
  exact List.append_cancel_left (hpasses.symm.trans (List.take_append_drop n src.text).symm)

theorem Reached.cursor_eq (h : Reached n s) : s.cursor = byteLength (src.text.take n) := by
  rw [(reached_iff.1 h).2.cursor_eq, cursor_first, Nat.zero_add]

/-! ## The end -/

theorem get_eq_error_iff : s.get = .error (.readPastEnd s.cursor) ↔ s.rest = [] := by
  rw [← uncons_eq_none_iff, get]
  rcases s.uncons with _ | ⟨c, next⟩ <;> simp

theorem next_eq_error_iff : s.next = .error (.stepPastEnd s.cursor) ↔ s.rest = [] := by
  rw [← uncons_eq_none_iff, next]
  rcases s.uncons with _ | ⟨c, next⟩ <;> simp

theorem Reached.rest_eq_nil_iff (h : Reached n s) : n = src.text.length ↔ s.rest = [] := by
  have hle := (reached_iff.1 h).1
  rw [h.rest_eq, List.drop_eq_nil_iff]
  omega

/-- All ways to ask for the end agree. -/
theorem Reached.ended_tfae (h : Reached n s) :
    [n = src.text.length, byteLength src.text ≤ s.cursor, s.atEnd = true, s.uncons = none,
      s.get = .error (.readPastEnd s.cursor), s.next = .error (.stepPastEnd s.cursor)].TFAE := by
  apply List.tfae_of_forall (s.rest = [])
  simp only [List.forall_mem_cons, List.not_mem_nil, false_implies, implies_true, and_true]
  exact ⟨h.rest_eq_nil_iff, s.byteLength_le_cursor_iff, List.isEmpty_iff, s.uncons_eq_none_iff,
    get_eq_error_iff, next_eq_error_iff⟩

/-- Before the end every way to read gives the next character or the place after it. -/
theorem Reached.reads (h : Reached n s) (hn : n < src.text.length) :
    s.get = .ok src.text[n] ∧ ∃ t, s.uncons = some (src.text[n], t) ∧ s.next = .ok t ∧
      t.cursor = s.cursor + src.text[n].utf8Size := by
  have hrest := h.rest_eq
  rw [List.drop_eq_getElem_cons hn] at hrest
  obtain ⟨t, ht, -⟩ := exists_uncons_of_rest hrest
  refine ⟨?_, t, ht, next_eq_ok_iff.2 ⟨_, ht⟩, cursor_of_uncons ht⟩
  rw [get, ht]

/-! ## Reading to the end -/

/-- Takes characters until there are none, and gives them with the place where it stops. -/
def readAll (s : Stream src) : Text × Stream src :=
  match _h : s.uncons with
  | none => ([], s)
  | some (c, t) =>
    let (read, last) := t.readAll
    (c :: read, last)
termination_by s.rest.length
decreasing_by
  exact length_rest_lt_of_cursor_lt ((Passes.of_uncons ‹_›).cursor_lt (List.cons_ne_nil _ _))

/-- What is read is what was to come, and then nothing is left. -/
theorem readAll_spec (s : Stream src) : s.readAll.1 = s.rest ∧ s.readAll.2.rest = [] := by
  fun_induction readAll s with
  | case1 s h =>
    have hrest := (uncons_eq_none_iff s).1 h
    exact ⟨hrest.symm, hrest⟩
  | case2 s c t h read last hread ih =>
    rw [hread] at ih
    rw [rest_of_uncons h]
    exact ⟨congrArg (c :: ·) ih.1, ih.2⟩

theorem cursor_of_rest_eq_nil (h : s.rest = []) : s.cursor = byteLength src.text :=
  Nat.le_antisymm s.cursor_le (s.byteLength_le_cursor_iff.2 h)

/-! ## Walks over bytes -/

/-- The bytes of a source are stepped through as the source is. -/
theorem step_toByteStream_iff (s : Stream src) (b : ByteStream) :
    s.toByteStream.Step b ↔ ∃ t, s.Step t ∧ t.toByteStream = b := by
  rw [ByteStream.Step, next?_toByteStream, uncons?_toByteStream, next]
  simp only [Step, next]
  rcases s.uncons with _ | ⟨c, next⟩ <;> simp [Except.map]

theorem reached_toByteStream_iff (n : Nat) (b : ByteStream) :
    ByteStream.Reached src.text n b ↔ ∃ s : Stream src, Reached n s ∧ s.toByteStream = b :=
  Walk.iff_of_step_iff step_toByteStream_iff (first src) n b

/-- **Walks.**  After `n` steps the cursor is the number of bytes of the first `n` characters; these
and what is left make up the text.  All ways to ask for the end say that it is reached just when all
characters are passed; before that all ways to read give the next character, and the next place is
as many bytes further on as this character has.  Skipping `n` characters is such a walk, and every
place lies on one.  Slices between places in order fit together, and taking characters until there
are none gives the text and stops at its number of bytes.  All this can be seen in the bytes of the
text as well: they are walked through by the same steps, and show the same at each place. -/
theorem walks_text_exactly (src : Source) :
    (∀ (n : Nat) (s : Stream src), Reached n s →
      n ≤ src.text.length ∧ s.cursor = byteLength (src.text.take n) ∧
      (first src).sliceTo s = src.text.take n ∧ (first src).sliceTo s ++ s.rest = src.text ∧
      [n = src.text.length, byteLength src.text ≤ s.cursor, s.atEnd = true, s.uncons = none,
        s.get = .error (.readPastEnd s.cursor), s.next = .error (.stepPastEnd s.cursor)].TFAE ∧
      ∀ hn : n < src.text.length, s.get = .ok src.text[n] ∧ ∃ t, s.uncons = some (src.text[n], t) ∧
        s.next = .ok t ∧ t.cursor = s.cursor + src.text[n].utf8Size) ∧
    (∀ (n : Nat) (s : Stream src), skip n (first src) = .ok s ↔ Reached n s) ∧
    (∀ s : Stream src, ∃ n, Reached n s) ∧
    (∀ a b c : Stream src, a.cursor ≤ b.cursor → b.cursor ≤ c.cursor →
      a.sliceTo b ++ b.sliceTo c = a.sliceTo c) ∧
    (∃ last : Stream src, (first src).readAll = (src.text, last) ∧ last.uncons = none ∧
      last.cursor = byteLength src.text) ∧
    (∀ (n : Nat) (b : ByteStream),
      ByteStream.Reached src.text n b ↔ ∃ s : Stream src, Reached n s ∧ s.toByteStream = b) ∧
    ∀ s : Stream src, s.Agrees s.toByteStream := by
  refine ⟨fun n s hs => ?_, fun n s => skip_eq_ok_iff, fun s => ⟨_, s.reached_length_passed⟩,
    fun a b c hab hbc => sliceTo_append_sliceTo hab hbc, ?_, reached_toByteStream_iff,
    agrees_toByteStream⟩
  · obtain ⟨hle, hpasses⟩ := reached_iff.1 hs
    have hslice := hpasses.eq_sliceTo
    refine ⟨hle, hs.cursor_eq, hslice.symm, ?_, hs.ended_tfae, hs.reads⟩
    rw [← hslice]
    exact hpasses.symm
  · obtain ⟨htext, hrest⟩ := (first src).readAll_spec
    exact ⟨_, Prod.ext htext rfl, (uncons_eq_none_iff _).2 hrest, cursor_of_rest_eq_nil hrest⟩

/-- Characters of one, two, three and four bytes, passed by steps of both kinds. -/
theorem walks_text_exactly_of_all_lengths :
    let src : Source := ⟨0, ['a', 'é', '€', '🦀']⟩
    let crab : Stream src := ⟨['€', 'é', 'a'], ['🦀'], 6, rfl, rfl⟩
    let last : Stream src := ⟨['🦀', '€', 'é', 'a'], [], 10, rfl, rfl⟩
    Reached 3 crab ∧ crab.cursor = byteLength ['a', 'é', '€'] ∧
      (first src).sliceTo crab ++ crab.rest = src.text ∧
      3 < src.text.length ∧ crab.get = .ok '🦀' ∧ crab.next = .ok last ∧
        last.cursor = crab.cursor + 4 ∧
      Reached 4 last ∧ last.atEnd = true ∧ last.get = .error (.readPastEnd 10) ∧
      last.next = .error (.stepPastEnd 10) ∧
      (first src).cursor ≤ crab.cursor ∧ crab.cursor ≤ last.cursor ∧
      (first src).sliceTo crab ++ crab.sliceTo last = (first src).sliceTo last ∧
      skip 4 (first src) = .ok last ∧ (first src).readAll = (src.text, last) ∧
      ByteStream.Reached src.text 3 crab.toByteStream ∧
      crab.toByteStream.get? = some (.ok '🦀') := by
  intro src crab last
  let accent : Stream src := ⟨['a'], ['é', '€', '🦀'], 1, rfl, rfl⟩
  let euro : Stream src := ⟨['é', 'a'], ['€', '🦀'], 3, rfl, rfl⟩
  have haccent : Reached 1 accent := Walk.start.step (.inl rfl)
  have heuro : Reached 2 euro := haccent.step (.inr ⟨'é', rfl⟩)
  have hcrab : Reached 3 crab := heuro.step (.inl rfl)
  have hlast : Reached 4 last := hcrab.step (.inr ⟨'🦀', rfl⟩)
  obtain ⟨hplaces, hskip, -, hslices, ⟨stop, hread, -, hstop⟩, hbytes, hagrees⟩ :=
    walks_text_exactly src
  obtain ⟨-, hcursor, -, htext, -, hreads⟩ := hplaces 3 crab hcrab
  obtain ⟨hget, after, -, hnext, hstep⟩ := hreads (by decide)
  obtain ⟨-, -, -, -, hended, -⟩ := hplaces 4 last hlast
  have hafter : after = last := eq_of_cursor_eq hstep
  have hlast' : stop = last := eq_of_cursor_eq hstop
  rw [hafter] at hnext hstep
  rw [hlast'] at hread
  refine ⟨hcrab, hcursor, htext, by decide, hget, hnext, hstep, hlast, (hended.out 0 2).1 rfl,
    (hended.out 0 4).1 rfl, (hended.out 0 5).1 rfl, by decide, by decide, ?_,
    (hskip 4 last).2 hlast, hread,
    ?_, ?_⟩
  · exact hslices (first src) crab last (by decide) (by decide)
  · exact (hbytes 3 crab.toByteStream).2 ⟨crab, hcrab, rfl⟩
  · rw [(hagrees crab).get, hget]
    rfl

end Stream

end Descent
