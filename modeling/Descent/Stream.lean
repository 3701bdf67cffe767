import Descent.Text.Bytes

/-!
# Sources and streams

A `Source` is a text with an identity: two sources are the same only if both agree, so equal texts
read in from two places stay apart.  A `Stream` is a place in a source, held as the characters
already passed and the characters still to come.  The proof that together they make up the text is
part of the stream, so a stream is always on a character boundary of its source.

Within one source a stream is determined by its `cursor`, the number of bytes passed
(`Stream.eq_of_cursor_eq`), and a stream further on has fewer characters to come
(`Stream.length_rest_lt_of_cursor_lt`), which is what makes repetition end.
-/

namespace Descent

/-- A text to be parsed, told apart from other texts by a number. -/
structure Source where
  id : Nat
  text : Text
deriving DecidableEq, Repr

/-- The errors of reading or stepping at the end of a source. -/
inductive StreamError where
  | readPastEnd (cursor : Nat)
  | stepPastEnd (cursor : Nat)
deriving DecidableEq, Repr

/-- The wording of a stream error. -/
def StreamError.message : StreamError → String
  | readPastEnd cursor => "cannot read past end of buffer (cursor " ++ toString cursor ++ ")"
  | stepPastEnd cursor => "cannot step past end of buffer (cursor " ++ toString cursor ++ ")"

/-- The cursor at which a stream error arose. -/
def StreamError.cursor : StreamError → Nat
  | readPastEnd cursor => cursor
  | stepPastEnd cursor => cursor

/-- A place in a source. -/
structure Stream (src : Source) where
  /-- The characters already passed, the last one first. -/
  passed : List Char
  /-- The characters still to come. -/
  rest : Text
  /-- The number of bytes already passed. -/
  cursor : Nat
  whole : passed.reverse ++ rest = src.text
  cursor_eq : cursor = byteLength passed

namespace Stream

variable {src : Source}

/-- The first place of a source. -/
def first (src : Source) : Stream src := ⟨[], src.text, 0, rfl, rfl⟩

/-- Whether no characters are left. -/
def atEnd (s : Stream src) : Bool := s.rest.isEmpty

/-- The next character and the place after it, unless the stream is at the end. -/
def uncons : Stream src → Option (Char × Stream src)
  | ⟨_, [], _, _, _⟩ => none
  | ⟨passed, c :: rest, cursor, whole, cursor_eq⟩ =>
    some (c, {
      passed := c :: passed
      rest := rest
      cursor := cursor + c.utf8Size
      whole := by simpa using whole
      cursor_eq := by rw [cursor_eq, byteLength_cons, Nat.add_comm] })

/-- The next character. -/
def get (s : Stream src) : Except StreamError Char :=
  match s.uncons with
  | none => .error (.readPastEnd s.cursor)
  | some (c, _) => .ok c

/-- The place after the next character. -/
def next (s : Stream src) : Except StreamError (Stream src) :=
  match s.uncons with
  | none => .error (.stepPastEnd s.cursor)
  | some (_, t) => .ok t

/-- The place `n` characters further on. -/
def skip : Nat → Stream src → Except StreamError (Stream src)
  | 0, s => .ok s
  | n + 1, s => do skip n (← s.next)

/-- The text from one place to another; it is empty if the other place is not further on. -/
def sliceTo {src' : Source} (s : Stream src) (stop : Stream src') : Text :=
  (splitAtByte (stop.cursor - s.cursor) s.rest).1

/-- Whether two streams read the same source. -/
def sameSource {src' : Source} (_ : Stream src) (_ : Stream src') : Bool := src == src'

/-- Whether two streams are at the same place of the same source. -/
def samePlace {src' : Source} (s : Stream src) (t : Stream src') : Bool :=
  s.sameSource t && s.cursor == t.cursor

/-- A short account of a stream: its cursor and the length of its source in bytes. -/
def summary (s : Stream src) : String :=
  "Stream \x7b cursor: " ++ toString s.cursor ++ ", len: " ++ toString (byteLength src.text) ++
    " \x7d"

/-! ## Places of one source -/

@[simp]
theorem cursor_first : (first src).cursor = 0 := rfl

@[simp]
theorem rest_first : (first src).rest = src.text := rfl

/-- What was passed and what is to come make up the bytes of the source. -/
theorem cursor_add_byteLength_rest (s : Stream src) :
    s.cursor + byteLength s.rest = byteLength src.text := by
  rw [← s.whole, byteLength_append, byteLength_reverse, cursor_eq]

theorem cursor_le (s : Stream src) : s.cursor ≤ byteLength src.text := by
  have := s.cursor_add_byteLength_rest
  omega

theorem length_passed_add_length_rest (s : Stream src) :
    s.passed.length + s.rest.length = src.text.length := by
  rw [← s.whole, List.length_append, List.length_reverse]

theorem passed_suffix_reverse (s : Stream src) : s.passed <:+ src.text.reverse :=
  ⟨s.rest.reverse, by rw [← s.whole]; simp⟩

/-- Of two places, the one with fewer characters passed lies before the other. -/
theorem passed_suffix_of_length_le {s t : Stream src} (h : s.passed.length ≤ t.passed.length) :
    s.passed <:+ t.passed :=
  List.suffix_of_suffix_length_le s.passed_suffix_reverse t.passed_suffix_reverse h

theorem cursor_le_of_length_passed_le {s t : Stream src}
    (h : s.passed.length ≤ t.passed.length) : s.cursor ≤ t.cursor := by
  rw [s.cursor_eq, t.cursor_eq]
  exact byteLength_le_of_suffix (passed_suffix_of_length_le h)

/-- A stream further on has fewer characters to come. -/
theorem length_rest_lt_of_cursor_lt {s t : Stream src} (h : s.cursor < t.cursor) :
    t.rest.length < s.rest.length := by
  have hs := s.length_passed_add_length_rest
  have ht := t.length_passed_add_length_rest
  by_cases hle : t.passed.length ≤ s.passed.length
  · have := cursor_le_of_length_passed_le hle
    omega
  · omega

/-- Streams that passed the same characters are equal. -/
theorem eq_of_passed_eq {s t : Stream src} (h : s.passed = t.passed) : s = t := by
  obtain ⟨p, r, m, hs, rfl⟩ := s
  obtain ⟨q, u, n, ht, rfl⟩ := t
  obtain rfl : p = q := h
  obtain rfl : r = u := List.append_cancel_left (hs.trans ht.symm)
  rfl

/-- Within one source the cursor determines the stream. -/
theorem eq_of_cursor_eq {s t : Stream src} (h : s.cursor = t.cursor) : s = t := by
  apply eq_of_passed_eq
  have key : ∀ {s t : Stream src}, s.passed.length ≤ t.passed.length → s.cursor = t.cursor →
      s.passed = t.passed := by
    intro s t hle h
    obtain ⟨r, hr⟩ := passed_suffix_of_length_le hle
    have hb : byteLength (r ++ s.passed) = byteLength t.passed := congrArg byteLength hr
    rw [byteLength_append] at hb
    rw [s.cursor_eq, t.cursor_eq] at h
    have : r = [] := (byteLength_eq_zero_iff r).1 (by omega)
    simpa [this] using hr
  rcases Nat.le_total s.passed.length t.passed.length with hle | hle
  · exact key hle h
  · exact (key hle h.symm).symm

theorem cursor_eq_iff {s t : Stream src} : s.cursor = t.cursor ↔ s = t :=
  ⟨eq_of_cursor_eq, fun h => h ▸ rfl⟩

instance : DecidableEq (Stream src) := fun _ _ => decidable_of_iff _ cursor_eq_iff

/-- A stream cuts its source at its cursor. -/
theorem splitAtByte_cursor (s : Stream src) :
    splitAtByte s.cursor src.text = (s.passed.reverse, s.rest) := by
  rw [← s.whole, cursor_eq, ← byteLength_reverse, splitAtByte_byteLength]

/-! ## Steps -/

theorem uncons_eq_none_iff (s : Stream src) : s.uncons = none ↔ s.rest = [] := by
  obtain ⟨p, r, n, h, hn⟩ := s
  cases r <;> simp [uncons]

/-- A step passes exactly one character. -/
theorem passed_of_uncons {s t : Stream src} {c : Char} (h : s.uncons = some (c, t)) :
    t.passed = c :: s.passed := by
  obtain ⟨p, r, n, hw, hn⟩ := s
  cases r with
  | nil => simp [uncons] at h
  | cons d r =>
    simp only [uncons, Option.some.injEq, Prod.mk.injEq] at h
    obtain ⟨rfl, rfl⟩ := h
    rfl

/-- A step takes one character from what is to come. -/
theorem rest_of_uncons {s t : Stream src} {c : Char} (h : s.uncons = some (c, t)) :
    s.rest = c :: t.rest := by
  have hs := s.whole
  rw [← t.whole, passed_of_uncons h, List.reverse_cons, List.append_assoc] at hs
  simpa using hs

theorem cursor_of_uncons {s t : Stream src} {c : Char} (h : s.uncons = some (c, t)) :
    t.cursor = s.cursor + c.utf8Size := by
  rw [t.cursor_eq, passed_of_uncons h, byteLength_cons, s.cursor_eq, Nat.add_comm]

/-- Where characters are to come, a step gives the first of them. -/
theorem exists_uncons_of_rest {s : Stream src} {c : Char} {r : Text} (h : s.rest = c :: r) :
    ∃ t, s.uncons = some (c, t) ∧ t.rest = r := by
  obtain ⟨p, u, n, hw, hn⟩ := s
  obtain rfl : u = c :: r := h
  exact ⟨_, rfl, rfl⟩

end Stream

end Descent
