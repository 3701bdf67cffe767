import Descent.Proofs.Slicing

/-!
# Reading bytes

A stream can do without characters: a buffer of bytes in UTF-8 and an offset are enough.
`ByteStream` reads that way.  It is at the end when the offset has reached the number of bytes, the
next character is decoded from the bytes that are left, and the bytes between two offsets are cut
out of the buffer, which cannot be done inside a character (`canCut`).

Over the bytes of a text the places where a cut can be made are the character boundaries
(`canCut_iff`), so that cutting bytes and slicing the text agree at all offsets, also where neither
can be done (`cut?_utf8Encode`).  At the cursor of a stream the bytes then show what the stream
shows (`Stream.agrees_toByteStream`): the next character is found there whatever its length, and no
read goes wrong.
-/

namespace Descent

variable {src : Source}

/-- A byte offset into a buffer of bytes.  Nothing forces it to be in range or on a boundary. -/
structure ByteStream where
  bytes : ByteArray
  cursor : Nat

namespace ByteStream

/-- The first place of a text. -/
def ofText (t : Text) : ByteStream := ⟨(String.ofList t).toByteArray, 0⟩

/-- Whether bytes can be cut at an offset: where a character begins, and at the end. -/
def canCut (bytes : ByteArray) (offset : Nat) : Bool :=
  if h : offset < bytes.size then decide bytes[offset].IsUTF8FirstByte
  else decide (offset = bytes.size)

/-- The bytes from one offset to another, if they can be cut out. -/
def cut? (bytes : ByteArray) (start stop : Nat) : Option ByteArray :=
  if start ≤ stop ∧ canCut bytes start ∧ canCut bytes stop then some (bytes.extract start stop)
  else none

/-- Whether the offset is not before the end. -/
def atEnd (b : ByteStream) : Bool := decide (b.bytes.size ≤ b.cursor)

/-- The bytes that are left. -/
def rest? (b : ByteStream) : Option ByteArray := cut? b.bytes b.cursor b.bytes.size

/-- The bytes from one place to another; there are none if the other place is not further on. -/
def sliceTo? (b stop : ByteStream) : Option ByteArray :=
  cut? b.bytes b.cursor (max stop.cursor b.cursor)

/-- The first character of the bytes that are left and the place after it, or nothing at the end. -/
def uncons? (b : ByteStream) : Option (Option (Char × ByteStream)) := do
  let rest ← b.rest?
  return (rest.utf8DecodeChar? 0).map fun c => (c, { b with cursor := b.cursor + c.utf8Size })

/-- The next character. -/
def get? (b : ByteStream) : Option (Except StreamError Char) := do
  match ← b.uncons? with
  | none => return .error (.readPastEnd b.cursor)
  | some (c, _) => return .ok c

/-- The place after the next character. -/
def next? (b : ByteStream) : Option (Except StreamError ByteStream) := do
  match ← b.uncons? with
  | none => return .error (.stepPastEnd b.cursor)
  | some (_, next) => return .ok next

/-! ## Cuts -/

theorem size_utf8Encode (t : Text) : t.utf8Encode.size = byteLength t := by
  rw [← utf8ByteSize_ofList, ← String.toByteArray_ofList]
  rfl

/-- The boundaries of a text are the positions of its string. -/
theorem isBoundary_iff_isValid (t : Text) (n : Nat) :
    IsBoundary t n ↔ String.Pos.Raw.IsValid (String.ofList t) ⟨n⟩ := by
  rw [String.Pos.Raw.isValid_iff_exists_append]
  constructor
  · rintro ⟨before, after, rfl, rfl⟩
    refine ⟨.ofList before, .ofList after, String.ofList_append, ?_⟩
    rw [← utf8ByteSize_ofList]
    rfl
  · rintro ⟨before, after, hwhole, hn⟩
    refine ⟨before.toList, after.toList, ?_, ?_⟩
    · rw [← String.toList_append, ← hwhole, String.toList_ofList]
    · rw [← utf8ByteSize_ofList, String.ofList_toList]
      exact (congrArg String.Pos.Raw.byteIdx hn).symm

/-- Bytes of a text can be cut at its boundaries, and nowhere else. -/
theorem canCut_iff (t : Text) (n : Nat) : canCut t.utf8Encode n = true ↔ IsBoundary t n := by
  rw [isBoundary_iff_isValid, String.Pos.Raw.isValid_iff_isUTF8FirstByte]
  have hend : (⟨n⟩ : String.Pos.Raw) = (String.ofList t).rawEndPos ↔ n = t.utf8Encode.size := by
    rw [String.Pos.Raw.ext_iff, ← String.toByteArray_ofList]
    rfl
  rw [hend]
  by_cases hlt : n < t.utf8Encode.size
  · rw [canCut, dif_pos hlt, decide_eq_true_iff, or_iff_right (Nat.ne_of_lt hlt)]
    exact ⟨fun h => ⟨hlt, h⟩, fun ⟨_, h⟩ => h⟩
  · rw [canCut, dif_neg hlt, decide_eq_true_iff, or_iff_left fun ⟨h, _⟩ => hlt h]

theorem extract_append_append (before inside after : ByteArray) :
    (before ++ (inside ++ after)).extract before.size (before.size + inside.size) = inside := by
  rw [← Nat.add_zero before.size, Nat.add_assoc, Nat.zero_add, ByteArray.extract_append_size_add,
    ByteArray.extract_append_eq_left rfl]

/-- Cutting the bytes of a text is slicing the text, at all offsets. -/
theorem cut?_utf8Encode (t : Text) (start stop : Nat) :
    cut? t.utf8Encode start stop = (Span.slice? ⟨t, start, stop⟩).map List.utf8Encode := by
  have hcut : (start ≤ stop ∧ canCut t.utf8Encode start ∧ canCut t.utf8Encode stop) ↔
      (Span.slice? ⟨t, start, stop⟩).isSome := by
    rw [canCut_iff, canCut_iff, Span.slice?_isSome_iff]
  unfold cut?
  rcases hslice : Span.slice? ⟨t, start, stop⟩ with _ | inside
  · rw [hslice] at hcut
    rw [if_neg (mt hcut.1 nofun)]
    rfl
  · rw [hslice] at hcut
    obtain ⟨before, after, hwhole, hstart, hstop⟩ := (Span.slice?_eq_some_iff _ _).1 hslice
    obtain rfl : t = before ++ (inside ++ after) := hwhole
    obtain rfl : byteLength before = start := hstart
    obtain rfl : byteLength before + byteLength inside = stop := hstop
    rw [if_pos (hcut.2 rfl), List.utf8Encode_append, List.utf8Encode_append, ← size_utf8Encode,
      ← size_utf8Encode, extract_append_append]
    rfl

end ByteStream

/-! ## Streams and their bytes -/

/-- The place in the bytes of the source that has the cursor of a stream. -/
def Stream.toByteStream (s : Stream src) : ByteStream :=
  { ByteStream.ofText src.text with cursor := s.cursor }

/-- What a stream and a byte stream show at their places is the same, and reading the bytes does not
go wrong. -/
structure Stream.Agrees (s : Stream src) (b : ByteStream) : Prop where
  cursor : b.cursor = s.cursor
  atEnd : b.atEnd = s.atEnd
  rest : b.rest? = some s.rest.utf8Encode
  uncons : b.uncons? = some (s.uncons.map fun r => (r.1, r.2.toByteStream))
  get : b.get? = some s.get
  next : b.next? = some (s.next.map Stream.toByteStream)
  slice : ∀ s' : Stream src, b.sliceTo? s'.toByteStream = some (s.sliceTo s').utf8Encode

namespace Stream

theorem toByteStream_eq (s : Stream src) : s.toByteStream = ⟨src.text.utf8Encode, s.cursor⟩ :=
  congrArg (ByteStream.mk · s.cursor) String.toByteArray_ofList

/-- The cursor has reached the number of bytes just if no characters are left. -/
theorem byteLength_le_cursor_iff (s : Stream src) :
    byteLength src.text ≤ s.cursor ↔ s.rest = [] := by
  have hbytes := s.cursor_add_byteLength_rest
  rw [← byteLength_eq_zero_iff]
  omega

theorem atEnd_toByteStream (s : Stream src) : s.toByteStream.atEnd = s.atEnd := by
  rw [toByteStream_eq, ByteStream.atEnd, atEnd, ByteStream.size_utf8Encode, Bool.eq_iff_iff,
    decide_eq_true_iff, List.isEmpty_iff]
  exact s.byteLength_le_cursor_iff

theorem rest?_toByteStream (s : Stream src) : s.toByteStream.rest? = some s.rest.utf8Encode := by
  rw [toByteStream_eq, ByteStream.rest?, ByteStream.cut?_utf8Encode, ByteStream.size_utf8Encode]
  exact congrArg (Option.map _) s.restAt?_cursor

theorem sliceTo?_toByteStream (s s' : Stream src) :
    s.toByteStream.sliceTo? s'.toByteStream = some (s.sliceTo s').utf8Encode := by
  rw [toByteStream_eq, toByteStream_eq, ByteStream.sliceTo?, ByteStream.cut?_utf8Encode]
  exact congrArg (Option.map _) (s.sliceAt?_cursor s')

/-- The character decoded at the cursor is the next one of the stream, whatever its length. -/
theorem uncons?_toByteStream (s : Stream src) :
    s.toByteStream.uncons? = some (s.uncons.map fun r => (r.1, r.2.toByteStream)) := by
  rw [ByteStream.uncons?, rest?_toByteStream]
  rcases h : s.uncons with _ | ⟨c, next⟩
  · rw [(uncons_eq_none_iff s).1 h]
    rfl
  · rw [rest_of_uncons h]
    simp only [Option.bind_eq_bind, Option.bind_some, List.utf8DecodeChar?_utf8Encode_cons,
      Option.map_some, Option.pure_def, toByteStream, cursor_of_uncons h]

theorem get?_toByteStream (s : Stream src) : s.toByteStream.get? = some s.get := by
  rw [ByteStream.get?, uncons?_toByteStream, get]
  cases s.uncons <;> rfl

theorem next?_toByteStream (s : Stream src) :
    s.toByteStream.next? = some (s.next.map Stream.toByteStream) := by
  rw [ByteStream.next?, uncons?_toByteStream, next]
  cases s.uncons <;> rfl

theorem agrees_toByteStream (s : Stream src) : s.Agrees s.toByteStream :=
  ⟨rfl, s.atEnd_toByteStream, s.rest?_toByteStream, s.uncons?_toByteStream, s.get?_toByteStream,
    s.next?_toByteStream, s.sliceTo?_toByteStream⟩

end Stream

end Descent
