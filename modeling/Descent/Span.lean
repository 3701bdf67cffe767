import Descent.Text.Bytes

/-!
# Spans

A span is a pair of byte offsets into a text.  Nothing forces the offsets to be in order, in range
or on character boundaries, so a span may fail to have a length or to select a part of the text.
-/

namespace Descent

/-- Two byte offsets into a text. -/
structure Span where
  source : Text
  start : Nat
  stop : Nat
deriving DecidableEq, Repr

namespace Span

/-- The number of bytes of a span whose offsets are in order. -/
def length? (s : Span) : Option Nat := if s.start ≤ s.stop then some (s.stop - s.start) else none

/-- Whether the two offsets are equal. -/
def isEmpty (s : Span) : Bool := s.start == s.stop

/-- The part of the text between the offsets, if they are in order and on character boundaries. -/
def slice? (s : Span) : Option Text :=
  let (before, after) := splitAtByte s.start s.source
  let (inside, _) := splitAtByte (s.stop - s.start) after
  if byteLength before = s.start ∧ byteLength before + byteLength inside = s.stop then some inside
  else none

/-- A span selects a text just if that text stands between its offsets. -/
theorem slice?_eq_some_iff (s : Span) (t : Text) :
    s.slice? = some t ↔ ∃ before after, s.source = before ++ (t ++ after) ∧
      byteLength before = s.start ∧ byteLength before + byteLength t = s.stop := by
  constructor
  · intro h
    have hsource := splitAtByte_fst_append_snd s.start s.source
    have hrest := splitAtByte_fst_append_snd (s.stop - s.start) (splitAtByte s.start s.source).2
    simp only [slice?] at h
    split at h
    · rename_i hb
      obtain rfl := Option.some.inj h
      refine ⟨(splitAtByte s.start s.source).1,
        (splitAtByte (s.stop - s.start) (splitAtByte s.start s.source).2).2, ?_, hb.1, hb.2⟩
      rw [hrest, hsource]
    · contradiction
  · rintro ⟨before, after, hsource, hstart, hstop⟩
    have hlen : s.stop - s.start = byteLength t := by omega
    simp only [slice?, hlen]
    rw [hsource, ← hstart, splitAtByte_byteLength]
    simp only [splitAtByte_byteLength, true_and]
    rw [if_pos hstop]

/-- A span that starts after some text and stops after some more selects just that. -/
theorem slice?_of_append (before inside after : Text) :
    slice? ⟨before ++ (inside ++ after), byteLength before, byteLength (before ++ inside)⟩ =
      some inside :=
  (slice?_eq_some_iff _ _).2 ⟨before, after, rfl, rfl, (byteLength_append ..).symm⟩

end Span

end Descent
