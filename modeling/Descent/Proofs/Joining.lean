import Descent.Proofs.Lines
import Descent.Proofs.Sequencing

/-!
# Joining matched texts without copying

Every sequence puts matched texts together.  That need not copy anything: a text that is borrowed
from the source can be joined with the one next to it by borrowing the part of the source in which
both stand.  `MatchedText.join` does so after it has compared addresses and lengths, and copies
otherwise.

`MatchedText.text_join` says that this is never seen: the joined text is the one text followed by
the other, for places in any order and for texts borrowed from anywhere.  The guard matters because
the part from one place to an earlier one is empty; two parts that are not empty run forward, and
then they are adjacent (`Stream.sliceTo_eq_append`).  So sequences that join by borrowing are those
of `Parser.bind` (`BorrowingParser.plain_bind`), and obey the same laws.
-/

namespace Descent

variable {src : Source} {α β γ : Type}

/-! ## Slices of a source -/

namespace Stream

variable {start middle stop : Stream src}

theorem cursor_lt_of_sliceTo_ne_nil (h : start.sliceTo stop ≠ []) : start.cursor < stop.cursor :=
  Nat.lt_of_not_le fun hle => h (sliceTo_of_cursor_le hle)

theorem passes_sliceTo (h : start.cursor ≤ stop.cursor) :
    start.Passes (start.sliceTo stop) stop := by
  obtain ⟨t, ht⟩ := exists_passes_of_cursor_le h
  rwa [← ht.eq_sliceTo]

/-- For places in order, the slice from the first to the last is made up of the two in between. -/
theorem sliceTo_append_sliceTo (h : start.cursor ≤ middle.cursor)
    (h' : middle.cursor ≤ stop.cursor) :
    start.sliceTo middle ++ middle.sliceTo stop = start.sliceTo stop :=
  ((passes_sliceTo h).trans (passes_sliceTo h')).eq_sliceTo

/-- Two slices that are not empty run forward, and are then next to each other. -/
theorem sliceTo_eq_append (h : start.sliceTo middle ≠ []) (h' : middle.sliceTo stop ≠ []) :
    start.sliceTo stop = start.sliceTo middle ++ middle.sliceTo stop :=
  (sliceTo_append_sliceTo (Nat.le_of_lt (cursor_lt_of_sliceTo_ne_nil h))
    (Nat.le_of_lt (cursor_lt_of_sliceTo_ne_nil h'))).symm

end Stream

/-! ## Texts in memory -/

/-- The byte that stands at each address. -/
abbrev Memory := Nat → UInt8

variable {memory : Memory}

/-- The bytes of a text stand in memory from an address on. -/
def Memory.Stores (memory : Memory) (address : Nat) (t : Text) : Prop :=
  (List.range' address (byteLength t)).map memory = utf8 t

instance (address : Nat) (t : Text) : Decidable (memory.Stores address t) :=
  inferInstanceAs (Decidable (_ = _))

theorem utf8_inj {t u : Text} : utf8 t = utf8 u ↔ t = u := by
  refine ⟨fun h => String.ofList_inj.1 (String.toByteArray_inj.1 ?_), congrArg utf8⟩
  rw [String.toByteArray_ofList, String.toByteArray_ofList]
  exact congrArg List.toByteArray h

theorem Memory.stores_append_iff (address : Nat) (t u : Text) :
    memory.Stores address (t ++ u) ↔
      memory.Stores address t ∧ memory.Stores (address + byteLength t) u := by
  unfold Stores
  rw [byteLength_append, ← List.range'_append_1, List.map_append, utf8_append]
  constructor
  · intro h
    exact List.append_inj h (by rw [List.length_map, List.length_range', length_utf8])
  · rintro ⟨ht, hu⟩
    rw [ht, hu]

/-- What is stored at an address over a number of bytes is one text. -/
theorem Memory.Stores.unique {address : Nat} {t u : Text} (ht : memory.Stores address t)
    (hu : memory.Stores address u) (hlength : byteLength t = byteLength u) : t = u := by
  unfold Stores at ht hu
  rw [← utf8_inj, ← ht, ← hu, hlength]

/-- A text that stands in memory. -/
structure Slice (memory : Memory) where
  address : Nat
  text : Text
  stored : memory.Stores address text

/-- Where the text of a source stands in memory. -/
structure Buffer (memory : Memory) (src : Source) where
  address : Nat
  stored : memory.Stores address src.text

/-- The part of a buffer from one place to another. -/
def Buffer.slice (buffer : Buffer memory src) (start stop : Stream src) : Slice memory where
  address := buffer.address + start.cursor
  text := start.sliceTo stop
  stored := by
    have hwhole := buffer.stored
    rw [← start.whole, Memory.stores_append_iff, byteLength_reverse, ← start.cursor_eq,
      ← splitAtByte_fst_append_snd (stop.cursor - start.cursor) start.rest,
      Memory.stores_append_iff] at hwhole
    exact hwhole.2.1

/-! ## Joining -/

/-- A matched text: borrowed from memory, or a copy. -/
inductive MatchedText (memory : Memory) where
  | borrowed (slice : Slice memory)
  | owned (text : Text)

namespace MatchedText

/-- The text, wherever it stands. -/
def text : MatchedText memory → Text
  | borrowed slice => slice.text
  | owned text => text

/-- The empty text. -/
def empty : MatchedText memory := borrowed ⟨0, [], rfl⟩

@[simp]
theorem text_empty : (empty : MatchedText memory).text = [] := rfl

/-- Whether a text is borrowed from just the part of the buffer between two places: the address and
the length are compared, not the characters. -/
def isSliceOf (buffer : Buffer memory src) (start stop : Stream src) : MatchedText memory → Bool
  | borrowed slice =>
    slice.address == (buffer.slice start stop).address &&
      byteLength slice.text == byteLength (buffer.slice start stop).text
  | owned _ => false

/-- Joins the text matched from `start` to `middle` with the one matched from there to `stop`. -/
def join (buffer : Buffer memory src) (start middle stop : Stream src)
    (first second : MatchedText memory) : MatchedText memory :=
  if first.text.isEmpty then second
  else if second.text.isEmpty then first
  else if first.isSliceOf buffer start middle && second.isSliceOf buffer middle stop then
    borrowed (buffer.slice start stop)
  else owned (first.text ++ second.text)

variable {buffer : Buffer memory src} {start middle stop : Stream src}

/-- What stands at the address of a part of the buffer, and is as long, is that part. -/
theorem text_of_isSliceOf {m : MatchedText memory} (h : m.isSliceOf buffer start stop = true) :
    m.text = start.sliceTo stop := by
  cases m with
  | borrowed slice =>
    simp only [isSliceOf, Bool.and_eq_true, beq_iff_eq] at h
    have hstored := slice.stored
    rw [h.1] at hstored
    exact hstored.unique (buffer.slice start stop).stored h.2
  | owned text => contradiction

/-- Joined texts are concatenated, whether they are copied or not. -/
theorem text_join (buffer : Buffer memory src) (start middle stop : Stream src)
    (first second : MatchedText memory) :
    (join buffer start middle stop first second).text = first.text ++ second.text := by
  unfold join
  split_ifs with hfirst hsecond hslices
  · rw [List.isEmpty_iff.1 hfirst, List.nil_append]
  · rw [List.isEmpty_iff.1 hsecond, List.append_nil]
  · obtain ⟨hleft, hright⟩ := (Bool.and_eq_true _ _).mp hslices
    rw [List.isEmpty_iff, text_of_isSliceOf hleft] at hfirst
    rw [List.isEmpty_iff, text_of_isSliceOf hright] at hsecond
    rw [text_of_isSliceOf hleft, text_of_isSliceOf hright]
    exact Stream.sliceTo_eq_append hfirst hsecond
  · rfl

end MatchedText

/-- Matched texts put together by joins, grouped in any way and with any places.  What a loop
accumulates is grouped from the left. -/
inductive Joins (memory : Memory) (src : Source) where
  | part (m : MatchedText memory)
  | join (start middle stop : Stream src) (first second : Joins memory src)

namespace Joins

/-- The matched text in the end. -/
def result (buffer : Buffer memory src) : Joins memory src → MatchedText memory
  | part m => m
  | join start middle stop first second =>
    .join buffer start middle stop (first.result buffer) (second.result buffer)

/-- The texts that were put together, in order. -/
def parts : Joins memory src → List Text
  | part m => [m.text]
  | join _ _ _ first second => first.parts ++ second.parts

theorem text_result (buffer : Buffer memory src) (joins : Joins memory src) :
    (joins.result buffer).text = joins.parts.flatten := by
  induction joins with
  | part m => simp [result, parts]
  | join start middle stop first second ihfirst ihsecond =>
    rw [result, MatchedText.text_join, ihfirst, ihsecond, parts, List.flatten_append]

end Joins

/-- **Joining is concatenation.** Whatever the order of three places, an empty text changes nothing,
and two texts that are not empty and are the parts of the source between the places make up the part
from the first place to the last.  So joined texts are concatenated, also where a parser went back
or made a text up, and any number of joins puts all parts together in order. -/
theorem MatchedText.joining_concatenates (buffer : Buffer memory src)
    (start middle stop : Stream src) :
    (stop.cursor ≤ start.cursor → start.sliceTo stop = []) ∧
    (∀ first second : Text, first ≠ [] → second ≠ [] → first = start.sliceTo middle →
      second = middle.sliceTo stop → start.sliceTo stop = first ++ second) ∧
    (∀ first second : MatchedText memory,
      (first.text = [] → join buffer start middle stop first second = second) ∧
      (second.text = [] → (join buffer start middle stop first second).text = first.text) ∧
      (join buffer start middle stop first second).text = first.text ++ second.text) ∧
    ∀ joins : Joins memory src, (joins.result buffer).text = joins.parts.flatten := by
  refine ⟨Stream.sliceTo_of_cursor_le, ?_, fun first second => ⟨?_, ?_, ?_⟩,
    Joins.text_result buffer⟩
  · rintro first second hfirst hsecond rfl rfl
    exact Stream.sliceTo_eq_append hfirst hsecond
  · intro hfirst
    rw [join, if_pos (List.isEmpty_iff.2 hfirst)]
  · intro hsecond
    rw [text_join, hsecond, List.append_nil]
  · exact text_join buffer start middle stop first second

/-- Joined forward, `é` and `b` are borrowed again in one piece; joined backwards they are
copied. -/
theorem MatchedText.joining_concatenates_back_and_forth :
    let src : Source := ⟨0, ['é', 'b']⟩
    let memory : Memory := fun address => (utf8 src.text).getD (address - 7) 0
    let buffer : Buffer memory src := ⟨7, by decide⟩
    let start : Stream src := .first src
    let middle : Stream src := ⟨['é'], ['b'], 2, rfl, rfl⟩
    let stop : Stream src := ⟨['b', 'é'], [], 3, rfl, rfl⟩
    let first : MatchedText memory := .borrowed (buffer.slice start middle)
    let second : MatchedText memory := .borrowed (buffer.slice middle stop)
    join buffer start middle stop first second = .borrowed (buffer.slice start stop) ∧
      start.sliceTo stop = first.text ++ second.text ∧
      middle.sliceTo start = [] ∧
      join buffer middle start middle second first = .owned ['b', 'é'] ∧
      (Joins.result buffer (.join start middle stop
        (.join middle start middle (.part second) (.part first))
        (.part second))).text = ['b', 'é', 'b'] := by
  intro src memory buffer start middle stop first second
  obtain ⟨-, hadjacent, -, hjoins⟩ := joining_concatenates buffer start middle stop
  obtain ⟨hempty, -⟩ := joining_concatenates buffer middle start start
  refine ⟨rfl, ?_, hempty (by decide), rfl, ?_⟩
  · exact hadjacent first.text second.text (by decide) (by decide) rfl rfl
  · rw [hjoins]
    rfl

/-! ## Sequences that borrow -/

/-- A success that may have borrowed the text it matched. -/
structure BorrowingSuccess (memory : Memory) (src : Source) (α : Type) where
  value : α
  start : Stream src
  next : Stream src
  matched : MatchedText memory

/-- Forgets where the matched text stands. -/
def BorrowingSuccess.plain (s : BorrowingSuccess memory src α) : Success src α :=
  ⟨s.value, s.start, s.next, s.matched.text⟩

/-- Forgets where the matched text stands. -/
def Outcome.plain (o : Outcome src (BorrowingSuccess memory src α)) :
    Outcome src (Success src α) := do
  return (← o).plain

/-- A parser whose successes may borrow the text they matched. -/
abbrev BorrowingParser (memory : Memory) (src : Source) (α : Type) :=
  Stream src → Outcome src (BorrowingSuccess memory src α)

namespace BorrowingParser

/-- Forgets where matched texts stand. -/
def plain (p : BorrowingParser memory src α) : Parser src α := fun input => (p input).plain

section Plain

variable {p : BorrowingParser memory src α} {input : Stream src}

theorem plain_of_success {s : BorrowingSuccess memory src α} (h : p input = .success s) :
    p.plain input = .success s.plain := by
  rw [plain, h]
  rfl

theorem plain_of_failure {f : Failure src} (h : p input = .failure f) :
    p.plain input = .failure f := by
  rw [plain, h]
  rfl

theorem plain_of_undecided (h : p input = .undecided) : p.plain input = .undecided := by
  rw [plain, h]
  rfl

theorem plain_ne_undecided (h : p input ≠ .undecided) : p.plain input ≠ .undecided :=
  Outcome.bind_ne_undecided h fun _ => nofun

end Plain

/-- Succeeds where it stands. -/
def succeed (value : α) : BorrowingParser memory src α := fun input =>
  .success ⟨value, input, input, .empty⟩

/-- Runs a parser, and then the parser that the continuation gives for its value and for the place
where the whole sequence started.  Their matched texts are joined by borrowing. -/
protected def bind (buffer : Buffer memory src) (p : BorrowingParser memory src α)
    (next : α → Stream src → BorrowingParser memory src β) : BorrowingParser memory src β :=
  fun input => do
    let first ← p input
    let second ← next first.value input first.next
    return { second with
      start := input
      matched := .join buffer input first.next second.next first.matched second.matched }

theorem plain_succeed (value : α) :
    (succeed value : BorrowingParser memory src α).plain = Parser.succeed value := rfl

/-- A sequence that borrows is a sequence. -/
theorem plain_bind (buffer : Buffer memory src) (p : BorrowingParser memory src α)
    (next : α → Stream src → BorrowingParser memory src β) :
    (p.bind buffer next).plain = p.plain.bind fun v start => (next v start).plain := by
  funext input
  unfold plain Outcome.plain BorrowingParser.bind Parser.bind
  simp only [bind_assoc]
  refine bind_congr fun first => ?_
  simp only [Outcome.pure_eq_success, Outcome.success_bind]
  refine bind_congr fun second => ?_
  simp only [BorrowingSuccess.plain, MatchedText.text_join]

/-- **The laws of sequencing.** Parsers that say where they started can be sequenced in any
grouping, a value that was not read in front changes nothing, and neither does giving back the value
at the end.  The outcomes are the same as a whole, and so they are where matched texts are joined by
borrowing. -/
theorem sequencing_is_monadic (buffer : Buffer memory src) :
    (∀ (α β γ : Type) (p : Parser src α) (f : α → Stream src → Parser src β) (g : β → Parser src γ),
      p.StartsAtInput → (∀ v start, (f v start).StartsAtInput) →
        (p.bind f).bind (fun w _ => g w) = p.bind (fun v start => (f v start).bind fun w _ => g w) ∧
        (∀ v input, (Parser.succeed v).bind f input = f v input input) ∧
        p.bind (fun v _ => .succeed v) = p) ∧
    ∀ (α β γ : Type) (p : BorrowingParser memory src α)
      (f : α → Stream src → BorrowingParser memory src β) (g : β → BorrowingParser memory src γ),
      p.plain.StartsAtInput → (∀ v start, (f v start).plain.StartsAtInput) →
        ((p.bind buffer f).bind buffer fun w _ => g w).plain =
          (p.bind buffer fun v start => (f v start).bind buffer fun w _ => g w).plain ∧
        (∀ v input, ((succeed v).bind buffer f input).plain = (f v input input).plain) ∧
        (p.bind buffer fun v _ => succeed v).plain = p.plain := by
  refine ⟨fun α β γ p f g hp hf => ⟨?_, ?_, ?_⟩, fun α β γ p f g hp hf => ⟨?_, ?_, ?_⟩⟩
  · exact Parser.bind_bind p f fun w _ => g w
  · exact fun v input => Parser.succeed_bind v (hf v input)
  · exact Parser.bind_succeed hp
  · simp only [plain_bind]
    exact Parser.bind_bind p.plain (fun v start => (f v start).plain) fun w _ => (g w).plain
  · intro v input
    have hsequence := congrFun (plain_bind buffer (succeed v) f) input
    rw [plain_succeed, Parser.succeed_bind v (hf v input)] at hsequence
    exact hsequence
  · simp only [plain_bind, plain_succeed]
    exact Parser.bind_succeed hp

/-- On `éb`: one step borrows `é`, the next makes `é` up again and goes back, and the last borrows
it once more. -/
theorem sequencing_is_monadic_going_back :
    let src : Source := ⟨0, ['é', 'b']⟩
    let memory : Memory := fun address => (utf8 src.text).getD (address - 7) 0
    let buffer : Buffer memory src := ⟨7, rfl⟩
    let start : Stream src := .first src
    let middle : Stream src := ⟨['é'], ['b'], 2, rfl, rfl⟩
    let p : BorrowingParser memory src Char := fun input =>
      .success ⟨'é', input, middle, .borrowed (buffer.slice input middle)⟩
    let f : Char → Stream src → BorrowingParser memory src Nat := fun v start input =>
      .success ⟨start.cursor, input, .first src, .owned [v]⟩
    let g : Nat → BorrowingParser memory src Nat := fun w input =>
      .success ⟨w + 1, input, middle, .borrowed (buffer.slice input middle)⟩
    let done : Outcome src (Success src Nat) := .success ⟨1, start, middle, ['é', 'é', 'é']⟩
    ((p.bind buffer f).bind buffer fun w _ => g w).plain start = done ∧
      (p.bind buffer fun v start => (f v start).bind buffer fun w _ => g w).plain start = done ∧
      ((succeed 'é').bind buffer f start).plain = .success ⟨0, start, start, ['é']⟩ ∧
      (p.bind buffer fun v _ => succeed v).plain start = .success ⟨'é', start, middle, ['é']⟩ ∧
      (p.plain.bind fun v _ => .succeed v) = p.plain := by
  intro src memory buffer start middle p f g done
  have hp : p.plain.StartsAtInput := fun _ => rfl
  have hf : ∀ v start, (f v start).plain.StartsAtInput := fun _ _ _ => rfl
  obtain ⟨hplain, hborrowing⟩ := sequencing_is_monadic buffer
  obtain ⟨hassoc, hleft, hright⟩ := hborrowing Char Nat Nat p f g hp hf
  obtain ⟨-, -, hright'⟩ := hplain Char Nat Nat p.plain (fun v start => (f v start).plain)
    (fun w => (g w).plain) hp hf
  have hdone : ((p.bind buffer f).bind buffer fun w _ => g w).plain start = done := rfl
  refine ⟨hdone, ?_, hleft 'é' start, ?_, hright'⟩
  · rw [← hassoc]
    exact hdone
  · rw [hright]
    rfl

end BorrowingParser

end Descent
