import Mathlib.Data.Nat.Digits.Defs
import Mathlib.Tactic.NormNum
import Mathlib.Tactic.Ring
import Descent.Proofs.Reading

/-!
# Reading integers

A numeral is a minus sign or none, and digits.  `Numeral.sign` and `Numeral.digits` are those that a
text begins with, and `Numeral.value` is the integer they stand for, by the places of the digits.
The parser passes the sign and the longest run of digits, and only then looks at the size of the
number: without digits it fails after the sign, and with a number out of range after the digits.
-/

namespace Descent

variable {src : Source} {α : Type}

/-! ## Numerals -/

namespace Numeral

/-- The minus sign that a text begins with, or nothing. -/
def sign (w : Text) : Text := if w.head? = some '-' then ['-'] else []

/-- The digits that come after the sign. -/
def digits (w : Text) : Text := (w.drop (sign w).length).takeWhile Char.isDigit

/-- The number that digits stand for, each counting ten times as much as the next. -/
def magnitude (digits : Text) : ℕ :=
  Nat.ofDigits 10 (digits.reverse.map fun c => c.toNat - '0'.toNat)

/-- The integer that a text begins with. -/
def value (w : Text) : ℤ := if sign w = [] then magnitude (digits w) else -magnitude (digits w)

theorem sign_append_drop (w : Text) : sign w ++ w.drop (sign w).length = w := by
  unfold sign
  split
  next h =>
    obtain ⟨t, rfl⟩ := List.head?_eq_some_iff.1 h
    rfl
  next => rfl

/-- Reading digits from left to right gives the number they stand for. -/
theorem digitsValue_eq_magnitude (ds : Text) : Parser.digitsValue ds = magnitude ds := by
  unfold Parser.digitsValue magnitude
  induction ds with
  | nil => rfl
  | cons c ds ih =>
    rw [Nat.ofDigitChars_cons, Nat.ofDigitChars_eq_ofDigitChars_zero, ih, List.reverse_cons,
      List.map_append, Nat.ofDigits_append, List.length_map, List.length_reverse,
      List.map_singleton, Nat.ofDigits_singleton]
    ring

theorem takeWhile_toDigits_append (n : ℕ) {suffix : Text}
    (h : ∀ c ∈ suffix.head?, c.isDigit = false) :
    (Nat.toDigits 10 n ++ suffix).takeWhile Char.isDigit = Nat.toDigits 10 n := by
  have hdigits : ∀ c ∈ Nat.toDigits 10 n, c.isDigit = true :=
    fun c hc => Nat.isDigit_of_mem_toDigits (by decide) (by decide) hc
  have hsuffix : suffix.takeWhile Char.isDigit = [] := by
    cases suffix with
    | nil => rfl
    | cons c suffix => simp [h c rfl]
  rw [List.takeWhile_append_of_pos hdigits, hsuffix, List.append_nil]

theorem magnitude_toDigits (n : ℕ) : magnitude (Nat.toDigits 10 n) = n := by
  rw [← digitsValue_eq_magnitude]
  exact Nat.ofDigitChars_ten_toDigits

/-- Digits have no sign in front. -/
theorem sign_toDigits_append (n : ℕ) (suffix : Text) : sign (Nat.toDigits 10 n ++ suffix) = [] := by
  refine if_neg fun hminus => ?_
  obtain ⟨c, ds, hds⟩ := List.exists_cons_of_ne_nil (Nat.toDigits_ne_nil (n := n) (b := 10))
  rw [hds, List.cons_append, List.head?_cons] at hminus
  have hc : c.isDigit = true :=
    Nat.isDigit_of_mem_toDigits (by decide) (by decide) (hds ▸ List.mem_cons_self)
  rw [Option.some.inj hminus] at hc
  exact absurd hc (by decide)

/-- An integer in decimal is a numeral that stands for it. -/
theorem of_decimal (n : ℤ) {suffix : Text} (h : ∀ c ∈ suffix.head?, c.isDigit = false) :
    sign (decimal n ++ suffix) ++ digits (decimal n ++ suffix) = decimal n ∧
      digits (decimal n ++ suffix) ≠ [] ∧ value (decimal n ++ suffix) = n := by
  have hparts : ∃ s, decimal n = s ++ Nat.toDigits 10 n.natAbs ∧ sign (decimal n ++ suffix) = s ∧
      n = if s = [] then (n.natAbs : ℤ) else -n.natAbs := by
    by_cases hn : n < 0
    · have hdecimal : decimal n = '-' :: Nat.toDigits 10 n.natAbs := if_pos hn
      refine ⟨['-'], hdecimal, by rw [hdecimal]; rfl, ?_⟩
      rw [if_neg (List.cons_ne_nil _ _)]
      omega
    · have hdecimal : decimal n = Nat.toDigits 10 n.natAbs := if_neg hn
      refine ⟨[], hdecimal, by rw [hdecimal]; exact sign_toDigits_append _ _, ?_⟩
      rw [if_pos rfl]
      omega
  obtain ⟨s, hdecimal, hsign, hn⟩ := hparts
  have hdigits : digits (decimal n ++ suffix) = Nat.toDigits 10 n.natAbs := by
    rw [digits, hsign, hdecimal, List.append_assoc, List.drop_left, takeWhile_toDigits_append _ h]
  refine ⟨by rw [hsign, hdigits, hdecimal], hdigits ▸ Nat.toDigits_ne_nil, ?_⟩
  rw [value, hsign, hdigits, magnitude_toDigits, ← hn]

end Numeral

/-! ## The parser -/

namespace Parser

variable {input start stop : Stream src}

theorem isInt64_iff (n : ℤ) : isInt64 n = true ↔ -2 ^ 63 ≤ n ∧ n ≤ 2 ^ 63 - 1 := by
  simp only [isInt64, Bool.and_eq_true, decide_eq_true_eq]
  omega

theorem optional_of_success {p : Parser src α} {s : Success src α} (h : p input = .success s) :
    p.optional input = .success (s.map some) :=
  orElse_of_success (map_of_success some h)

theorem optional_of_declines {p : Parser src α} (h : p.Declines input) :
    p.optional input = .success ⟨none, input, input, []⟩ := by
  obtain ⟨f, hf, hfatal⟩ := h
  exact orElse_of_declines ⟨f, map_of_failure some hf, hfatal⟩ rfl

theorem optional_minus (input : Stream src) :
    ∃ found start, input.Passes (Numeral.sign input.rest) start ∧
      start.rest = input.rest.drop (Numeral.sign input.rest).length ∧
      optional (char '-') input = .success ⟨found, input, start, Numeral.sign input.rest⟩ ∧
      (found.isSome ↔ Numeral.sign input.rest ≠ []) := by
  obtain ⟨start, hpasses, hrest⟩ :=
    Stream.exists_passes_of_rest (Numeral.sign_append_drop input.rest).symm
  by_cases hminus : input.rest.head? = some '-'
  · have hsign : Numeral.sign input.rest = ['-'] := if_pos hminus
    rw [hsign] at hpasses hrest ⊢
    exact ⟨some '-', start, hpasses, hrest, optional_of_success (reads_char '-' hpasses), by simp⟩
  · have hsign : Numeral.sign input.rest = [] := if_neg hminus
    rw [hsign]
    obtain ⟨expected, hfail⟩ := char_of_head_ne hminus
    exact ⟨none, input, .refl input, rfl, optional_of_declines ⟨_, hfail, rfl⟩, by simp⟩

section Integer

variable {found : Option Char} {sign digits : Text}
  (hsign : optional (char '-') input = .success ⟨found, input, start, sign⟩)

include hsign

theorem integer_of_no_digits {f : Failure src}
    (hdigits : many1 (ofClass .digit) start = .failure f) :
    integer input = .failure (f.relabel "an integer") := by
  refine label_of_failure _ (program_of_failure ?_)
  rw [Steps.bind_of_success (Steps.run_of_success hsign),
    Steps.bind_of_failure (Steps.run_of_failure hdigits)]

variable (hdigits : many1 (ofClass .digit) start = .success ⟨digits, start, stop, digits⟩) {n : ℤ}
  (hn : n = if found.isSome then -(digitsValue digits : ℤ) else digitsValue digits)

include hdigits hn

theorem integer_of_digits (hrange : isInt64 n = true) :
    integer input = .success ⟨n, input, stop, sign ++ digits⟩ := by
  refine label_of_success _ (program_of_success ?_)
  rw [Steps.bind_of_success (Steps.run_of_success hsign),
    Steps.bind_of_success (Steps.run_of_success hdigits), ← hn]
  simp only [hrange, if_true]
  rfl

theorem integer_of_overflow (hrange : isInt64 n = false) :
    integer input = .failure ⟨stop, ["an integer"], false⟩ := by
  refine label_of_failure (f := .unexpected stop) _ (program_of_failure ?_)
  rw [Steps.bind_of_success (Steps.run_of_success hsign),
    Steps.bind_of_success (Steps.run_of_success hdigits), ← hn]
  simp only [hrange, Bool.false_eq_true, if_false]
  rfl

end Integer

/-- What the parser does is said by the sign, the digits and their value. -/
theorem integer_of_numeral (input : Stream src) :
    (Numeral.digits input.rest = [] → ∃ place, input.Passes (Numeral.sign input.rest) place ∧
      integer input = .failure ⟨place, ["an integer"], false⟩) ∧
    (Numeral.digits input.rest ≠ [] → ∃ place,
      input.Passes (Numeral.sign input.rest ++ Numeral.digits input.rest) place ∧
      integer input = if isInt64 (Numeral.value input.rest) then
          .success ⟨Numeral.value input.rest, input, place,
            Numeral.sign input.rest ++ Numeral.digits input.rest⟩
        else .failure ⟨place, ["an integer"], false⟩) := by
  obtain ⟨found, start, hpasses, hstart, hsign, hfound⟩ := optional_minus input
  have hdigits : Numeral.digits input.rest = start.rest.takeWhile Char.isDigit := by
    rw [Numeral.digits, hstart]
  have hclass : ReadsOne Char.isDigit (ofClass .digit : Parser src Char) := readsOne_ofClass .digit
  constructor
  · intro hnone
    obtain ⟨expected, hfail⟩ := hclass.many1_of_run_eq_nil (hdigits.symm.trans hnone)
    exact ⟨start, hpasses, integer_of_no_digits hsign hfail⟩
  · intro hsome
    rw [hdigits] at hsome ⊢
    obtain ⟨stop, hstop, hrun⟩ := hclass.many1_eq hsome
    refine ⟨stop, hpasses.trans hstop, ?_⟩
    have hvalue : Numeral.value input.rest = if found.isSome
        then -(digitsValue (start.rest.takeWhile Char.isDigit) : ℤ)
        else digitsValue (start.rest.takeWhile Char.isDigit) := by
      rw [Numeral.value, hdigits, Numeral.digitsValue_eq_magnitude]
      simp only [hfound, ne_eq, ite_not]
    split
    next hrange => exact integer_of_digits hsign hrun hvalue hrange
    next hrange => exact integer_of_overflow hsign hrun hvalue (Bool.eq_false_iff.2 hrange)

/-- **Integers.** Without digits after the sign the parser fails after the sign.  With digits it
succeeds after them if their value, with the sign, is an integer of 64 bits, and matched the sign
and the digits; if not it fails after the digits.  No failure is fatal.  So every integer of 64 bits
is read from its decimal form, whatever follows that is not a digit. -/
theorem integer_reads_numeral (input : Stream src) :
    let sign := Numeral.sign input.rest
    let digits := Numeral.digits input.rest
    let value := Numeral.value input.rest
    (digits = [] → ∃ place, input.Passes sign place ∧
      integer input = .failure ⟨place, ["an integer"], false⟩) ∧
    (digits ≠ [] → ∃ place, input.Passes (sign ++ digits) place ∧
      (-2 ^ 63 ≤ value ∧ value ≤ 2 ^ 63 - 1 →
        integer input = .success ⟨value, input, place, sign ++ digits⟩) ∧
      (¬ (-2 ^ 63 ≤ value ∧ value ≤ 2 ^ 63 - 1) →
        integer input = .failure ⟨place, ["an integer"], false⟩)) ∧
    ∀ (n : ℤ) (suffix : Text), -2 ^ 63 ≤ n ∧ n ≤ 2 ^ 63 - 1 →
      (∀ c ∈ suffix.head?, c.isDigit = false) → input.rest = decimal n ++ suffix →
      ∃ next, input.Passes (decimal n) next ∧
        integer input = .success ⟨n, input, next, decimal n⟩ := by
  intro sign digits value
  obtain ⟨hnone, hsome⟩ := integer_of_numeral input
  refine ⟨hnone, fun hdigits => ?_, fun n suffix hrange hsuffix hrest => ?_⟩
  · obtain ⟨place, hpasses, houtcome⟩ := hsome hdigits
    refine ⟨place, hpasses, fun hrange => ?_, fun hrange => ?_⟩
    · rw [houtcome, if_pos ((isInt64_iff value).2 hrange)]
    · rw [houtcome, if_neg (mt (isInt64_iff value).1 hrange)]
  · obtain ⟨hall, hdigits, hvalue⟩ := Numeral.of_decimal n hsuffix
    rw [hrest, hall, hvalue] at hsome
    obtain ⟨next, hpasses, houtcome⟩ := hsome hdigits
    exact ⟨next, hpasses, houtcome.trans (if_pos ((isInt64_iff n).2 hrange))⟩

/-- The least integer of 64 bits before a letter, and the first one that is too great. -/
theorem integer_reads_numeral_at_bounds :
    let least : Source := ⟨0, decimal (-2 ^ 63) ++ ['x']⟩
    let beyond : Source := ⟨1, decimal (2 ^ 63)⟩
    (∃ next, integer (.first least) = .success ⟨-2 ^ 63, .first least, next, decimal (-2 ^ 63)⟩) ∧
    ∃ place, place.rest = [] ∧
      integer (.first beyond) = .failure ⟨place, ["an integer"], false⟩ := by
  intro least beyond
  obtain ⟨-, -, hdecimal⟩ := integer_reads_numeral (.first least)
  obtain ⟨next, -, hleast⟩ := hdecimal (-2 ^ 63) ['x'] (by norm_num) (by simp) Stream.rest_first
  have hnothing : ∀ c ∈ ([] : Text).head?, c.isDigit = false := by simp
  obtain ⟨hall, hdigits, hvalue⟩ := Numeral.of_decimal (2 ^ 63) hnothing
  have hrest : (Stream.first beyond).rest = decimal (2 ^ 63) ++ [] := (List.append_nil _).symm
  obtain ⟨-, hbeyond, -⟩ := integer_reads_numeral (.first beyond)
  rw [hrest, hall, hvalue] at hbeyond
  obtain ⟨place, hpasses, -, hoverflow⟩ := hbeyond hdigits
  refine ⟨⟨next, hleast⟩, place, ?_, hoverflow (by norm_num)⟩
  exact (List.append_cancel_left (hrest.symm.trans hpasses)).symm

end Parser

end Descent
