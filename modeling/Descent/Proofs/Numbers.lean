import Descent.Proofs.Integers
import Descent.Proofs.Rounding

/-!
# Reading numbers

After the sign and the digits of a numeral a number may have a fraction: a point and the digits
after it (`Numeral.fraction`).  A point without a digit after it is not part of the number.  The
parser passes the sign, the digits and the fraction, and fails after the sign if there is neither
digit nor fraction.

`Numeral.ratio` is the number that the digits stand for, as an exact quotient.  The value that is
read is this quotient rounded to binary64; the sign sets the sign bit and has no part in the
rounding.
-/

namespace Descent

variable {src : Source}

/-! ## Decimal fractions -/

namespace Numeral

/-- What comes after the sign and the digits. -/
def afterDigits (w : Text) : Text := (w.drop (sign w).length).dropWhile Char.isDigit

/-- The digits after the point that a text begins with. -/
def decimals : Text → Text
  | '.' :: t => t.takeWhile Char.isDigit
  | _ => []

/-- The point that a text begins with and the digits after it, or nothing without such digits. -/
def fraction (r : Text) : Text := if decimals r = [] then [] else '.' :: decimals r

/-- The number that a text begins with, without its sign: each digit after the point counts a tenth
of the one before. -/
def ratio (w : Text) : ℚ :=
  magnitude (digits w) + magnitude (decimals (afterDigits w)) / 10 ^
    (decimals (afterDigits w)).length

theorem byteLength_sign (w : Text) : byteLength (sign w) = (sign w).length := by
  unfold sign
  split <;> rfl

theorem sign_ne_nil_iff {w : Text} : sign w ≠ [] ↔ w.head? = some '-' := by
  unfold sign
  split <;> simp_all

theorem decimals_point (t : Text) : decimals ('.' :: t) = t.takeWhile Char.isDigit := rfl

theorem exists_of_decimals_ne_nil {r : Text} (h : decimals r ≠ []) : ∃ t, r = '.' :: t := by
  unfold decimals at h
  split at h
  next t => exact ⟨t, rfl⟩
  next => exact absurd rfl h

theorem magnitude_append (ds es : Text) :
    magnitude (ds ++ es) = magnitude ds * 10 ^ es.length + magnitude es := by
  unfold magnitude
  rw [List.reverse_append, List.map_append, Nat.ofDigits_append, List.length_map,
    List.length_reverse]
  ring

/-- The point can be left out if the digits are counted in the places of the last one. -/
theorem ratio_eq (w : Text) : ratio w =
    (magnitude (digits w ++ decimals (afterDigits w)) : ℚ) /
      (10 ^ (decimals (afterDigits w)).length : ℕ) := by
  rw [ratio, magnitude_append]
  push_cast
  field_simp

end Numeral

/-! ## The parser -/

namespace Parser

variable {input start : Stream src}

theorem point_digits_of_decimals (h : Numeral.decimals start.rest ≠ []) :
    ∃ stop, start.Passes ('.' :: Numeral.decimals start.rest) stop ∧
      (char '.').andThen (many1 (ofClass .digit)) start =
        .success ⟨Numeral.decimals start.rest, start, stop,
          '.' :: Numeral.decimals start.rest⟩ := by
  have hclass : ReadsOne Char.isDigit (ofClass .digit : Parser src Char) := readsOne_ofClass .digit
  obtain ⟨t, ht⟩ := Numeral.exists_of_decimals_ne_nil h
  obtain ⟨middle, hpoint, rfl⟩ := Stream.exists_passes_of_rest (t := ['.']) ht
  rw [ht, Numeral.decimals_point] at h ⊢
  obtain ⟨stop, hstop, hdigits⟩ := hclass.many1_eq h
  exact ⟨stop, hpoint.trans hstop, andThen_of_success (reads_char '.' hpoint) hdigits⟩

theorem point_digits_declines (h : Numeral.decimals start.rest = []) :
    ((char '.').andThen (many1 (ofClass .digit))).Declines start := by
  have hclass : ReadsOne Char.isDigit (ofClass .digit : Parser src Char) := readsOne_ofClass .digit
  by_cases hpoint : start.rest.head? = some '.'
  · obtain ⟨t, ht⟩ := List.head?_eq_some_iff.1 hpoint
    obtain ⟨middle, hmiddle, rfl⟩ := Stream.exists_passes_of_rest (t := ['.']) ht
    rw [ht, Numeral.decimals_point] at h
    obtain ⟨expected, hfail⟩ := hclass.many1_of_run_eq_nil h
    exact ⟨_, bind_of_success_of_failure (reads_char '.' hmiddle) hfail, rfl⟩
  · obtain ⟨expected, hfail⟩ := char_of_head_ne hpoint
    exact Declines.bind ⟨_, hfail, rfl⟩

/-- The point is passed only together with digits. -/
theorem optional_fraction (start : Stream src) :
    ∃ found stop, start.Passes (Numeral.fraction start.rest) stop ∧
      optional ((char '.').andThen (many1 (ofClass .digit))) start =
        .success ⟨found, start, stop, Numeral.fraction start.rest⟩ ∧
      found.getD [] = Numeral.decimals start.rest ∧
      (found.isNone ↔ Numeral.fraction start.rest = []) := by
  by_cases hdecimals : Numeral.decimals start.rest = []
  · rw [Numeral.fraction, if_pos hdecimals]
    exact ⟨none, start, .refl start, optional_of_declines (point_digits_declines hdecimals),
      hdecimals.symm,
      by simp⟩
  · rw [Numeral.fraction, if_neg hdecimals]
    obtain ⟨stop, hpasses, hread⟩ := point_digits_of_decimals hdecimals
    exact ⟨some _, stop, hpasses, optional_of_success hread, rfl, by simp⟩

theorem number_of_parts {middle stop : Stream src} {minus : Option Char} {found : Option Text}
    {sign whole fraction : Text}
    (hsign : optional (char '-') input = .success ⟨minus, input, start, sign⟩)
    (hwhole : many (ofClass .digit) start = .success ⟨whole, start, middle, whole⟩)
    (hfraction : optional ((char '.').andThen (many1 (ofClass .digit))) middle =
      .success ⟨found, middle, stop, fraction⟩) :
    number input = if whole.isEmpty && found.isNone then .failure ⟨stop, ["a number"], false⟩
      else .success ⟨.ofRatio minus.isSome (digitsValue (whole ++ found.getD []))
        (10 ^ (found.getD []).length),
        input, stop, sign ++ whole ++ fraction⟩ := by
  unfold number label program
  rw [Steps.bind_of_success (Steps.run_of_success hsign),
    Steps.bind_of_success (Steps.run_of_success hwhole),
    Steps.bind_of_success (Steps.run_of_success hfraction)]
  split <;> rfl

/-- What the parser does is said by the sign, the digits and the fraction. -/
theorem number_of_numeral (input : Stream src) :
    let sign := Numeral.sign input.rest
    let whole := Numeral.digits input.rest
    let decimals := Numeral.decimals (Numeral.afterDigits input.rest)
    let fraction := Numeral.fraction (Numeral.afterDigits input.rest)
    (whole = [] ∧ fraction = [] → ∃ place, input.Passes sign place ∧
      number input = .failure ⟨place, ["a number"], false⟩) ∧
    (whole ≠ [] ∨ fraction ≠ [] → ∃ next, input.Passes (sign ++ whole ++ fraction) next ∧
      number input = .success ⟨.ofRatio (sign ≠ []) (Numeral.magnitude (whole ++ decimals))
        (10 ^ decimals.length), input, next, sign ++ whole ++ fraction⟩) := by
  intro sign whole decimals fraction
  -- The three parts are read one after another, from `input` to `start`, `middle` and `stop`.
  obtain ⟨minus, start, hpasses, hstart, hsign, hminus⟩ := optional_minus input
  have hclass : ReadsOne Char.isDigit (ofClass .digit : Parser src Char) := readsOne_ofClass .digit
  obtain ⟨middle, hmiddle, hwhole⟩ := hclass.many_eq start
  obtain ⟨found, stop, hstop, hfraction, hdecimals, hfound⟩ := optional_fraction middle
  have hdigits : start.rest.takeWhile Char.isDigit = whole := by
    rw [hstart]
    rfl
  have hafter : middle.rest = Numeral.afterDigits input.rest := by
    rw [Numeral.afterDigits, ← hstart]
    exact List.append_cancel_left (hmiddle.symm.trans List.takeWhile_append_dropWhile.symm)
  rw [hdigits] at hmiddle hwhole
  rw [hafter] at hstop hfraction hdecimals hfound
  have hall : input.Passes (sign ++ whole ++ fraction) stop := (hpasses.trans hmiddle).trans hstop
  have hread := number_of_parts hsign hwhole hfraction
  have hnothing : (whole.isEmpty && found.isNone) = true ↔ whole = [] ∧ fraction = [] := by
    rw [Bool.and_eq_true, List.isEmpty_iff, hfound]
  constructor
  · intro hnone
    rw [hnone.1, hnone.2, List.append_nil, List.append_nil] at hall
    rw [if_pos (hnothing.2 hnone)] at hread
    exact ⟨stop, hall, hread⟩
  · intro hsome
    have hnegative : minus.isSome = decide (sign ≠ []) :=
      Bool.eq_iff_iff.2 (hminus.trans decide_eq_true_iff.symm)
    rw [if_neg (mt hnothing.1 (not_and_or.2 hsome)), hdecimals, Numeral.digitsValue_eq_magnitude,
      hnegative] at hread
    exact ⟨stop, hall, hread⟩

/-- What is read where the parser succeeds. -/
theorem number_eq_success {done : Success src Binary64} (h : number input = .success done) :
    let sign := Numeral.sign input.rest
    let whole := Numeral.digits input.rest
    let decimals := Numeral.decimals (Numeral.afterDigits input.rest)
    let fraction := Numeral.fraction (Numeral.afterDigits input.rest)
    (whole ≠ [] ∨ fraction ≠ []) ∧ ∃ next, input.Passes (sign ++ whole ++ fraction) next ∧
      done = ⟨.ofRatio (sign ≠ []) (Numeral.magnitude (whole ++ decimals)) (10 ^ decimals.length),
        input, next,
        sign ++ whole ++ fraction⟩ := by
  intro sign whole decimals fraction
  obtain ⟨hfailure, hsuccess⟩ := number_of_numeral input
  by_cases hparts : whole ≠ [] ∨ fraction ≠ []
  · obtain ⟨next, hpasses, hread⟩ := hsuccess hparts
    exact ⟨hparts, next, hpasses, Outcome.success.inj (h.symm.trans hread)⟩
  · rw [not_or, not_not, not_not] at hparts
    obtain ⟨place, -, hfail⟩ := hfailure hparts
    rw [h] at hfail
    cases hfail

theorem passes_of_integer {done : Success src ℤ} (h : integer input = .success done) :
    Numeral.digits input.rest ≠ [] ∧
      input.Passes (Numeral.sign input.rest ++ Numeral.digits input.rest) done.next := by
  obtain ⟨hnone, hsome⟩ := integer_of_numeral input
  have hdigits : Numeral.digits input.rest ≠ [] := by
    intro hempty
    obtain ⟨place, -, hfail⟩ := hnone hempty
    rw [h] at hfail
    cases hfail
  obtain ⟨place, hpasses, houtcome⟩ := hsome hdigits
  rw [h] at houtcome
  split at houtcome
  · obtain rfl := Outcome.success.inj houtcome
    exact ⟨hdigits, hpasses⟩
  · cases houtcome

/-- **Numbers.** The parser succeeds just if there are digits or a fraction, and then passes the
sign, the digits and the fraction; a point without a digit after it is left.  Otherwise it fails
after the sign, and not fatally.  Where an integer is read a number is read too, and does not end
before it. -/
theorem number_accepts_exactly (input : Stream src) :
    let sign := Numeral.sign input.rest
    let whole := Numeral.digits input.rest
    let fraction := Numeral.fraction (Numeral.afterDigits input.rest)
    ((∃ done, number input = .success done) ↔ whole ≠ [] ∨ fraction ≠ []) ∧
    (∀ done, number input = .success done →
      done.start = input ∧ done.matched = sign ++ whole ++ fraction ∧
      input.Passes (sign ++ whole ++ fraction) done.next) ∧
    (whole = [] ∧ fraction = [] → ∃ place, place.cursor = input.cursor + sign.length ∧
      number input = .failure ⟨place, ["a number"], false⟩) ∧
    ∀ done, integer input = .success done →
      ∃ done', number input = .success done' ∧ done.next.cursor ≤ done'.next.cursor := by
  intro sign whole fraction
  obtain ⟨hfailure, hsuccess⟩ := number_of_numeral input
  refine ⟨⟨?_, ?_⟩, ?_, ?_, ?_⟩
  · rintro ⟨done, hdone⟩
    exact (number_eq_success hdone).1
  · intro hparts
    obtain ⟨next, -, hread⟩ := hsuccess hparts
    exact ⟨_, hread⟩
  · intro done hdone
    obtain ⟨-, next, hpasses, rfl⟩ := number_eq_success hdone
    exact ⟨rfl, rfl, hpasses⟩
  · intro hnone
    obtain ⟨place, hpasses, hfail⟩ := hfailure hnone
    refine ⟨place, ?_, hfail⟩
    rw [hpasses.cursor_eq, Numeral.byteLength_sign]
  · intro done hdone
    obtain ⟨hdigits, hplace⟩ := passes_of_integer hdone
    obtain ⟨next, hpasses, hread⟩ := hsuccess (.inl hdigits)
    obtain ⟨middle, hmiddle, hfraction⟩ := hpasses.split
    rw [hmiddle.unique hplace] at hfraction
    exact ⟨_, hread, hfraction.cursor_le⟩

/-- A point without a digit after it: left after a digit, and refused with none before it either. -/
theorem number_accepts_exactly_at_point :
    let text : Source := ⟨0, ['-', '5', '.', 'x']⟩
    let bare : Source := ⟨1, ['-', '.', 'x']⟩
    (∃ done, number (.first text) = .success done ∧ done.matched = ['-', '5'] ∧
      done.next.rest = ['.', 'x']) ∧
    ∃ place, place.cursor = 1 ∧ number (.first bare) = .failure ⟨place, ["a number"], false⟩ := by
  intro text bare
  obtain ⟨hiff, hdone, -, -⟩ := number_accepts_exactly (.first text)
  obtain ⟨done, hread⟩ := hiff.2 (.inl (by decide))
  obtain ⟨-, hmatched, hpasses⟩ := hdone done hread
  obtain ⟨-, -, hfailure, -⟩ := number_accepts_exactly (.first bare)
  have hrest : ['-', '5'] ++ ['.', 'x'] = ['-', '5'] ++ done.next.rest := hpasses
  exact ⟨⟨done, hread, hmatched, (List.append_cancel_left hrest).symm⟩, hfailure (by decide)⟩

/-! ## The value -/

/-- The value is the exact quotient, rounded, with the sign that was read. -/
theorem value_of_number {done : Success src Binary64} (h : number input = .success done) :
    (done.value.negative = true ↔ done.matched.head? = some '-') ∧
      Binary64.RoundsTo (Numeral.ratio input.rest) done.value.magnitude ∧
      done.value.magnitude ≤ Binary64.infinity := by
  obtain ⟨-, next, hpasses, rfl⟩ := number_eq_success h
  refine ⟨?_, ?_, Binary64.nearest_le_infinity _ _⟩
  · rw [Binary64.ofRatio, decide_eq_true_iff]
    constructor
    · intro hsign
      have hminus : Numeral.sign input.rest = ['-'] := if_pos (Numeral.sign_ne_nil_iff.1 hsign)
      rw [hminus]
      rfl
    · -- What was read is the beginning of the input, so its minus sign is the one that the input
      -- begins with.
      intro hhead
      obtain ⟨t, ht⟩ := List.head?_eq_some_iff.1 hhead
      dsimp only at ht
      rw [ht] at hpasses
      exact Numeral.sign_ne_nil_iff.2 hpasses.head?_rest
  · rw [Numeral.ratio_eq]
    exact Binary64.roundsTo_nearest _ (by positivity)

/-- **Correct rounding.** The highest of the 64 bits is set just if a minus sign was read, and the
others are those of the exact quotient rounded to nearest, ties to even.  So numbers with the same
sign and the same quotient have the same bits, however many zeros they are written with. -/
theorem number_correctly_rounded {done : Success src Binary64} (h : number input = .success done) :
    let bits := done.value.toBits
    bits < 2 ^ 64 ∧ (bits.testBit 63 = true ↔ done.matched.head? = some '-') ∧
    Binary64.RoundsTo (Numeral.ratio input.rest) (bits % 2 ^ 63) ∧
    ∀ {src' : Source} {input' : Stream src'} {done' : Success src' Binary64},
      number input' = .success done' →
      (done'.matched.head? = some '-' ↔ done.matched.head? = some '-') →
      Numeral.ratio input'.rest = Numeral.ratio input.rest → done'.value.toBits = bits := by
  intro bits
  obtain ⟨hsign, hrounds, hle⟩ := value_of_number h
  obtain ⟨hbits, hhighest, hothers⟩ := Binary64.toBits_fields hle
  refine ⟨hbits, ?_, ?_, ?_⟩
  · rw [hhighest, hsign]
  · rw [hothers]
    exact hrounds
  · intro src' input' done' h' hminus hratio
    obtain ⟨hsign', hrounds', -⟩ := value_of_number h'
    have hnegative : done'.value.negative = done.value.negative :=
      Bool.eq_iff_iff.2 (hsign'.trans (hminus.trans hsign.symm))
    have hmagnitude : done'.value.magnitude = done.value.magnitude :=
      hrounds'.unique (hratio ▸ hrounds)
    rw [Binary64.toBits, hnegative, hmagnitude]
    rfl

/-- Zeros before and after the digits do not show in the bits. -/
theorem number_correctly_rounded_with_zeros :
    let short : Source := ⟨0, ['-', '2', '.', '5']⟩
    let long : Source := ⟨1, ['-', '0', '2', '.', '5', '0', 'x']⟩
    ∃ done done', number (.first short) = .success done ∧ number (.first long) = .success done' ∧
      Binary64.RoundsTo (5 / 2) (done.value.toBits % 2 ^ 63) ∧
      done.value.toBits = 0xC004000000000000 ∧
      done'.value.toBits = done.value.toBits := by
  intro short long
  obtain ⟨next, -, hshort⟩ := (number_of_numeral (.first short)).2 (.inl (by decide))
  obtain ⟨next', -, hlong⟩ := (number_of_numeral (.first long)).2 (.inl (by decide))
  have hratio : Numeral.ratio short.text = 5 / 2 := by
    rw [Numeral.ratio_eq, show Numeral.magnitude _ = 25 by decide, show List.length _ = 1 by decide]
    norm_num
  have hratio' : Numeral.ratio long.text = 5 / 2 := by
    rw [Numeral.ratio_eq, show Numeral.magnitude _ = 250 by decide,
      show List.length _ = 2 by decide]
    norm_num
  obtain ⟨-, -, hrounds, hsame⟩ := number_correctly_rounded hshort
  refine ⟨_, _, hshort, hlong, hratio ▸ hrounds, ?_,
    hsame hlong Iff.rfl (hratio'.trans hratio.symm)⟩
  show (Binary64.ofRatio true 25 10).toBits = _
  decide +kernel

end Parser

end Descent
