import Descent.Proofs.Lines

/-!
# What the wording of a failure shows

The wording of a failure is a heading with a row and a column, the line they mean with a marker
below the column, and a sentence (`Report.lines_toString`).  The marker stands below the character
that the failure is at, and the sentence ends with that character and what follows it on the line,
or says that there is none (`Failure.rendered_points_at_position`).
-/

namespace Descent

/-! ## Escapes -/

theorem exists_digit_of_mem_toDigits {b n : Nat} (hb : 1 < b) {c : Char}
    (h : c ∈ Nat.toDigits b n) : ∃ d < b, c = Nat.digitChar d := by
  induction n using Nat.strongRecOn with
  | _ n ih =>
    by_cases hn : n < b
    · rw [Nat.toDigits_of_lt_base hn, List.mem_singleton] at h
      exact ⟨n, hn, h⟩
    · rw [Nat.toDigits_of_base_le hb (Nat.not_lt.1 hn), List.mem_append, List.mem_singleton] at h
      rcases h with h | h
      · exact ih (n / b) (Nat.div_lt_self (by omega) hb) h
      · exact ⟨n % b, Nat.mod_lt n (by omega), h⟩

theorem isControl_digitChar {d : Nat} (h : d < 16) : isControl (Nat.digitChar d) = false := by
  decide +revert

theorem escapeControl_of_not_isControl {c : Char} (h : isControl c = false) :
    escapeControl c = [c] := by
  have htab : c ≠ '\t' := by
    rintro rfl
    contradiction
  have hreturn : c ≠ '\r' := by
    rintro rfl
    contradiction
  have hnewline : c ≠ '\n' := by
    rintro rfl
    contradiction
  rw [escapeControl, if_neg htab, if_neg hreturn, if_neg hnewline, h]
  rfl

theorem isControl_of_all {t : Text} (h : t.all (!isControl ·) = true) :
    ∀ c ∈ t, isControl c = false := by
  simpa using h

/-- An escape is written without control characters. -/
theorem isControl_of_mem_escapeControl (c : Char) : ∀ d ∈ escapeControl c, isControl d = false := by
  by_cases hc : isControl c = true
  · have hframe : ∀ d ∈ ['\\', 'u', '\x7b'] ++ ['\x7d'], isControl d = false :=
      isControl_of_all (by decide)
    unfold escapeControl
    split_ifs
    · exact isControl_of_all (by decide)
    · exact isControl_of_all (by decide)
    · exact isControl_of_all (by decide)
    · intro d hd
      simp only [List.mem_append] at hd hframe
      rcases hd with (hd | hd) | hd
      · exact hframe d (.inl hd)
      · obtain ⟨n, hn, rfl⟩ := exists_digit_of_mem_toDigits (by decide) hd
        exact isControl_digitChar hn
      · exact hframe d (.inr hd)
  · rw [Bool.not_eq_true] at hc
    rw [escapeControl_of_not_isControl hc]
    simpa using hc

theorem Saw.isControl_of_mem_toText (saw : Saw) : ∀ c ∈ saw.toText, isControl c = false := by
  cases saw with
  | endOfInput => exact isControl_of_all (by decide)
  | excerpt shown =>
    intro c hc
    simp only [Saw.toText, List.mem_append, List.mem_singleton, List.mem_flatMap] at hc
    rcases hc with (rfl | ⟨d, -, hd⟩) | rfl
    · rfl
    · exact isControl_of_mem_escapeControl d c hd
    · rfl

/-! ## The lines of a report -/

namespace Report

/-- The first line of a report. -/
def heading (place : LinePlace) : Text :=
  ("At line " ++ toString place.row ++ ", column " ++ toString place.column ++ ":").toList

/-- The line of a place with markers below the column, unless the line is blank. -/
def marked (place : LinePlace) : List Text :=
  if place.line.any fun c => !isSpace c then
    [place.line, List.replicate place.column ' ' ++ ['^'], List.replicate place.column ' ' ++ ['|']]
  else []

/-- What the sentence of a report says before what stands at the place. -/
def introduction : List String → String
  | [] => "Error: unexpected "
  | ds => "Error: expected " ++ " or ".intercalate ds ++ ", saw "

theorem toList_sentence (expected : List String) (saw : Saw) :
    (sentence expected saw).toList = (introduction expected).toList ++ saw.toText := by
  have hparts : sentence expected saw = introduction expected ++ String.ofList saw.toText := by
    cases expected <;> rfl
  rw [hparts, String.toList_append, @String.toList_ofList saw.toText]

theorem toList_heading (place : LinePlace) :
    ("At line " ++ toString place.row ++ ", column " ++ toString place.column ++ ":\n\n").toList =
      finished [heading place, []] := by
  have hend : ":\n\n".toList = ":".toList ++ ['\n', '\n'] := rfl
  rw [String.toList_append, hend, ← List.append_assoc, ← String.toList_append]
  simp [finished, heading]

theorem toList_excerpt (place : LinePlace) : (excerpt place).toList = finished (marked place) := by
  unfold excerpt marked
  rw [List.all_eq_not_any_not]
  cases place.line.any fun c => !isSpace c with
  | true => simp [finished]
  | false => rfl

theorem newline_not_mem_toString (n : Nat) : '\n' ∉ (toString n).toList := by
  rw [Nat.toString_eq_ofList_toDigits, String.toList_ofList]
  intro h
  have hdigit := Nat.isDigit_of_mem_toDigits (by decide) (by decide) h
  contradiction

theorem newline_not_mem_heading (place : LinePlace) : '\n' ∉ heading place := by
  have hwords : '\n' ∉ "At line ".toList ∧ '\n' ∉ ", column ".toList ∧
      '\n' ∉ ":".toList := by decide
  simp only [heading, String.toList_append, List.mem_append, newline_not_mem_toString, hwords,
    or_false, not_false_eq_true]

theorem newline_not_mem_marked {place : LinePlace} (hline : '\n' ∉ place.line) :
    ∀ l ∈ marked place, '\n' ∉ l := by
  have hmark : ∀ c : Char, '\n' ≠ c → '\n' ∉ List.replicate place.column ' ' ++ [c] := by
    intro c hc
    simp [List.mem_replicate, hc]
  unfold marked
  split_ifs
  · rw [List.forall_mem_cons, List.forall_mem_cons, List.forall_mem_singleton]
    exact ⟨hline, hmark '^' (by decide), hmark '|' (by decide)⟩
  · exact fun _ h => absurd h List.not_mem_nil

/-- The wording of a report, line by line. -/
theorem lines_toString {r : Report} (hline : '\n' ∉ r.place.line) :
    lines r.toString.toList = heading r.place :: [] :: marked r.place ++
      lines ((introduction r.expected).toList ++ r.saw.toText) := by
  have hwhole : r.toString.toList = finished (heading r.place :: [] :: marked r.place) ++
      ((introduction r.expected).toList ++ r.saw.toText) := by
    unfold Report.toString
    rw [String.toList_append, String.toList_append, toList_heading, toList_excerpt, toList_sentence,
      ← finished_append]
    rfl
  rw [hwhole, lines_finished_append]
  rw [List.forall_mem_cons, List.forall_mem_cons]
  exact ⟨newline_not_mem_heading r.place, List.not_mem_nil, newline_not_mem_marked hline⟩

end Report

/-! ## The place of a failure -/

theorem untilLineEnd_eq_nil_iff (t : Text) :
    untilLineEnd t = [] ↔ t.head? = none ∨ t.head? = some '\n' := by
  rcases t with _ | ⟨c, t⟩
  · simp
  · by_cases hc : c = '\n'
    · simp [hc]
    · simp [hc, untilLineEnd_cons hc]

namespace Failure

variable {src : Source}

theorem drop_column_line_cursor (f : Failure src) :
    (findLine src.text f.cursor).line.drop (findLine src.text f.cursor).column =
      untilLineEnd f.position.rest := by
  rw [drop_column_line, cursor, f.position.splitAtByte_cursor]

theorem getElem?_line_column (f : Failure src) :
    (findLine src.text f.cursor).line[(findLine src.text f.cursor).column]? =
      (untilLineEnd f.position.rest).head? := by
  rw [← f.drop_column_line_cursor, List.head?_drop]

theorem column_eq_length_line_iff (f : Failure src) :
    (findLine src.text f.cursor).column = (findLine src.text f.cursor).line.length ↔
      f.position.rest.head? = none ∨ f.position.rest.head? = some '\n' := by
  have hle := column_le_length_line src.text f.cursor
  rw [← untilLineEnd_eq_nil_iff, ← f.drop_column_line_cursor, List.drop_eq_nil_iff]
  omega

theorem nextOnLine_cursor (f : Failure src) (width : Nat) :
    nextOnLine src.text f.cursor width = clip width (untilLineEnd f.position.rest) := by
  rw [nextOnLine, cursor, f.position.splitAtByte_cursor]

variable {f : Failure src} {width : Nat}

theorem saw_of_rest_eq_nil (h : f.position.rest = []) : f.saw width = .endOfInput := by
  rw [saw, h]

theorem exists_saw_eq_excerpt (width : Nat) {c : Char} {r : Text} (h : f.position.rest = c :: r) :
    ∃ shown, f.saw width = .excerpt shown := by
  rw [saw, h]
  cases nextOnLine src.text f.cursor width with
  | nil => exact ⟨_, rfl⟩
  | cons d shown => exact ⟨_, rfl⟩

theorem saw_of_newline {r : Text} (h : f.position.rest = '\n' :: r) :
    f.saw width = .excerpt ['\n'] := by
  have hnext : nextOnLine src.text f.cursor width = [] := by
    rw [f.nextOnLine_cursor, h, untilLineEnd_newline, clip_eq_self (Nat.zero_le _)]
  rw [saw, h, hnext]

theorem saw_of_cons {c : Char} {r : Text} (h : f.position.rest = c :: r) (hc : c ≠ '\n') :
    f.saw (width + 1) = .excerpt (c :: clip width (untilLineEnd r)) := by
  have hnext : nextOnLine src.text f.cursor (width + 1) = c :: clip width (untilLineEnd r) := by
    rw [f.nextOnLine_cursor, h, untilLineEnd_cons hc, clip_cons]
  rw [saw, h, hnext]

theorem toText_saw_eq_iff (f : Failure src) (width : Nat) :
    (f.saw width).toText = ['E', 'O', 'F'] ↔ f.position.rest.head? = none := by
  rw [List.head?_eq_none_iff]
  constructor
  · intro h
    rcases hrest : f.position.rest with _ | ⟨c, r⟩
    · rfl
    · obtain ⟨shown, hshown⟩ := exists_saw_eq_excerpt width hrest
      rw [hshown] at h
      have hquote : '"' = 'E' := (List.cons.inj h).1
      contradiction
  · intro h
    rw [saw_of_rest_eq_nil h]
    rfl

/-- **Rendering.**  The wording of a failure is, line by line, a heading with the row and the column
of its place, the line of the place with markers below the column unless it is blank, and a sentence
that ends with what stands at the place.  The column is that of the character there, or lies behind
the line just if that character is a line feed or there is none.  What stands at the place is said
to be the end, a line feed, or an excerpt that begins with the character, and is written without
control characters. -/
theorem rendered_points_at_position (f : Failure src) (width : Nat) :
    let place := findLine src.text f.cursor
    let saw := (f.saw width).toText
    let next := f.position.rest.head?
    renderAt? src.text f.cursor f.expected width = some (f.renderWith width) ∧
      lines (f.renderWith width).toList = Report.heading place :: [] :: Report.marked place ++
        lines ((Report.introduction f.expected).toList ++ saw) ∧
      (lines src.text)[place.row]? = some place.line ∧
      (∀ c, next = some c → c ≠ '\n' → place.line[place.column]? = some c) ∧
      (place.column = place.line.length ↔ next = none ∨ next = some '\n') ∧
      (saw = ['E', 'O', 'F'] ↔ next = none) ∧
      (next = some '\n' → saw = ['"', '\\', 'n', '"']) ∧
      (∀ c, next = some c → c ≠ '\n' → 0 < width →
        ∃ more, saw = ['"'] ++ escapeControl c ++ more ++ ['"']) ∧
      ∀ c ∈ saw, isControl c = false := by
  intro place saw next
  have hline := (clampToBoundary_eq_offsetOf src.text f.cursor).1
  refine ⟨f.renderAt?_cursor width, ?_, hline, ?_, f.column_eq_length_line_iff,
    f.toText_saw_eq_iff width,
    ?_, ?_, Saw.isControl_of_mem_toText _⟩
  · exact Report.lines_toString (newline_not_mem_line src.text f.cursor)
  · intro c hnext hc
    obtain ⟨r, hrest⟩ := List.head?_eq_some_iff.1 hnext
    show (findLine src.text f.cursor).line[(findLine src.text f.cursor).column]? = some c
    rw [f.getElem?_line_column, hrest, untilLineEnd_cons hc, List.head?_cons]
  · intro hnext
    obtain ⟨r, hrest⟩ := List.head?_eq_some_iff.1 hnext
    show (f.saw width).toText = _
    rw [saw_of_newline hrest]
    rfl
  · intro c hnext hc hwidth
    obtain ⟨r, hrest⟩ := List.head?_eq_some_iff.1 hnext
    obtain ⟨w, rfl⟩ := Nat.exists_eq_add_one.2 hwidth
    refine ⟨(clip w (untilLineEnd r)).flatMap escapeControl, ?_⟩
    show (f.saw (w + 1)).toText = _
    rw [saw_of_cons hrest hc, Saw.toText, List.flatMap_cons, List.append_assoc _ (escapeControl c)]

/-- A failure at a tab, behind a character of two bytes, with an excerpt of one character. -/
theorem rendered_points_at_tab :
    let src : Source := ⟨0, ['x', 'é', '\t', 'z', '\n', 'q']⟩
    let f : Failure src := ⟨⟨['é', 'x'], ['\t', 'z', '\n', 'q'], 3, rfl, rfl⟩, ["a digit"], false⟩
    f.position.rest.head? = some '\t' ∧ '\t' ≠ '\n' ∧ 0 < 1 ∧
      (findLine src.text f.cursor).line[(findLine src.text f.cursor).column]? = some '\t' ∧
      (∃ more, (f.saw 1).toText = ['"'] ++ ['\\', 't'] ++ more ++ ['"']) ∧
      lines (f.renderWith 1).toList =
        ["At line 0, column 2:".toList, [], ['x', 'é', '\t', 'z'], [' ', ' ', '^'], [' ', ' ', '|'],
          "Error: expected a digit, saw \"\\t...\"".toList] := by
  intro src f
  obtain ⟨-, hlines, -, hmarker, -, -, -, hexcerpt, -⟩ := f.rendered_points_at_position 1
  refine ⟨rfl, by decide, by decide, hmarker '\t' rfl (by decide), ?_, hlines.trans ?_⟩
  · exact hexcerpt '\t' rfl (by decide) (by decide)
  · decide +kernel

end Failure

end Descent
