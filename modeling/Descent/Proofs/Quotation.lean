import Descent.Proofs.Reading

/-!
# The grammar of quoted texts

A `QuotedItem` is one character of a quoted text as it may be written: any character after a
backslash, or as it is a character that is neither a quote nor a backslash.  `inQuotes items` is the
text of items between double quotes.  Such texts can be read in one way only
(`eq_of_inQuotes_prefix`).

The parser reads a backslash before the end of the source as a character of its own, which no item
does.  This does not matter: every text is items up to a quote, to the end, or to a lone backslash
before the end (`exists_items`), and in the last two cases there is no closing quote.  So
`Parser.quoted` accepts just the texts in quotes.

`quote` writes the items that have a backslash only where there must be one (`quote_eq_inQuotes`).
-/

namespace Descent

variable {src : Source}

/-! ## Items -/

/-- One character of a quoted text as it may be written. -/
inductive QuotedItem where
  /-- Any character after a backslash. -/
  | escaped (c : Char)
  /-- A character as it is. -/
  | plain (c : Char) (h : c ≠ '"' ∧ c ≠ '\\')
deriving DecidableEq

namespace QuotedItem

/-- The text of an item. -/
def written : QuotedItem → Text
  | escaped c => ['\\', c]
  | plain c _ => [c]

/-- The character an item stands for. -/
def char : QuotedItem → Char
  | escaped c => c
  | plain c _ => c

/-- The item of a character that has a backslash only if the character needs one. -/
def ofChar (c : Char) : QuotedItem :=
  if h : c = '"' ∨ c = '\\' then escaped c else plain c (not_or.1 h)

@[simp]
theorem written_escaped (c : Char) : (escaped c).written = ['\\', c] := rfl

@[simp]
theorem written_plain (c : Char) (h : c ≠ '"' ∧ c ≠ '\\') : (plain c h).written = [c] := rfl

theorem written_ne_nil (i : QuotedItem) : i.written ≠ [] := by
  cases i <;> simp

/-- No item begins with a quote. -/
theorem written_append_ne (i : QuotedItem) (t r : Text) : i.written ++ t ≠ '"' :: r := by
  cases i with
  | escaped c => simp
  | plain c h => simp [h.1]

/-- What a text begins with is one item at most. -/
theorem eq_of_written_append_eq {i j : QuotedItem} {t u : Text}
    (h : i.written ++ t = j.written ++ u) : i = j ∧ t = u := by
  cases i with
  | escaped c =>
    cases j with
    | escaped d => simpa using h
    | plain d hd => exact absurd (List.cons.inj h).1.symm hd.2
  | plain c hc =>
    cases j with
    | escaped d => exact absurd (List.cons.inj h).1 hc.2
    | plain d hd => simpa using h

theorem written_ofChar (c : Char) : (ofChar c).written = quoteChar c := by
  unfold ofChar quoteChar
  split <;> rfl

theorem char_ofChar (c : Char) : (ofChar c).char = c := by
  unfold ofChar
  split <;> rfl

/-- An item is the one for its character unless it has a backslash that is not needed. -/
theorem ofChar_char_eq_iff (i : QuotedItem) :
    ofChar i.char = i ↔ ∀ c, i = escaped c → c = '"' ∨ c = '\\' := by
  cases i with
  | escaped c =>
    by_cases h : c = '"' ∨ c = '\\'
    · simp [ofChar, char, h]
    · simp [ofChar, char, h]
  | plain c h => simp [ofChar, char, h]

end QuotedItem

/-- Items between double quotes. -/
def inQuotes (items : List QuotedItem) : Text := '"' :: (items.flatMap QuotedItem.written ++ ['"'])

/-- Up to the first quote that is not part of an item, a text is made of items in one way. -/
theorem eq_of_items_append_eq {items others : List QuotedItem} {r r' : Text}
    (h : items.flatMap QuotedItem.written ++ '"' :: r =
      others.flatMap QuotedItem.written ++ '"' :: r') :
    items = others := by
  induction items generalizing others with
  | nil =>
    cases others with
    | nil => rfl
    | cons j others =>
      rw [List.flatMap_cons, List.append_assoc] at h
      exact absurd h.symm (j.written_append_ne _ _)
  | cons i items ih =>
    rw [List.flatMap_cons, List.append_assoc] at h
    cases others with
    | nil => exact absurd h (i.written_append_ne _ _)
    | cons j others =>
      rw [List.flatMap_cons, List.append_assoc] at h
      obtain ⟨rfl, hothers⟩ := QuotedItem.eq_of_written_append_eq h
      rw [ih hothers]

/-- A text begins with at most one text in quotes, read in one way. -/
theorem eq_of_inQuotes_prefix {items others : List QuotedItem} {w : Text} (h : inQuotes items <+: w)
    (h' : inQuotes others <+: w) : items = others := by
  obtain ⟨r, rfl⟩ := h
  obtain ⟨r', hr'⟩ := h'
  simp only [inQuotes, List.cons_append, List.append_assoc, List.cons.injEq, true_and,
    List.nil_append] at hr'
  exact (eq_of_items_append_eq hr').symm

/-- Every text is made of items up to its end, to a backslash with nothing after it, or to a
quote. -/
theorem exists_items (w : Text) :
    ∃ (items : List QuotedItem) (tail : Text), w = items.flatMap QuotedItem.written ++ tail ∧
      (tail = [] ∨ tail = ['\\'] ∨ ∃ r, tail = '"' :: r) := by
  match w with
  | [] => exact ⟨[], [], rfl, .inl rfl⟩
  | c :: w =>
    by_cases hquote : c = '"'
    · exact ⟨[], c :: w, rfl, .inr (.inr ⟨w, by rw [hquote]⟩)⟩
    by_cases hbackslash : c = '\\'
    · subst hbackslash
      match w with
      | [] => exact ⟨[], ['\\'], rfl, .inr (.inl rfl)⟩
      | d :: w =>
        obtain ⟨items, tail, hw, htail⟩ := exists_items w
        exact ⟨.escaped d :: items, tail, congrArg ('\\' :: d :: ·) hw, htail⟩
    · obtain ⟨items, tail, hw, htail⟩ := exists_items w
      exact ⟨.plain c ⟨hquote, hbackslash⟩ :: items, tail, congrArg (c :: ·) hw, htail⟩
termination_by w.length

/-! ## One item -/

namespace Parser

variable {input stop : Stream src}

/-- Where no backslash comes next nothing is escaped. -/
theorem escape_declines (h : input.rest.head? ≠ some '\\') :
    ((char '\\').andThen item : Parser src Char).Declines input := by
  obtain ⟨expected, hback⟩ := char_of_head_ne h
  exact Declines.bind ⟨_, hback, rfl⟩

/-- Wherever an item comes next it is read, and gives its character. -/
theorem reads_quotedItem (i : QuotedItem) :
    (quotedItem : Parser src Char).Reads i.written i.char := by
  cases i with
  | escaped c =>
    have hescape : ((char '\\').andThen item : Parser src Char).Reads (['\\'] ++ [c]) c :=
      (reads_char '\\').bind fun _ => reads_satisfy rfl
    exact hescape.orElse_left _
  | plain c hc =>
    intro input next h
    have hhead : input.rest.head? = some c := h.head?_rest
    refine orElse_of_declines (escape_declines ?_) ((readsOne_notChar '"').reads ?_ h)
    · rw [hhead]
      exact fun heq => hc.2 (Option.some.inj heq)
    · exact bne_iff_ne.2 hc.1

/-- A backslash with nothing after it is read as it is. -/
theorem quotedItem_of_lone_backslash (h : input.Passes ['\\'] stop) (hend : stop.rest = []) :
    quotedItem input = .success ⟨'\\', input, stop, ['\\']⟩ := by
  have hitem : (item : Parser src Char) stop = .failure (.unexpected stop) :=
    satisfy_of_head fun c hc => by simp [hend] at hc
  have hescape : ((char '\\').andThen item : Parser src Char).Declines input :=
    ⟨_, bind_of_success_of_failure (reads_char '\\' h) hitem, rfl⟩
  exact orElse_of_declines hescape ((readsOne_notChar '"').reads (by decide) h)

theorem quotedItem_declines (h : ∀ c ∈ input.rest.head?, c = '"') :
    (quotedItem : Parser src Char).Declines input := by
  refine (escape_declines fun hback => ?_).orElse ((readsOne_notChar '"').declines fun c hc => ?_)
  · exact absurd (h _ hback) (by decide)
  · rw [h c hc]
    rfl

/-! ## Texts in quotes -/

theorem quoted_eq_between : (quoted : Parser src Text) =
    label "a quoted string" ((char '"').between (many quotedItem) (char '"')) := by
  rw [between_eq_program]
  rfl

theorem many_quotedItem_of_items {items : List QuotedItem}
    (h : input.Passes (items.flatMap QuotedItem.written) stop)
    (hstop : ∀ c ∈ stop.rest.head?, c = '"') :
    (many quotedItem : Parser src Text) input =
      .success ⟨items.map QuotedItem.char, input, stop, items.flatMap QuotedItem.written⟩ := by
  rw [many_char]
  exact repeated_of_reads (fun i _ => ⟨i.written_ne_nil, reads_quotedItem i⟩) h
    (quotedItem_declines hstop) (Nat.zero_le _)

theorem reads_quoted (items : List QuotedItem) :
    (quoted : Parser src Text).Reads (inQuotes items) (items.map QuotedItem.char) := by
  intro input next h
  obtain ⟨start, hopening, hrest⟩ := Stream.Passes.split (t := ['"']) h
  obtain ⟨stop, hitems, hclosing⟩ := hrest.split
  have hcontent := many_quotedItem_of_items hitems fun c hc => by
    rw [hclosing.head?_rest] at hc
    exact (Option.some.inj hc).symm
  rw [quoted_eq_between]
  refine label_of_success _ ?_
  rw [Parser.between, reads_char '"' hopening, Outcome.success_bind, hcontent, Outcome.success_bind,
    reads_char '"' hclosing, Outcome.success_bind]
  rfl

theorem quoted_of_head (h : input.rest.head? ≠ some '"') :
    quoted input = .failure ⟨input, ["a quoted string"], false⟩ := by
  obtain ⟨expected, hquote⟩ := char_of_head_ne h
  rw [quoted_eq_between]
  refine label_of_failure (f := ⟨input, expected, false⟩) _ ?_
  rw [Parser.between, hquote, Outcome.failure_bind]

/-- Where items reach the end, or a backslash before it, the content of a quoted text does too. -/
theorem many_quotedItem_to_end {items : List QuotedItem} {tail : Text}
    (h : input.rest = items.flatMap QuotedItem.written ++ tail)
    (htail : tail = [] ∨ tail = ['\\']) :
    ∃ done, (many quotedItem : Parser src Text) input = .success done ∧ done.next.rest = [] := by
  obtain ⟨place, hitems, hplace⟩ := Stream.exists_passes_of_rest h
  rcases htail with rfl | rfl
  · exact ⟨_, many_quotedItem_of_items hitems fun c hc => by simp [hplace] at hc, hplace⟩
  · -- The backslash is read as one more character, which leaves nothing.
    obtain ⟨stop, hback, hend⟩ := Stream.exists_passes_of_rest (t := ['\\']) (r := []) hplace
    obtain ⟨steps, hsteps, -, -⟩ :=
      strides_of_reads (fun i _ => ⟨i.written_ne_nil, reads_quotedItem i⟩) hitems
    have hlast : quotedItem.Strides place [⟨'\\', place, stop, ['\\']⟩] stop :=
      .cons (quotedItem_of_lone_backslash hback hend) (hback.cursor_lt (List.cons_ne_nil _ _))
        (.nil stop)
    have hstop : quotedItem.Declines stop := quotedItem_declines fun c hc => by simp [hend] at hc
    have hrepeats := Repeats.declined (hsteps.append hlast) hstop (Nat.zero_le _)
    rw [many_char]
    exact ⟨_, hrepeats.repeated_eq, hend⟩

theorem quoted_of_unclosed {items : List QuotedItem} {tail : Text}
    (h : input.rest = '"' :: (items.flatMap QuotedItem.written ++ tail))
    (htail : tail = [] ∨ tail = ['\\']) :
    ∃ stop, stop.rest = [] ∧ quoted input = .failure ⟨stop, ["a quoted string"], false⟩ := by
  obtain ⟨start, hopening, hstart⟩ := Stream.exists_passes_of_rest (t := ['"']) h
  obtain ⟨done, hcontent, hend⟩ := many_quotedItem_to_end hstart htail
  have hnone : done.next.rest.head? ≠ some '"' := by simp [hend]
  obtain ⟨expected, hclosing⟩ := char_of_head_ne hnone
  refine ⟨done.next, hend, ?_⟩
  rw [quoted_eq_between]
  refine label_of_failure (f := ⟨done.next, expected, false⟩) _ ?_
  rw [Parser.between, reads_char '"' hopening, Outcome.success_bind, hcontent, Outcome.success_bind,
    hclosing, Outcome.failure_bind]

/-- What does not begin with a text in quotes is refused, at the end if it begins with a quote. -/
theorem quoted_of_no_items (h : ¬ ∃ items, inQuotes items <+: input.rest) :
    ∃ place, quoted input = .failure ⟨place, ["a quoted string"], false⟩ ∧
      (input.rest.head? ≠ some '"' → place = input) ∧
      (input.rest.head? = some '"' → place.rest = []) := by
  by_cases hhead : input.rest.head? = some '"'
  · obtain ⟨body, hbody⟩ := List.head?_eq_some_iff.1 hhead
    obtain ⟨items, tail, rfl, htail⟩ := exists_items body
    -- Items up to a quote would be a text in quotes.
    have hopen : tail = [] ∨ tail = ['\\'] := by
      rcases htail with htail | htail | ⟨r, rfl⟩
      · exact .inl htail
      · exact .inr htail
      · exact absurd ⟨items, r, by rw [hbody]; simp [inQuotes]⟩ h
    obtain ⟨stop, hend, hfail⟩ := quoted_of_unclosed hbody hopen
    exact ⟨stop, hfail, fun hne => absurd hhead hne, fun _ => hend⟩
  · exact ⟨input, quoted_of_head hhead, fun _ => rfl, fun heq => absurd heq hhead⟩

theorem quoted_eq_success_iff (done : Success src Text) :
    quoted input = .success done ↔ ∃ items next, input.Passes (inQuotes items) next ∧
      done = ⟨items.map QuotedItem.char, input, next, inQuotes items⟩ := by
  constructor
  · intro hdone
    by_cases h : ∃ items, inQuotes items <+: input.rest
    · obtain ⟨items, hitems⟩ := h
      obtain ⟨next, hnext⟩ := Stream.exists_passes_of_prefix hitems
      exact ⟨items, next, hnext, Outcome.success.inj (hdone.symm.trans (reads_quoted items hnext))⟩
    · obtain ⟨place, hfail, -⟩ := quoted_of_no_items h
      cases hdone.symm.trans hfail
  · rintro ⟨items, next, hnext, rfl⟩
    exact reads_quoted items hnext

/-- **Quoted texts are those of the grammar.** The parser succeeds just where a text in quotes comes
next.  That text is then the only one, it is matched as a whole, and the value is the characters of
its items.  Otherwise the parser fails, and not fatally, where it stands if no quote comes next and
at the end of the source if one does. -/
theorem quoted_accepts_exactly (input : Stream src) :
    ((∃ done, quoted input = .success done) ↔ ∃ items, inQuotes items <+: input.rest) ∧
    (∀ items, inQuotes items <+: input.rest →
      (∃ next, input.Passes (inQuotes items) next ∧
        quoted input = .success ⟨items.map QuotedItem.char, input, next, inQuotes items⟩) ∧
      ∀ others, inQuotes others <+: input.rest → others = items) ∧
    ((¬ ∃ items, inQuotes items <+: input.rest) →
      ∃ f, quoted input = .failure f ∧ f.fatal = false ∧ f.expected = ["a quoted string"] ∧
        (input.rest.head? ≠ some '"' → f.position = input) ∧
        (input.rest.head? = some '"' → f.cursor = byteLength src.text)) := by
  have haccepts : ∀ items, inQuotes items <+: input.rest →
      ∃ next, input.Passes (inQuotes items) next ∧
      quoted input = .success ⟨items.map QuotedItem.char, input, next, inQuotes items⟩ := by
    intro items hitems
    obtain ⟨next, hnext⟩ := Stream.exists_passes_of_prefix hitems
    exact ⟨next, hnext, reads_quoted items hnext⟩
  refine ⟨⟨?_, ?_⟩, fun items hitems => ⟨haccepts items hitems, ?_⟩, fun hnone => ?_⟩
  · rintro ⟨done, hdone⟩
    obtain ⟨items, next, hnext, -⟩ := (quoted_eq_success_iff done).1 hdone
    exact ⟨items, next.rest, hnext.symm⟩
  · rintro ⟨items, hitems⟩
    obtain ⟨next, -, hsuccess⟩ := haccepts items hitems
    exact ⟨_, hsuccess⟩
  · exact fun others hothers => eq_of_inQuotes_prefix hothers hitems
  · obtain ⟨place, hfail, hhere, hend⟩ := quoted_of_no_items hnone
    refine ⟨_, hfail, rfl, rfl, hhere, fun hhead => ?_⟩
    have hwhole := place.cursor_add_byteLength_rest
    rwa [hend hhead] at hwhole

/-- A text with an escaped quote that closes before the end, and one whose only closing quote is
taken by a backslash, both after a character of two bytes. -/
theorem quoted_accepts_exactly_after_accent :
    let closed : Stream ⟨0, ['é', '"', 'a', '\\', '"', '"', '"']⟩ :=
      ⟨['é'], ['"', 'a', '\\', '"', '"', '"'], 2, rfl, rfl⟩
    let unclosed : Stream ⟨0, ['é', '"', 'a', '\\', '"']⟩ :=
      ⟨['é'], ['"', 'a', '\\', '"'], 2, rfl, rfl⟩
    (∃ next, next.cursor = 7 ∧
      quoted closed = .success ⟨['a', '"'], closed, next, ['"', 'a', '\\', '"', '"']⟩) ∧
    ∃ f, quoted unclosed = .failure f ∧ f.cursor = 6 ∧
      ¬ ∃ items, inQuotes items <+: unclosed.rest := by
  intro closed unclosed
  obtain ⟨-, haccepts, -⟩ := quoted_accepts_exactly closed
  obtain ⟨⟨next, hnext, hclosed⟩, -⟩ :=
    haccepts [.plain 'a' (by decide), .escaped '"'] ⟨['"'], rfl⟩
  obtain ⟨hiff, -, hrefuses⟩ := quoted_accepts_exactly unclosed
  have hnone : ¬ ∃ items, inQuotes items <+: unclosed.rest := by
    rw [← hiff]
    rintro ⟨done, hdone⟩
    have hbody : unclosed.rest =
        '"' :: ([.plain 'a' (by decide), .escaped '"'].flatMap QuotedItem.written ++ []) := rfl
    obtain ⟨stop, -, hfail⟩ := quoted_of_unclosed hbody (.inl rfl)
    cases hdone.symm.trans hfail
  obtain ⟨f, hunclosed, -, -, -, hend⟩ := hrefuses hnone
  exact ⟨⟨next, hnext.cursor_eq, hclosed⟩, f, hunclosed, hend rfl, hnone⟩

end Parser

/-! ## Writing and reading -/

theorem quote_eq_inQuotes (t : Text) : quote t = inQuotes (t.map QuotedItem.ofChar) := by
  have hitems : (t.map QuotedItem.ofChar).flatMap QuotedItem.written = t.flatMap quoteChar := by
    simp only [List.flatMap_map, QuotedItem.written_ofChar]
  rw [inQuotes, hitems]
  rfl

theorem inQuotes_injective {items others : List QuotedItem} (h : inQuotes items = inQuotes others) :
    items = others :=
  eq_of_inQuotes_prefix (List.prefix_refl _) (h ▸ List.prefix_refl _)

/-- Writing what items stand for gives the items back unless a backslash was not needed. -/
theorem quote_map_char_eq_iff (items : List QuotedItem) :
    quote (items.map QuotedItem.char) = inQuotes items ↔
      ∀ c, QuotedItem.escaped c ∈ items → c = '"' ∨ c = '\\' := by
  have hsame : quote (items.map QuotedItem.char) = inQuotes items ↔
      items.map (fun i => QuotedItem.ofChar i.char) = items.map id := by
    rw [quote_eq_inQuotes, List.map_map, List.map_id]
    exact ⟨inQuotes_injective, congrArg inQuotes⟩
  rw [hsame, List.map_inj_left]
  simp only [id, QuotedItem.ofChar_char_eq_iff]
  exact ⟨fun h c hc => h _ hc c rfl, fun h i hi c hc => h c (hc ▸ hi)⟩

namespace Parser

theorem reads_quote (t : Text) : (quoted : Parser src Text).Reads (quote t) t := by
  have hchars : (t.map QuotedItem.ofChar).map QuotedItem.char = t := by
    rw [List.map_map]
    exact List.map_id'' QuotedItem.char_ofChar t
  have hreads : (quoted : Parser src Text).Reads _ _ := reads_quoted (t.map QuotedItem.ofChar)
  rwa [← quote_eq_inQuotes, hchars] at hreads

/-- **Quoting and reading.** A text written in quotes is read back as it was wherever it stands.
The value of any quoted text can be written and read again, and it is written as it was just if
every backslash stands before a quote or a backslash. -/
theorem quote_round_trip (src : Source) :
    (∀ (before text after : Text) (input : Stream src), src.text = before ++ quote text ++ after →
      input.cursor = byteLength before →
      ∃ next, quoted input = .success ⟨text, input, next, quote text⟩ ∧
        next.cursor = byteLength before + byteLength (quote text)) ∧
    ∀ (input : Stream src) (done : Success src Text), quoted input = .success done →
      (∀ other : Source, other.text = quote done.value → ∃ next : Stream other, next.rest = [] ∧
        quoted (.first other) = .success ⟨done.value, .first other, next, quote done.value⟩) ∧
      (∃ items, done.matched = inQuotes items ∧ done.value = items.map QuotedItem.char) ∧
      ∀ items, done.matched = inQuotes items →
        (quote done.value = done.matched ↔
          ∀ c, QuotedItem.escaped c ∈ items → c = '"' ∨ c = '\\') := by
  constructor
  · intro before text after input htext hcursor
    have hrest : input.rest = quote text ++ after :=
      Stream.rest_of_cursor_eq (htext.trans (List.append_assoc ..)) hcursor
    obtain ⟨next, hnext, -⟩ := Stream.exists_passes_of_rest hrest
    exact ⟨next, reads_quote text hnext, hcursor ▸ hnext.cursor_eq⟩
  · intro input done hdone
    obtain ⟨items, next, -, rfl⟩ := (quoted_eq_success_iff done).1 hdone
    refine ⟨fun other hother => ?_, ⟨items, rfl, rfl⟩, fun others hothers => ?_⟩
    · have hrest : (Stream.first other).rest = quote (items.map QuotedItem.char) ++ [] := by
        rw [List.append_nil]
        exact hother
      obtain ⟨stop, hstop, hend⟩ := Stream.exists_passes_of_rest hrest
      exact ⟨stop, hend, reads_quote _ hstop⟩
    · obtain rfl : items = others := inQuotes_injective hothers
      exact quote_map_char_eq_iff items

/-- A quote and a backslash between other texts in quotes; and a letter that has a backslash without
need, so that it is written in a shorter way. -/
theorem quote_round_trip_in_context :
    let written : Source := ⟨0, ['é', '"'] ++ quote ['"', '\\'] ++ ['"']⟩
    let place : Stream written :=
      ⟨['"', 'é'], ['"', '\\', '"', '\\', '\\', '"', '"'], 3, rfl, rfl⟩
    let escaped : Source := ⟨1, ['"', '\\', 'n', '"']⟩
    (∃ next, quoted place = .success ⟨['"', '\\'], place, next, quote ['"', '\\']⟩ ∧
      next.cursor = 9) ∧
    ∃ done, quoted (.first escaped) = .success done ∧ done.value = ['n'] ∧
      quote done.value ≠ done.matched := by
  intro written place escaped
  obtain ⟨hwritten, -⟩ := quote_round_trip written
  obtain ⟨-, hread⟩ := quote_round_trip escaped
  have hpasses : Stream.Passes (.first escaped) (inQuotes [.escaped 'n'])
      ⟨['"', 'n', '\\', '"'], [], 4, rfl, rfl⟩ := rfl
  have hparse := reads_quoted [.escaped 'n'] hpasses
  obtain ⟨-, -, hcanonical⟩ := hread _ _ hparse
  refine ⟨hwritten ['é', '"'] ['"', '\\'] ['"'] place rfl rfl, _, hparse, rfl, fun heq => ?_⟩
  have hneeded := (hcanonical [.escaped 'n'] rfl).1 heq 'n' List.mem_cons_self
  exact absurd hneeded (by decide)

end Parser

end Descent
