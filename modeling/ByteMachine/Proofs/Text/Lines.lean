import ByteMachine.Text.Lines

/-!
# Joined lines come apart again

What stands in front of the first line feed is the first line, less a carriage
return at its end.  Texts that hold no line ends, joined by line feeds, are
therefore the lines of the whole text, provided that the last one is not empty:
an empty text behind the last line feed is no line.
-/

namespace ByteMachine

/-- A text without line feeds and carriage returns. -/
def IsOneLine (text : List Char) : Prop :=
  ∀ c ∈ text, c ≠ '\n' ∧ c ≠ '\r'

theorem isOneLine_iff {text : List Char} :
    IsOneLine text ↔ text.all (fun c => c != '\n' && c != '\r') = true := by
  simp [IsOneLine]

instance (text : List Char) : Decidable (IsOneLine text) :=
  decidable_of_iff _ isOneLine_iff.symm

/-- A text of characters of a kind that line ends are not of is one line. -/
theorem isOneLine_of_forall {text : List Char} {kind : Char → Bool}
    (h : ∀ c ∈ text, kind c = true) (hfeed : kind '\n' = false) (hreturn : kind '\r' = false) :
    IsOneLine text := by
  intro c hc
  have hkind := h c hc
  constructor
  · intro hline
    rw [hline, hfeed] at hkind
    cases hkind
  · intro hline
    rw [hline, hreturn] at hkind
    cases hkind

theorem IsOneLine.append {first second : List Char} (h : IsOneLine first)
    (h' : IsOneLine second) : IsOneLine (first ++ second) := by
  intro c hc
  rcases List.mem_append.mp hc with hc | hc
  · exact h c hc
  · exact h' c hc

theorem isOneLine_intercalate {separator : List Char} {texts : List (List Char)}
    (hseparator : IsOneLine separator) (h : ∀ text ∈ texts, IsOneLine text) :
    IsOneLine (separator.intercalate texts) := by
  induction texts with
  | nil =>
      intro c hc
      cases hc
  | cons text texts ih =>
      have htext := h text List.mem_cons_self
      have hrest := ih fun other hother => h other (List.mem_cons_of_mem _ hother)
      cases texts with
      | nil => rwa [List.intercalate_singleton]
      | cons next texts =>
          rw [List.intercalate_cons_cons]
          exact (htext.append hseparator).append hrest

/-- A line without the carriage return at its end, if there is one. -/
def dropReturn (line : List Char) : List Char :=
  if line.getLast? = some '\r' then line.dropLast else line

theorem dropReturn_cons (c : Char) {line : List Char} (h : line ≠ []) :
    dropReturn (c :: line) = c :: dropReturn line := by
  obtain ⟨d, line, rfl⟩ := List.exists_cons_of_ne_nil h
  rw [dropReturn, dropReturn, List.getLast?_cons_cons, List.dropLast_cons_cons]
  split <;> rfl

/-- A character that belongs to no line end is the first one of its line. -/
private theorem lines_cons {c : Char} {rest : List Char} (hc : c ≠ '\n')
    (hrest : c = '\r' → ∀ more, rest ≠ '\n' :: more) :
    lines (c :: rest) =
      match lines rest with
      | [] => [[c]]
      | line :: more => (c :: line) :: more :=
  -- the last equation, since neither of the two for line ends applies
  lines.eq_4 c rest hc fun more hreturn => hrest hreturn more

/-- **The first line.**  What stands in front of the first line feed is a line, less a
carriage return at its end. -/
theorem lines_append_lineFeed {line : List Char} (h : '\n' ∉ line) (rest : List Char) :
    lines (line ++ '\n' :: rest) = dropReturn line :: lines rest := by
  induction line with
  | nil => rw [List.nil_append, lines, dropReturn, if_neg (by simp)]
  | cons c line ih =>
      have hc : c ≠ '\n' := (List.ne_of_not_mem_cons h).symm
      have hline : '\n' ∉ line := List.not_mem_of_not_mem_cons h
      cases line with
      | nil =>
          by_cases hreturn : c = '\r'
          · subst hreturn
            rw [List.singleton_append, lines]
            rfl
          · rw [List.singleton_append, lines_cons hc fun heq => absurd heq hreturn,
              lines, dropReturn, if_neg (by simpa using hreturn)]
      | cons d line =>
          have hd : d ≠ '\n' := (List.ne_of_not_mem_cons hline).symm
          have hnext : ∀ more, d :: line ++ '\n' :: rest ≠ '\n' :: more :=
            fun more heq => hd (List.cons_eq_cons.mp heq).1
          rw [List.cons_append, lines_cons hc fun _ => hnext, ih hline,
            dropReturn_cons c (List.cons_ne_nil d line)]

/-- A text without line feeds, and not empty, is its only line. -/
theorem lines_of_no_lineFeed {line : List Char} (h : '\n' ∉ line) (hne : line ≠ []) :
    lines line = [line] := by
  induction line with
  | nil => exact absurd rfl hne
  | cons c line ih =>
      have hc : c ≠ '\n' := (List.ne_of_not_mem_cons h).symm
      have hline : '\n' ∉ line := List.not_mem_of_not_mem_cons h
      have hnext : ∀ more, line ≠ '\n' :: more := by
        rintro more rfl
        exact hline List.mem_cons_self
      rw [lines_cons hc fun _ => hnext]
      cases line with
      | nil => rw [lines]
      | cons d line => rw [ih hline (List.cons_ne_nil d line)]

/-- **Induction on line feeds.**  What holds of a text without line feeds, and of a line
in front of a text of which it holds, holds of every text. -/
@[elab_as_elim]
theorem lineFeed_induction {motive : List Char → Prop}
    (last : ∀ line, '\n' ∉ line → motive line)
    (more : ∀ line rest, '\n' ∉ line → motive rest → motive (line ++ '\n' :: rest))
    (text : List Char) : motive text := by
  induction hlength : text.length using Nat.strongRecOn generalizing text with
  | ind length ih =>
      by_cases hfeed : '\n' ∈ text
      · obtain ⟨line, rest, rfl, hline⟩ := List.eq_append_cons_of_mem hfeed
        have hshorter : rest.length < length := by
          rw [List.length_append, List.length_cons] at hlength
          omega
        exact more line rest hline (ih _ hshorter rest rfl)
      · exact last text hfeed

/-- The lines of two texts, of which the first one ends in a line feed. -/
theorem lines_append (first rest : List Char) :
    lines (first ++ '\n' :: rest) = lines (first ++ ['\n']) ++ lines rest := by
  induction first using lineFeed_induction with
  | last line hline =>
      rw [lines_append_lineFeed hline, lines_append_lineFeed hline]
      rfl
  | more line next hline ih =>
      rw [List.append_assoc, List.append_assoc, List.cons_append, List.cons_append,
        lines_append_lineFeed hline, lines_append_lineFeed hline, ih, List.cons_append]

/-- No line holds a line feed. -/
theorem lineFeed_not_mem_of_mem_lines {text line : List Char} (h : line ∈ lines text) :
    '\n' ∉ line := by
  induction text using lineFeed_induction with
  | last only honly =>
      cases only with
      | nil => cases h
      | cons c only =>
          rw [lines_of_no_lineFeed honly (List.cons_ne_nil c only)] at h
          rwa [List.mem_singleton.mp h]
  | more first rest hfirst ih =>
      rw [lines_append_lineFeed hfirst] at h
      rcases List.mem_cons.mp h with rfl | hrest
      · intro hmem
        unfold dropReturn at hmem
        split at hmem
        · exact hfirst (List.dropLast_subset first hmem)
        · exact hfirst hmem
      · exact ih hrest

/-- A line that does not end in a carriage return is the first line in front of a line
feed. -/
theorem lines_append_of_getLast? {line : List Char} (h : '\n' ∉ line)
    (hlast : line.getLast? ≠ some '\r') (rest : List Char) :
    lines (line ++ '\n' :: rest) = line :: lines rest := by
  rw [lines_append_lineFeed h, dropReturn, if_neg hlast]

/-- A line in front of a line feed is the first line. -/
theorem lines_append_newline {line : List Char} (h : IsOneLine line) (rest : List Char) :
    lines (line ++ '\n' :: rest) = line :: lines rest :=
  lines_append_of_getLast? (fun hmem => (h '\n' hmem).1 rfl)
    (fun hlast => (h '\r' (List.mem_of_getLast? hlast)).2 rfl) rest

/-- A text that is one line, and not empty, has this line only. -/
theorem lines_of_isOneLine {line : List Char} (h : IsOneLine line) (hne : line ≠ []) :
    lines line = [line] :=
  lines_of_no_lineFeed (fun hmem => (h '\n' hmem).1 rfl) hne

/-- **Lines of joined lines.**  Lines that are not empty, joined by line feeds,
come apart again. -/
theorem lines_intercalate {texts : List (List Char)}
    (h : ∀ text ∈ texts, IsOneLine text ∧ text ≠ []) :
    lines (['\n'].intercalate texts) = texts := by
  induction texts with
  | nil => rfl
  | cons text texts ih =>
      obtain ⟨hline, hne⟩ := h text List.mem_cons_self
      cases texts with
      | nil => rw [List.intercalate_singleton, lines_of_isOneLine hline hne]
      | cons next texts =>
          rw [List.intercalate_cons_cons, List.append_assoc, List.singleton_append,
            lines_append_newline hline,
            ih (fun other hother => h other (List.mem_cons_of_mem _ hother))]

end ByteMachine
