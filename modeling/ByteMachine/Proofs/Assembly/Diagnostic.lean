import ByteMachine.Proofs.Assembly.Linewise
import ByteMachine.Proofs.Text.Numeral
import Mathlib.Data.List.DropRight

/-!
# Where the mark of a diagnostic stands

A diagnostic ends in two rows.  The first one shows the faulty line behind a gutter with
the number of the line, and the second one has a mark behind a gutter of its own.  The mark
is set off by the column of the fault.

A column counts bytes, and a row counts characters.  So every character in front of the
fault that takes more than one byte moves the mark to the right of what it should point at.
The gutter of the mark, on the other hand, leaves room for line numbers of four digits, and
a longer number moves the line to the right.

* `gutter`, `markGutter` — what stands in front of the line and of the mark;
* `FaultAt.exists_char` — the character at the column of a fault;
* `lines_diagnostic` — the rows of a diagnostic;
* `diagnostic_mark_column` — where the mark stands, and when it points at the fault.
-/

namespace ByteMachine

open String (utf8Len)

/-! ## The first character of a fault -/

/-- No lexeme starts with a separator. -/
theorem IsLexeme.exists_head {lexeme : List Char} (h : IsLexeme lexeme) :
    ∃ c rest, lexeme = c :: rest ∧ isSeparator c = false := by
  cases h with
  | colon => exact ⟨':', [], rfl, by decide⟩
  | @pieces pieces hne hpieces =>
      obtain ⟨piece, more, rfl⟩ := List.exists_cons_of_ne_nil hne
      cases hpieces piece List.mem_cons_self with
      | @plain c hc => exact ⟨c, more.flatten, rfl, hc.2.1⟩
      | quoted c hinner => exact ⟨quote, _, rfl, by decide⟩

/-- **The character at a column.**  At the column of a fault stands a character of the line,
and no separator. -/
theorem FaultAt.exists_char {line : List Char} {column : Nat} {cause : Fault}
    (h : FaultAt line column cause) :
    ∃ before c after, line = before ++ c :: after ∧ column = 1 + utf8Len before ∧
      isSeparator c = false := by
  cases h with
  | unterminated hquote =>
      obtain ⟨before, after, rfl, rfl⟩ := hquote
      exact ⟨before, quote, after, by simp, rfl, by decide⟩
  | token htokens htoken hcolumn hstands hculprit =>
      obtain ⟨before, after, rfl, rfl⟩ := hstands
      obtain ⟨_, _, -, -, hlexes⟩ := exists_lexes_of_tokenize htokens
      obtain ⟨c, rest, htext, hc⟩ := (hlexes.isLexeme htoken).exists_head
      exact ⟨before, c, rest ++ after, by simp [htext], rfl, hc⟩

/-! ## The rows -/

/-- What stands in front of a source line with a given number. -/
def gutter (line : Nat) : List Char :=
  (alignRight 4 (Decimal.ofNat line) ++ " | ").toList

/-- What stands in front of the mark. -/
def markGutter : List Char :=
  List.replicate 5 ' ' ++ ['|', ' ']

theorem gutter_eq (line : Nat) :
    gutter line = List.replicate (4 - (Decimal.digits line).length) ' ' ++ Decimal.digits line ++
      [' ', '|', ' '] := by
  rw [gutter, String.toList_append, Decimal.toList_alignRight_ofNat]
  rfl

theorem length_gutter (line : Nat) :
    (gutter line).length = max 4 (Decimal.digits line).length + 3 := by
  rw [gutter_eq, List.length_append, List.length_append, List.length_replicate]
  show _ + 3 = _ + 3
  omega

/-- A gutter holds no line feed. -/
theorem lineFeed_not_mem_gutter (line : Nat) : '\n' ∉ gutter line := by
  intro hmem
  rw [gutter_eq, List.mem_append, List.mem_append] at hmem
  rcases hmem with (hspace | hdigit) | hbar
  · exact absurd (List.eq_of_mem_replicate hspace) (by decide)
  · exact absurd (Decimal.isDigit_of_mem_digits hdigit) (by decide)
  · exact absurd hbar (by decide)

/-- **The shown line.**  Of a line, all is shown but the carriage returns at its end. -/
theorem exists_shown (before after : List Char) {c : Char} (hc : c ≠ '\r') :
    ∃ shown returns, after = shown ++ returns ∧ (∀ r ∈ returns, r = '\r') ∧
      (shownLine (before ++ c :: after)).toList = before ++ c :: shown ∧
      (before ++ c :: shown).getLast? ≠ some '\r' := by
  let line := before ++ c :: after
  have hreturns : ∀ r ∈ line.rtakeWhile (· == '\r'), r = '\r' := by
    intro r hr
    have hreturn := List.mem_rtakeWhile_imp hr
    exact beq_iff_eq.mp hreturn
  have hlast : (line.rdropWhile (· == '\r')).getLast? ≠ some '\r' := by
    intro hreturn
    have hne : line.rdropWhile (· == '\r') ≠ [] := fun hnil => by simp [hnil] at hreturn
    have hlast := (List.getLast_eq_iff_getLast?_eq_some hne).mpr hreturn
    exact List.rdropWhile_last_not (· == '\r') line hne (beq_iff_eq.mpr hlast)
  have hline : line.rdropWhile (· == '\r') ++ line.rtakeWhile (· == '\r') = before ++ c :: after :=
    List.rdropWhile_append_rtakeWhile
  have hshown : (shownLine line).toList = line.rdropWhile (· == '\r') := String.toList_ofList
  -- the character is no carriage return, so it is shown
  rcases List.append_eq_append_iff.mp hline with ⟨more, -, hmore⟩ | ⟨more, hkept, hmore⟩
  · exact absurd (hreturns c (by rw [hmore]; simp)) hc
  · cases more with
    | nil => exact absurd (hreturns c (by rw [List.nil_append] at hmore; simp [← hmore])) hc
    | cons d shown =>
        obtain ⟨rfl, hafter⟩ := List.cons_eq_cons.mp hmore
        rw [hkept] at hshown hlast
        exact ⟨shown, _, hafter, hreturns, hshown, hlast⟩

/-- The row of the mark. -/
def markRow (column : Nat) : List Char :=
  markGutter ++ List.replicate (column - 1) ' ' ++ ['^']

/-- There is one mark in its row. -/
theorem getElem?_markRow {column n : Nat} :
    (markRow column)[n]? = some '^' ↔ n = markGutter.length + (column - 1) := by
  have hlength : (markGutter ++ List.replicate (column - 1) ' ').length =
      markGutter.length + (column - 1) := by
    rw [List.length_append, List.length_replicate]
  have hfront : '^' ∉ markGutter ++ List.replicate (column - 1) ' ' := by
    rw [List.mem_append, not_or]
    exact ⟨by decide, fun hmem => absurd (List.eq_of_mem_replicate hmem) (by decide)⟩
  rw [markRow, ← hlength]
  constructor
  · intro hmark
    rcases Nat.lt_trichotomy n (markGutter ++ List.replicate (column - 1) ' ').length with
      hlt | heq | hgt
    · rw [List.getElem?_append_left hlt] at hmark
      exact absurd (List.mem_of_getElem? hmark) hfront
    · exact heq
    · rw [List.getElem?_append_right (Nat.le_of_lt hgt), List.getElem?_eq_none (by simp; omega)]
        at hmark
      cases hmark
  · rintro rfl
    exact List.getElem?_concat_length

/-- A row ends where the line feed behind it is. -/
structure IsRow (row : List Char) : Prop where
  noFeed : '\n' ∉ row
  noReturn : row.getLast? ≠ some '\r'

theorem IsRow.lines_append {row : List Char} (h : IsRow row) (rest : List Char) :
    lines (row ++ '\n' :: rest) = row :: lines rest :=
  lines_append_of_getLast? h.noFeed h.noReturn rest

theorem isRow_markRow (column : Nat) : IsRow (markRow column) where
  noFeed := by
    rw [markRow, List.mem_append, List.mem_append, not_or, not_or]
    exact ⟨⟨by decide, fun hmem => absurd (List.eq_of_mem_replicate hmem) (by decide)⟩,
      by decide⟩
  noReturn := by
    rw [markRow, List.getLast?_concat]
    decide

/-- A line behind its gutter, without the carriage returns at its end. -/
theorem isRow_gutter_append (line : Nat) {text : List Char} (hne : text ≠ [])
    (hfeed : '\n' ∉ text) (hreturn : text.getLast? ≠ some '\r') :
    IsRow (gutter line ++ text) where
  noFeed := by
    rw [List.mem_append, not_or]
    exact ⟨lineFeed_not_mem_gutter line, hfeed⟩
  noReturn := by rwa [List.getLast?_append_of_ne_nil _ hne]

/-- The row between the place of a fault and the faulty line. -/
def barRow : List Char :=
  List.replicate 5 ' ' ++ ['|']

theorem isRow_barRow : IsRow barRow :=
  ⟨by decide, by decide⟩

theorem toList_diagnostic (file message : String) {source : String} {line : Nat} (column : Nat)
    {text : List Char} (hline : (lines source.toList)[line - 1]? = some text) :
    ∃ header, (diagnostic file source line column message).toList =
      header ++ '\n' :: (barRow ++ '\n' :: (gutter line ++ (shownLine text).toList ++
        '\n' :: (markRow column ++ '\n' :: []))) := by
  refine ⟨("error: " ++ message ++ "\n --> " ++ file ++ ":" ++ Decimal.ofNat line ++ ":"
    ++ Decimal.ofNat column).toList, ?_⟩
  rw [diagnostic, hline]
  simp [gutter, barRow, markRow, markGutter, spaces]

/-- **The rows of a diagnostic.**  The last two rows are the faulty line and the mark, each
behind its gutter. -/
theorem lines_diagnostic (file message : String) {source : String} {line : Nat} (column : Nat)
    {before after : List Char} {c : Char} (hc : c ≠ '\r')
    (hline : (lines source.toList)[line - 1]? = some (before ++ c :: after)) :
    ∃ shown returns front, after = shown ++ returns ∧ (∀ r ∈ returns, r = '\r') ∧
      lines (diagnostic file source line column message).toList =
        front ++ [gutter line ++ (before ++ c :: shown), markRow column] := by
  obtain ⟨shown, returns, rfl, hreturns, hshown, hlast⟩ := exists_shown before after hc
  obtain ⟨header, htext⟩ := toList_diagnostic file message column hline
  have hfeed : '\n' ∉ before ++ c :: shown := by
    have hstart : before ++ c :: shown <+: before ++ c :: (shown ++ returns) :=
      ⟨returns, by rw [List.append_assoc, List.cons_append]⟩
    exact fun hmem => lineFeed_not_mem_of_mem_lines (List.mem_of_getElem? hline)
      (hstart.subset hmem)
  have hrow : IsRow (gutter line ++ (before ++ c :: shown)) :=
    isRow_gutter_append line (by simp) hfeed hlast
  refine ⟨shown, returns, lines (header ++ ['\n']) ++ [barRow], rfl, hreturns, ?_⟩
  rw [htext, hshown, lines_append, isRow_barRow.lines_append, hrow.lines_append,
    (isRow_markRow column).lines_append, lines, List.append_assoc, List.singleton_append]

/-! ## The mark -/

/-- Every character takes a byte. -/
theorem length_le_utf8Len (text : List Char) : text.length ≤ utf8Len text := by
  induction text with
  | nil => exact Nat.zero_le _
  | cons d text ih =>
      have hd := d.utf8Size_pos
      rw [String.utf8Len_cons, List.length_cons]
      omega

/-- There are as many bytes as characters where every character takes one byte. -/
theorem utf8Len_eq_length_iff {text : List Char} :
    utf8Len text = text.length ↔ ∀ d ∈ text, d.toNat < 128 := by
  induction text with
  | nil => simp
  | cons d text ih =>
      have hd := d.utf8Size_pos
      have hone : d.utf8Size = 1 ↔ d.toNat < 128 := by
        rw [Char.utf8Size_eq_one_iff, UInt32.le_iff_toNat_le]
        exact Nat.lt_succ_iff.symm
      have hrest := length_le_utf8Len text
      rw [String.utf8Len_cons, List.length_cons, List.forall_mem_cons, ← ih, ← hone]
      omega

/-- **Where the mark stands.**  A source text that does not assemble has a fault at a column
of a line, where a character of the line begins.  A diagnostic shows the line up to the
carriage returns at its end, and below it one mark.

The mark stands below the character exactly if there are as many bytes more than characters
in front of it as the number of the line has digits more than four.  So on the first 9999
lines it does exactly if all characters in front of it are in ASCII. -/
theorem diagnostic_mark_column (file message source : String) {fault : Fault}
    (h : assemble source = .error fault) :
    ∃ line column cause before c shown returns,
      fault = .assembly line column cause ∧ 1 ≤ line ∧
      (lines source.toList)[line - 1]? = some (before ++ c :: (shown ++ returns)) ∧
      (∀ r ∈ returns, r = '\r') ∧
      column = 1 + utf8Len before ∧
      FaultAt (before ++ c :: (shown ++ returns)) column cause ∧
      ∃ front mark,
        lines (diagnostic file source line column message).toList =
          front ++ [gutter line ++ (before ++ c :: shown), mark] ∧
        (∀ n, mark[n]? = some '^' ↔ n = markGutter.length + utf8Len before) ∧
        (mark[(gutter line ++ before).length]? = some '^' ↔
          utf8Len before = before.length + ((Decimal.digits line).length - 4)) ∧
        (line < 10000 → (mark[(gutter line ++ before).length]? = some '^' ↔
          ∀ d ∈ before, d.toNat < 128)) := by
  obtain ⟨front, line, back, cause, hlines, -, hline, rfl⟩ := exists_of_assembleLines_eq_error h
  obtain ⟨-, -, hfault⟩ := faultAt_of_encodeLineAt hline
  obtain ⟨before, c, after, rfl, hcolumn, hc⟩ := hfault.exists_char
  have hnumber : (lines source.toList)[1 + front.length - 1]? = some (before ++ c :: after) := by
    rw [hlines, Nat.add_sub_cancel_left, List.getElem?_append_right (Nat.le_refl _),
      Nat.sub_self]
    rfl
  have hreturn : c ≠ '\r' := by
    rintro rfl
    cases hc
  obtain ⟨shown, returns, rows, rfl, hreturns, hrows⟩ :=
    lines_diagnostic file message cause.column hreturn hnumber
  have hmark : ∀ n, (markRow cause.column)[n]? = some '^' ↔
      n = markGutter.length + utf8Len before := by
    intro n
    rw [getElem?_markRow, hcolumn, Nat.add_sub_cancel_left]
  have hbytes := length_le_utf8Len before
  have hbelow : (markRow cause.column)[(gutter (1 + front.length) ++ before).length]? = some '^' ↔
      utf8Len before = before.length + ((Decimal.digits (1 + front.length)).length - 4) := by
    have hgutter : markGutter.length = 7 := rfl
    rw [hmark, List.length_append, length_gutter, hgutter]
    omega
  refine ⟨_, _, _, before, c, shown, returns, rfl, Nat.le_add_right _ _, hnumber, hreturns,
    hcolumn, hfault, rows, _, hrows, hmark, hbelow, fun hfew => ?_⟩
  have hdigits : (Decimal.digits (1 + front.length)).length ≤ 4 :=
    Decimal.length_digits_le_iff.mpr hfew
  rw [hbelow, ← utf8Len_eq_length_iff, Nat.sub_eq_zero_of_le hdigits, Nat.add_zero]

/-- A quote that never closes, behind a literal of two bytes. -/
theorem diagnostic_mark_column_unclosed :
    let source := "halt\ncmp 'é', '"
    assemble source = .error (.assembly 2 11 .unterminatedLiteral) ∧
      ∃ front row mark,
        lines (diagnostic "p.asm" source 2 11 "unterminated character literal").toList =
          front ++ [row, mark] ∧
        ∀ n, mark[n]? = some '^' ↔ n = 17 := by
  intro source
  have h : assemble source = .error (.assembly 2 11 .unterminatedLiteral) := by decide +kernel
  refine ⟨h, ?_⟩
  obtain ⟨line, column, cause, before, c, shown, returns, hfault, -, -, -, hcolumn, -, front, mark,
    hrows, hmark, -⟩ := diagnostic_mark_column "p.asm" "unterminated character literal" source h
  cases hfault
  have hbytes : markGutter.length + utf8Len before = 17 := by
    have hgutter : markGutter.length = 7 := rfl
    omega
  exact ⟨front, _, mark, hrows, fun n => by rw [hmark, hbytes]⟩

/-- **A mark beside the fault.**  A quote that never closes is the third character of a line and
the fourth byte.  The mark stands one character behind it. -/
theorem diagnostic_marks_behind_quote :
    let source := "é 'x"
    let message := "unterminated character literal"
    assemble source = .error (.assembly 1 4 .unterminatedLiteral) ∧
      ∃ front row mark,
        lines (diagnostic "p.asm" source 1 4 message).toList = front ++ [row, mark] ∧
        row = "   1 | é 'x".toList ∧ row.idxOf quote = 9 ∧ mark.idxOf '^' = 10 := by
  refine ⟨by rfl, ["error: unterminated character literal".toList, " --> p.asm:1:4".toList,
    "     |".toList], _, "     |    ^".toList, ?_, rfl, ?_, ?_⟩ <;> decide +kernel

end ByteMachine
