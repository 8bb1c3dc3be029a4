import ByteMachine.Proofs.Assembly.Lexeme

/-!
# The scan of a line

A scan reads a line character by character, with the part of a token behind it.  It is
compared with the grammar of lexemes piece by piece: a whole piece only extends the part
that has been read, and where no piece stands the part is a token.  So the scan of a text
that consists of separators and maximal lexemes yields these lexemes.  Every line is such
a text up to a comment or a quote that never closes, and this settles both ways in which
a scan ends.

* `LaidOut` — how the tokens of a text lie in it;
* `scanBehind_pieces` — pieces extend the part that has been read;
* `Lexes.scan_append` — a text is scanned as it is read by the grammar;
* `Lexes.laidOut` — tokens are slices in order, with separators between them;
* `tokenize_lexes` — which lines are accepted, with which tokens, and what is blamed.
-/

namespace ByteMachine

open String (utf8Len)

/-! ## How tokens lie in a text -/

/-- What stands behind `before` in a text, of which the first character stands at
`column`, belongs to a token. -/
def Token.Covers (token : Token) (column : Nat) (before part : List Char) : Prop :=
  token.column ≤ column + utf8Len before ∧
    column + utf8Len before + utf8Len part ≤ token.column + token.text.utf8ByteSize

/-- The tokens of a text of which the first character stands at `column`. -/
structure LaidOut (column : Nat) (text : List Char) (tokens : List Token) : Prop where
  /-- A token is what stands at its column. -/
  slices : ∀ token ∈ tokens, ∃ before after,
    text = before ++ token.text.toList ++ after ∧ token.column = column + utf8Len before
  /-- A token has characters. -/
  nonempty : ∀ token ∈ tokens, token.text.toList ≠ []
  /-- A token ends in front of the next one. -/
  ordered : tokens.Pairwise fun token next =>
    token.column + token.text.utf8ByteSize ≤ next.column
  /-- Outside of the tokens there are separators only. -/
  gaps : ∀ before c after, text = before ++ c :: after →
    isSeparator c = true ∨ ∃ token ∈ tokens, token.Covers column before [c]
  /-- No token ends inside a piece, whatever is quoted there. -/
  whole : ∀ front piece back, (∀ item ∈ front, IsItem item) → IsPiece piece →
    text = List.flatten front ++ piece ++ back →
    ∃ token ∈ tokens, token.Covers column front.flatten piece

/-! ## The part that has been read -/

/-- The part of a token when `text` has been read of it. -/
def PartialToken.read (column : Nat) (text : List Char) : Option PartialToken :=
  if text = [] then none else some ⟨column, text.reverse⟩

namespace PartialToken

theorem extend_read (column : Nat) (text : List Char) (c : Char) :
    extend (read column text) (column + utf8Len text) c = read column (text ++ [c]) := by
  cases text with
  | nil => rfl
  | cons d text => simp [read, extend]

theorem finish_read {text : List Char} (h : text ≠ []) (column : Nat) :
    finish (read column text) = [⟨String.ofList text, column⟩] := by
  simp [read, finish, h]

end PartialToken

open PartialToken (read finish extend_read finish_read)

/-- The scan of the rest of a line behind `text`, which starts at `column` and has been
read of a token. -/
def scanBehind (column : Nat) (text : List Char) (quoting : Quoting) (rest : List Char) :
    Except LineFault (List Token) :=
  scan (column + utf8Len text) (read column text) quoting rest

variable {column start : Nat} {text rest : List Char}

private theorem column_append (c : Char) :
    column + utf8Len text + c.utf8Size = column + utf8Len (text ++ [c]) := by
  simp [Nat.add_assoc]

theorem scanBehind_plain {c : Char} (hc : IsPlain c) :
    scanBehind column text .outside (c :: rest) =
      scanBehind column (text ++ [c]) .outside rest := by
  rw [scanBehind, scan_plain hc, extend_read, column_append, scanBehind]

theorem scanBehind_quote :
    scanBehind column text .outside (quote :: rest) =
      scanBehind column (text ++ [quote]) (.opened (column + utf8Len text)) rest := by
  rw [scanBehind, scan, if_neg (by decide), if_neg (by decide), if_neg (by decide),
    if_pos rfl, extend_read, column_append, scanBehind]

theorem scanBehind_opened (c : Char) :
    scanBehind column text (.opened start) (c :: rest) =
      scanBehind column (text ++ [c]) (.inside start) rest := by
  rw [scanBehind, scan, extend_read, column_append, scanBehind]

theorem scanBehind_close :
    scanBehind column text (.inside start) (quote :: rest) =
      scanBehind column (text ++ [quote]) .outside rest := by
  rw [scanBehind, scan, if_pos rfl, extend_read, column_append, scanBehind]

/-- Behind an opening quote everything but a quote belongs to the token. -/
theorem scanBehind_inside {inner : List Char} (hinner : quote ∉ inner) :
    scanBehind column text (.inside start) (inner ++ rest) =
      scanBehind column (text ++ inner) (.inside start) rest := by
  induction inner generalizing text with
  | nil => rw [List.nil_append, List.append_nil]
  | cons c inner ih =>
      have hc : c ≠ quote := (List.ne_of_not_mem_cons hinner).symm
      have hrest : quote ∉ inner := List.not_mem_of_not_mem_cons hinner
      rw [List.cons_append, scanBehind, scan, if_neg hc, extend_read, column_append,
        ← scanBehind, ih hrest, List.append_assoc, List.singleton_append]

/-- A piece extends the part that has been read. -/
theorem scanBehind_piece {piece : List Char} (h : IsPiece piece) :
    scanBehind column text .outside (piece ++ rest) =
      scanBehind column (text ++ piece) .outside rest := by
  cases h with
  | plain hc => exact scanBehind_plain hc
  | quoted c hinner =>
      rw [List.cons_append, List.cons_append, List.append_assoc, List.singleton_append,
        scanBehind_quote, scanBehind_opened, scanBehind_inside hinner, scanBehind_close]
      simp

/-- **Rows of pieces.**  Pieces in a row extend the part that has been read. -/
theorem scanBehind_pieces {pieces : List (List Char)}
    (h : ∀ piece ∈ pieces, IsPiece piece) :
    scanBehind column text .outside (pieces.flatten ++ rest) =
      scanBehind column (text ++ pieces.flatten) .outside rest := by
  induction pieces generalizing text with
  | nil => rw [List.flatten_nil, List.nil_append, List.append_nil]
  | cons piece pieces ih =>
      rw [List.flatten_cons, List.append_assoc, scanBehind_piece (h piece List.mem_cons_self),
        ih (fun other hother => h other (List.mem_cons_of_mem _ hother)), List.append_assoc]

/-- A quote that never closes is blamed. -/
theorem scanBehind_unclosed (h : NoPiece (quote :: rest)) :
    scanBehind column text .outside (quote :: rest) =
      .error ⟨column + utf8Len text, .unterminatedLiteral⟩ := by
  rw [scanBehind_quote]
  cases rest with
  | nil => rfl
  | cons c inner =>
      have hinner : quote ∉ inner := by
        intro hmem
        obtain ⟨front, back, rfl, hfront⟩ := List.eq_append_cons_of_mem hmem
        exact h _ (.quoted c hfront) ⟨back, by simp⟩
      rw [scanBehind_opened, ← List.append_nil inner, scanBehind_inside hinner]
      rfl

/-! ## What ends a token -/

theorem scan_comment {c : Char} (hc : c = '#') (part : Option PartialToken) :
    scan column part .outside (c :: rest) = .ok (finish part) := by
  rw [scan, if_pos hc]

theorem scan_separator {c : Char} (hc : isSeparator c = true) (part : Option PartialToken) :
    scan column part .outside (c :: rest) =
      (finish part ++ ·) <$> scan (column + c.utf8Size) none .outside rest := by
  have hcomment : c ≠ '#' := by
    rintro rfl
    exact absurd hc (by decide)
  rw [scan, if_neg hcomment, if_pos hc]
  rfl

theorem scan_colon (part : Option PartialToken) :
    scan column part .outside (':' :: rest) =
      (finish part ++ ⟨":", column⟩ :: ·) <$> scan (column + 1) none .outside rest := by
  rw [scan, if_neg (by decide), if_neg (by decide), if_pos rfl]
  rfl

/-- Where no piece stands, the part that has been read is a token. -/
theorem scanBehind_stop (h : NoPiece rest) :
    scanBehind column text .outside rest =
      (finish (read column text) ++ ·) <$>
        scan (column + utf8Len text) none .outside rest := by
  have hnone : finish none = [] := rfl
  cases rest with
  | nil => exact congrArg Except.ok (List.append_nil _).symm
  | cons c rest =>
      by_cases hcomment : c = '#'
      · rw [scanBehind, scan_comment hcomment, scan_comment hcomment]
        exact congrArg Except.ok (List.append_nil _).symm
      by_cases hseparator : isSeparator c = true
      · rw [scanBehind, scan_separator hseparator, scan_separator hseparator, hnone]
        simp
      by_cases hcolon : c = ':'
      · rw [hcolon, scanBehind, scan_colon, scan_colon, hnone]
        simp
      by_cases hquote : c = quote
      · subst hquote
        have hnew : scanBehind (column + utf8Len text) [] .outside (quote :: rest) =
            .error ⟨column + utf8Len text, .unterminatedLiteral⟩ := scanBehind_unclosed h
        rw [scanBehind_unclosed h]
        exact congrArg (_ <$> ·) hnew.symm
      · have hplain : IsPlain c := ⟨hcomment, by simpa using hseparator, hcolon, hquote⟩
        exact absurd ⟨rest, rfl⟩ (h [c] (.plain hplain))

/-! ## Texts that the grammar reads -/

/-- **The scan follows the grammar.**  Separators and maximal lexemes are scanned as they
are read. -/
theorem Lexes.scan_append {tokens : List Token} (h : Lexes rest column text tokens) :
    scan column none .outside (text ++ rest) =
      (tokens ++ ·) <$> scan (column + utf8Len text) none .outside rest := by
  induction h with
  | nil column => simp
  | @separator column c text tokens hc _ ih =>
      rw [List.cons_append, scan_separator hc, ih]
      simp [finish, Nat.add_assoc, Nat.add_comm]
  | @lexeme column lexeme text tokens hlexeme hmaximal _ ih =>
      rw [List.append_assoc]
      cases hlexeme with
      | colon =>
          have hwidth : utf8Len [':'] = 1 := rfl
          rw [hwidth] at ih
          rw [List.singleton_append, scan_colon, ih, String.utf8Len_append, hwidth,
            ← Nat.add_assoc, Functor.map_map]
          rfl
      | @pieces pieces hne hpieces =>
          have hstops := (isMaximal_pieces hne hpieces).mp hmaximal
          have hread : scanBehind column [] .outside (pieces.flatten ++ (text ++ rest)) =
              scanBehind column pieces.flatten .outside (text ++ rest) :=
            scanBehind_pieces hpieces
          rw [scanBehind_stop hstops, finish_read (flatten_ne_nil hne hpieces), ih] at hread
          refine hread.trans ?_
          simp [Nat.add_assoc]

/-- A text in front of a comment is accepted. -/
theorem Lexes.tokenize_comment {comment : List Char} {tokens : List Token}
    (h : Lexes comment 1 text tokens) (hcomment : IsComment comment) :
    tokenize (text ++ comment) = .ok tokens := by
  have hend : scan (1 + utf8Len text) none .outside comment = .ok [] := by
    cases comment with
    | nil => rfl
    | cons c more => exact scan_comment hcomment none
  rw [tokenize, h.scan_append, hend]
  exact congrArg Except.ok (List.append_nil tokens)

/-- A text in front of a quote that never closes is refused. -/
theorem Lexes.tokenize_unclosed {before : List Token}
    (h : Lexes (quote :: rest) 1 text before) (hunclosed : NoPiece (quote :: rest)) :
    tokenize (text ++ quote :: rest) = .error ⟨1 + utf8Len text, .unterminatedLiteral⟩ := by
  have hend : scanBehind (1 + utf8Len text) [] .outside (quote :: rest) =
      .error ⟨1 + utf8Len text, .unterminatedLiteral⟩ := scanBehind_unclosed hunclosed
  rw [tokenize, h.scan_append]
  exact congrArg (_ <$> ·) hend

/-! ## The layout of tokens -/

private theorem column_add (lead before : List Char) :
    column + utf8Len lead + utf8Len before = column + utf8Len (lead ++ before) := by
  rw [String.utf8Len_append, Nat.add_assoc]

/-- What a token covers in a text it covers behind whatever stands in front of the text. -/
theorem Token.Covers.append {token : Token} {lead before part : List Char}
    (h : token.Covers (column + utf8Len lead) before part) :
    token.Covers column (lead ++ before) part := by
  rwa [Token.Covers, column_add] at h

/-- A token covers all its characters. -/
theorem Token.covers_self (column : Nat) (before part after : List Char) :
    Token.Covers ⟨String.ofList (before ++ part ++ after), column⟩ column before part := by
  refine ⟨Nat.le_add_right _ _, ?_⟩
  rw [String.utf8ByteSize_ofList, column_add, String.utf8Len_append _ after]
  exact Nat.add_le_add_left (Nat.le_add_right _ _) column

namespace LaidOut

variable {tokens : List Token}

theorem nil (column : Nat) : LaidOut column [] [] where
  slices := by simp
  nonempty := by simp
  ordered := .nil
  gaps := by simp
  whole := by
    intro front piece back _ hpiece htext
    have hnil := (List.append_eq_nil_iff.mp htext.symm).1
    exact absurd (List.append_eq_nil_iff.mp hnil).2 hpiece.ne_nil

/-- A separator in front moves the tokens. -/
theorem separator {c : Char} (hc : isSeparator c = true)
    (h : LaidOut (column + utf8Len [c]) text tokens) : LaidOut column (c :: text) tokens where
  slices := by
    intro token htoken
    obtain ⟨before, after, rfl, hcolumn⟩ := h.slices token htoken
    exact ⟨[c] ++ before, after, rfl, by rw [hcolumn, column_add]⟩
  nonempty := h.nonempty
  ordered := h.ordered
  gaps := by
    intro before d after htext
    cases before with
    | nil =>
        obtain ⟨rfl, -⟩ := List.cons_eq_cons.mp htext
        exact .inl hc
    | cons e before =>
        obtain ⟨rfl, hrest⟩ := List.cons_eq_cons.mp htext
        rcases h.gaps before d after hrest with hd | ⟨token, htoken, hcovers⟩
        · exact .inl hd
        · exact .inr ⟨token, htoken, hcovers.append⟩
  whole := by
    intro front piece back hfront hpiece htext
    cases front with
    | nil => exact absurd ⟨back, htext.symm⟩ (noPiece_separator hc text piece hpiece)
    | cons item front =>
        rw [List.flatten_cons, List.append_assoc, List.append_assoc] at htext
        obtain rfl : [c] = item := (IsItem.separator hc).eq_of_stands
          (hfront item List.mem_cons_self) ⟨text, rfl⟩ ⟨_, htext.symm⟩
        rw [← List.append_assoc front.flatten] at htext
        obtain ⟨token, htoken, hcovers⟩ := h.whole front piece back
          (fun other hother => hfront other (List.mem_cons_of_mem _ hother)) hpiece
          (List.cons_eq_cons.mp htext).2
        exact ⟨token, htoken, hcovers.append⟩

/-- A lexeme in front moves the tokens and covers its own characters. -/
theorem lexeme {lexeme : List Char} (hlexeme : IsLexeme lexeme)
    (h : LaidOut (column + utf8Len lexeme) text tokens) :
    LaidOut column (lexeme ++ text) (⟨String.ofList lexeme, column⟩ :: tokens) where
  slices := by
    intro token htoken
    rcases List.mem_cons.mp htoken with rfl | htoken
    · exact ⟨[], text, by simp, rfl⟩
    · obtain ⟨before, after, rfl, hcolumn⟩ := h.slices token htoken
      exact ⟨lexeme ++ before, after, by simp, by rw [hcolumn, column_add]⟩
  nonempty := by
    intro token htoken
    rcases List.mem_cons.mp htoken with rfl | htoken
    · rw [String.toList_ofList]
      exact hlexeme.ne_nil
    · exact h.nonempty token htoken
  ordered := by
    refine .cons ?_ h.ordered
    intro next hnext
    obtain ⟨before, -, -, hcolumn⟩ := h.slices next hnext
    rw [hcolumn, String.utf8ByteSize_ofList]
    exact Nat.le_add_right _ _
  gaps := by
    intro before c after htext
    -- The character stands inside the lexeme or behind it.
    have hbehind : ∀ more, before = lexeme ++ more → text = more ++ c :: after →
        isSeparator c = true ∨
          ∃ token ∈ ⟨String.ofList lexeme, column⟩ :: tokens, token.Covers column before [c] := by
      rintro more rfl hrest
      rcases h.gaps more c after hrest with hc | ⟨token, htoken, hcovers⟩
      · exact .inl hc
      · exact .inr ⟨token, List.mem_cons_of_mem _ htoken, hcovers.append⟩
    rcases List.append_eq_append_iff.mp htext with ⟨more, hbefore, hrest⟩ | ⟨inner, hinner, hrest⟩
    · exact hbehind more hbefore hrest
    · cases inner with
      | nil => exact hbehind [] (by simpa using hinner.symm) hrest.symm
      | cons d inner =>
          obtain ⟨rfl, -⟩ := List.cons_eq_cons.mp hrest
          refine .inr ⟨_, List.mem_cons_self, ?_⟩
          rw [hinner, ← List.singleton_append, ← List.append_assoc]
          exact Token.covers_self column before [c] inner
  whole := by
    intro front piece back hfront hpiece htext
    obtain ⟨items, rfl, hitems⟩ := hlexeme.exists_items
    have hall : ∀ item ∈ front ++ [piece], IsItem item := by
      intro item hitem
      rcases List.mem_append.mp hitem with hitem | hitem
      · exact hfront item hitem
      · exact List.mem_singleton.mp hitem ▸ .piece hpiece
    have hflatten : (front ++ [piece]).flatten = front.flatten ++ piece := by simp
    rw [← hflatten] at htext
    -- The piece is one of the items of the lexeme, or it stands behind the lexeme.
    have hcovered : ∀ more, items = front ++ [piece] ++ more →
        ∃ token ∈ ⟨String.ofList items.flatten, column⟩ :: tokens,
          token.Covers column front.flatten piece := by
      rintro more rfl
      refine ⟨_, List.mem_cons_self, ?_⟩
      rw [List.flatten_append, hflatten]
      exact Token.covers_self column front.flatten piece more.flatten
    rcases items_of_append_eq hitems hall htext with ⟨more, hitems, hrest⟩ | ⟨more, rfl, -⟩
    · rcases List.eq_nil_or_concat more with rfl | ⟨others, last, rfl⟩
      · exact hcovered [] (by rw [hitems, List.append_nil, List.append_nil])
      · rw [List.concat_eq_append, ← List.append_assoc] at hitems
        obtain ⟨rfl, hlast⟩ := List.append_inj' hitems rfl
        obtain rfl := List.singleton_inj.mp hlast
        obtain ⟨token, htoken, hcovers⟩ := h.whole others piece back
          (fun item hitem => hfront item (List.mem_append_right _ hitem)) hpiece
          (by simpa using hrest)
        rw [List.flatten_append]
        exact ⟨token, List.mem_cons_of_mem _ htoken, hcovers.append⟩
    · exact hcovered more rfl

end LaidOut

/-- **The layout of tokens.**  The tokens of a text are slices of it, in order, with
separators between them. -/
theorem Lexes.laidOut {tokens : List Token} (h : Lexes rest column text tokens) :
    LaidOut column text tokens := by
  induction h with
  | nil column => exact .nil column
  | @separator column c text tokens hc _ ih =>
      have hwidth : utf8Len [c] = c.utf8Size := Nat.zero_add _
      exact .separator hc (hwidth ▸ ih)
  | lexeme hlexeme _ _ ih => exact .lexeme hlexeme ih

/-! ## Lines -/

/-- A line that is accepted is read by the grammar. -/
theorem exists_lexes_of_tokenize {line : List Char} {tokens : List Token}
    (h : tokenize line = .ok tokens) :
    ∃ text comment, line = text ++ comment ∧ IsComment comment ∧
      Lexes comment 1 text tokens := by
  obtain ⟨text, rest, before, rfl, hlexes, hcomment | ⟨hunclosed, behind, rfl⟩⟩ :=
    exists_lexes 1 line
  · obtain rfl := Except.ok.inj ((hlexes.tokenize_comment hcomment).symm.trans h)
    exact ⟨text, rest, rfl, hcomment, hlexes⟩
  · cases (hlexes.tokenize_unclosed hunclosed).symm.trans h

/-- A line that is refused holds a quote that never closes. -/
theorem exists_unclosed_of_tokenize {line : List Char} {fault : LineFault}
    (h : tokenize line = .error fault) :
    ∃ text rest before, line = text ++ quote :: rest ∧
      Lexes (quote :: rest) 1 text before ∧ NoPiece (quote :: rest) ∧
      fault = ⟨1 + utf8Len text, .unterminatedLiteral⟩ := by
  obtain ⟨text, rest, before, rfl, hlexes, hcomment | ⟨hunclosed, behind, rfl⟩⟩ :=
    exists_lexes 1 line
  · cases (hlexes.tokenize_comment hcomment).symm.trans h
  · obtain rfl := Except.error.inj ((hlexes.tokenize_unclosed hunclosed).symm.trans h)
    exact ⟨text, behind, before, rfl, hlexes, hunclosed, rfl⟩

/-- A character ends a scan, or what it adds to the tokens does not depend on what stands
behind it. -/
private theorem scan_cons (column : Nat) (part : Option PartialToken) (quoting : Quoting)
    (c : Char) :
    (∃ tokens, ∀ rest, scan column part quoting (c :: rest) = .ok tokens) ∨
      ∃ tokens next nextPart nextQuoting, ∀ rest, scan column part quoting (c :: rest) =
        (tokens ++ ·) <$> scan next nextPart nextQuoting rest := by
  cases quoting with
  | outside =>
      by_cases hcomment : c = '#'
      · exact .inl ⟨_, fun rest => scan_comment hcomment part⟩
      refine .inr ?_
      by_cases hseparator : isSeparator c = true
      · exact ⟨_, _, _, _, fun rest => scan_separator hseparator part⟩
      by_cases hcolon : c = ':'
      · subst hcolon
        exact ⟨finish part ++ [⟨":", column⟩], column + 1, none, .outside, fun rest => by
          simp [scan_colon]⟩
      refine ⟨[], column + c.utf8Size, PartialToken.extend part column c,
        if c = quote then .opened column else .outside, fun rest => ?_⟩
      rw [scan, if_neg hcomment, if_neg hseparator, if_neg hcolon]
      by_cases hquote : c = quote
      · rw [if_pos hquote, if_pos hquote]
        exact (id_map _).symm
      · rw [if_neg hquote, if_neg hquote]
        exact (id_map _).symm
  | opened start =>
      exact .inr ⟨[], _, _, _, fun rest => by rw [scan]; exact (id_map _).symm⟩
  | inside start =>
      exact .inr ⟨[], _, _, _, fun rest => by rw [scan]; exact (id_map _).symm⟩

/-- A comment behind a text that is accepted changes nothing. -/
theorem scan_append_comment {part : Option PartialToken} {quoting : Quoting}
    {tokens : List Token} (h : scan column part quoting text = .ok tokens)
    (more : List Char) : scan column part quoting (text ++ '#' :: more) = .ok tokens := by
  induction text generalizing column part quoting tokens with
  | nil =>
      cases quoting with
      | outside => exact (scan_comment rfl part).trans h
      | opened start | inside start => cases h
  | cons c text ih =>
      rw [List.cons_append]
      rcases scan_cons column part quoting c with ⟨done, hscan⟩ | ⟨done, _, _, _, hscan⟩
      · rw [hscan] at h ⊢
        exact h
      · rw [hscan, map_eq_ok] at h ⊢
        obtain ⟨behind, hbehind, rfl⟩ := h
        exact ⟨behind, ih hbehind, rfl⟩

/-- A carriage return at the end of a text changes nothing, be the text accepted or not. -/
theorem scan_append_return (column : Nat) (part : Option PartialToken) (quoting : Quoting)
    (text : List Char) :
    scan column part quoting (text ++ ['\r']) = scan column part quoting text := by
  induction text generalizing column part quoting with
  | nil =>
      cases quoting with
      | outside =>
          rw [List.nil_append, scan_separator (by decide)]
          exact congrArg Except.ok (List.append_nil _)
      | opened start | inside start => rfl
  | cons c text ih =>
      rw [List.cons_append]
      rcases scan_cons column part quoting c with ⟨done, hscan⟩ | ⟨done, _, _, _, hscan⟩
      · rw [hscan, hscan]
      · rw [hscan, hscan, ih]

/-- **The lexical grammar.**  A line is accepted exactly if it consists of separators and
maximal lexemes, up to the end or to a comment, and its tokens are these lexemes with
their columns: slices of the line, in order, with nothing but separators between them,
and with every piece whole.  A comment more behind the line changes nothing.  A line is
refused exactly if a quote is reached in it that never closes, and that quote is blamed. -/
theorem tokenize_lexes (line : List Char) :
    (∀ tokens, tokenize line = .ok tokens ↔
      ∃ text comment, line = text ++ comment ∧ IsComment comment ∧
        Lexes comment 1 text tokens) ∧
    (∀ fault, tokenize line = .error fault ↔
      ∃ text rest before, line = text ++ quote :: rest ∧
        Lexes (quote :: rest) 1 text before ∧ NoPiece (quote :: rest) ∧
        fault = ⟨1 + utf8Len text, .unterminatedLiteral⟩) ∧
    ∀ text comment tokens, line = text ++ comment → IsComment comment →
      Lexes comment 1 text tokens →
      LaidOut 1 text tokens ∧ ∀ more, tokenize (line ++ '#' :: more) = .ok tokens := by
  refine ⟨fun tokens => ⟨exists_lexes_of_tokenize, ?_⟩,
    fun fault => ⟨exists_unclosed_of_tokenize, ?_⟩, ?_⟩
  · rintro ⟨text, comment, rfl, hcomment, hlexes⟩
    exact hlexes.tokenize_comment hcomment
  · rintro ⟨text, rest, before, rfl, hlexes, hunclosed, rfl⟩
    exact hlexes.tokenize_unclosed hunclosed
  · rintro text comment tokens rfl hcomment hlexes
    exact ⟨hlexes.laidOut, scan_append_comment (hlexes.tokenize_comment hcomment)⟩

/-- A quote in the midst of a token, with a separator and the sign of a comment in it. -/
example : tokenize "x:mov' #',c # d".toList =
    .ok [⟨"x", 1⟩, ⟨":", 2⟩, ⟨"mov' #'", 3⟩, ⟨"c", 11⟩] := by
  rfl

end ByteMachine
