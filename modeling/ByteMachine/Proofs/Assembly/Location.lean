import ByteMachine.Proofs.Assembly.Scan
import ByteMachine.Proofs.Assembly.Statement

/-!
# Where the fault of a line is

A line that is not encoded is blamed at a column, and at this column stands what is at
fault: a quote that never closes, or else the token to which the fault belongs.  Only
operands, mnemonics, labels and colons are ever blamed, each for faults of its own.

* `StandsAt` — a text stands at a column of a line;
* `Culprit` — the token to which a fault belongs;
* `FaultAt` — a fault of a line at a column;
* `culprit_of_encodeTokenLine` — faults of tokens;
* `faultAt_of_encodeLineAt` — faults of lines.
-/

namespace ByteMachine

open String (utf8Len)

/-! ## Culprits -/

/-- A text stands at a column of a line: so many bytes, and one less, are in front of it. -/
def StandsAt (line : List Char) (column : Nat) (text : String) : Prop :=
  ∃ before after, line = before ++ text.toList ++ after ∧ column = 1 + utf8Len before

/-- The tokens of a line have an instruction with the given mnemonic and operands. -/
def HasInstruction (tokens : List Token) (mnemonic : Token) (operands : List Token) : Prop :=
  (Statement.ofTokens tokens).instruction = mnemonic :: operands

/-- A fault belongs to a token of a line. -/
inductive Culprit (tokens : List Token) (token : Token) : Fault → Prop
  /-- An operand that is a decimal number. -/
  | immediate {mnemonic : Token} {operands : List Token}
      (hinstruction : HasInstruction tokens mnemonic operands) (hoperand : token ∈ operands) :
      Culprit tokens token (.immediateOutOfRange token.text)
  /-- An operand in quotes. -/
  | charLiteral {mnemonic : Token} {operands : List Token}
      (hinstruction : HasInstruction tokens mnemonic operands) (hoperand : token ∈ operands) :
      Culprit tokens token (.invalidCharLiteral token.text)
  /-- An operand of another form. -/
  | operand {mnemonic : Token} {operands : List Token}
      (hinstruction : HasInstruction tokens mnemonic operands) (hoperand : token ∈ operands) :
      Culprit tokens token (.invalidOperand token.text)
  /-- A mnemonic that does not go with the kinds of its operands. -/
  | mnemonic {operands : List Token} (hinstruction : HasInstruction tokens token operands) :
      Culprit tokens token (.unknownOperation
        (token.text ++ Shape.codeOfKinds (operands.map fun operand => operandKind operand.text)))
  /-- A colon at the start of a line. -/
  | emptyLabel {rest : List Token} (htokens : tokens = token :: rest)
      (hcolon : token.text = ":") : Culprit tokens token .emptyLabel
  /-- A token alone in front of a colon. -/
  | label {colon : Token} {rest : List Token} (htokens : tokens = token :: colon :: rest)
      (hcolon : colon.text = ":") : Culprit tokens token (.invalidLabel token.text)
  /-- The second of several tokens in front of a colon. -/
  | labels {first colon : Token} {more rest : List Token}
      (htokens : tokens = first :: token :: more ++ colon :: rest) (hcolon : colon.text = ":")
      (hbefore : ∀ other ∈ first :: token :: more, other.text ≠ ":") :
      Culprit tokens token
        (.invalidLabel (" ".intercalate ((first :: token :: more).map Token.text)))

/-- A fault of a line at a column. -/
inductive FaultAt (line : List Char) (column : Nat) : Fault → Prop
  /-- A quote that never closes. -/
  | unterminated (hquote : StandsAt line column (String.singleton quote)) :
      FaultAt line column .unterminatedLiteral
  /-- A token that is at fault. -/
  | token {tokens : List Token} {token : Token} {cause : Fault}
      (htokens : tokenize line = .ok tokens) (htoken : token ∈ tokens)
      (hcolumn : token.column = column) (hstands : StandsAt line column token.text)
      (hculprit : Culprit tokens token cause) : FaultAt line column cause

/-! ## Faults of tokens -/

/-- A fault that is blamed on a token has the column of the token. -/
theorem Token.blame_eq_error {α : Type} {token : Token} {result : Except Fault α}
    {fault : LineFault} :
    token.blame result = .error fault ↔
      fault.column = token.column ∧ result = .error fault.cause := by
  rw [Token.blame, mapError_eq_error]
  constructor
  · rintro ⟨cause, hcause, rfl⟩
    exact ⟨rfl, hcause⟩
  · rintro ⟨hcolumn, hcause⟩
    exact ⟨fault.cause, hcause, by rw [← hcolumn]⟩

/-- What an operand is blamed for where labels are allowed. -/
theorem encodeOperand_eq_error {text : String} {cause : Fault}
    (h : encodeOperand true text = .error cause) :
    cause = .immediateOutOfRange text ∨ cause = .invalidCharLiteral text ∨
      cause = .invalidOperand text := by
  unfold encodeOperand at h
  split at h
  case isTrue =>
    rcases bind_eq_error.mp h with h | ⟨byte, -, h⟩
    · unfold encodeImmediate at h
      dsimp only at h
      split at h
      case isTrue => cases h
      case isFalse => exact .inl (Except.error.inj h).symm
    · cases h
  case isFalse =>
    dsimp only at h
    split at h
    case isTrue =>
      rcases bind_eq_error.mp h with h | ⟨byte, -, h⟩
      · unfold encodeCharLiteral at h
        split at h
        case h_1 =>
          split at h
          case isTrue => cases h
          case isFalse => exact .inr (.inl (Except.error.inj h).symm)
        case h_2 => exact .inr (.inl (Except.error.inj h).symm)
      · cases h
    case isFalse =>
      split at h
      case h_1 => cases h
      case h_2 =>
        split at h
        case isTrue => exact .inr (.inr (Except.error.inj h).symm)
        case isFalse => cases h

/-- Operands that are names of symbols are encoded. -/
private theorem exists_ofName_of_kind {token : Token}
    (h : operandKind token.text = .symbolic) :
    ∃ s, token.blame (Symbol.ofName token.text) = .ok s := by
  unfold operandKind at h
  split at h
  case isTrue hname =>
    obtain ⟨s, hs⟩ := Option.isSome_iff_exists.mp hname
    exact ⟨s, mapError_eq_ok.mpr (Symbol.ofName_eq_ok.mpr hs)⟩
  case isFalse => cases h

/-- Operands that are not encoded are blamed one by one. -/
private theorem exists_of_encodeOperands {shape : Shape} {operands : List Token}
    {fault : LineFault}
    (hkinds : operands.map (fun token => operandKind token.text) = shape.kinds)
    (h : encodeOperands true shape operands = .error fault) :
    ∃ token ∈ operands, token.blame (encodeOperand true token.text) = .error fault := by
  by_cases hrr : shape = .rr
  · -- Two operands that share a byte are names already.
    subst hrr
    obtain ⟨x, y, rfl⟩ := exists_pair hkinds
    obtain ⟨hx, hy⟩ : operandKind x.text = .symbolic ∧ operandKind y.text = .symbolic := by
      simpa [Shape.kinds] using hkinds
    obtain ⟨first, hfirst⟩ := exists_ofName_of_kind hx
    obtain ⟨second, hsecond⟩ := exists_ofName_of_kind hy
    rw [encodeOperands, hfirst, hsecond] at h
    cases h
  · rw [encodeOperands_of_ne hrr] at h
    exact exists_of_mapM_eq_error h

/-- **Faults of instructions.**  An instruction is blamed at its mnemonic or at one of its
operands. -/
theorem encodeTokens_eq_error {instruction : List Token} {fault : LineFault}
    (h : encodeTokens true instruction = .error fault) :
    ∃ mnemonic operands, instruction = mnemonic :: operands ∧
      (fault = ⟨mnemonic.column, .unknownOperation (mnemonic.text ++
          Shape.codeOfKinds (operands.map fun operand => operandKind operand.text))⟩ ∨
        ∃ token ∈ operands, token.blame (encodeOperand true token.text) = .error fault) := by
  cases instruction with
  | nil => cases h
  | cons mnemonic operands =>
      refine ⟨mnemonic, operands, rfl, ?_⟩
      unfold encodeTokens at h
      dsimp only at h
      split at h
      case h_1 shape opcode hshape hopcode =>
        rcases bind_eq_error.mp h with h | ⟨encoded, -, h⟩
        · exact .inr (exists_of_encodeOperands (Shape.ofCode?_codeOfKinds.mp hshape) h)
        · cases h
      case h_2 => exact .inl (Except.error.inj h).symm

/-- A fault of the instruction of a line belongs to a token of the line. -/
private theorem culprit_of_instruction {tokens instruction : List Token} {fault : LineFault}
    (hinstruction : (Statement.ofTokens tokens).instruction = instruction)
    (hmem : ∀ token ∈ instruction, token ∈ tokens)
    (h : encodeTokens true instruction = .error fault) :
    ∃ token ∈ tokens, fault.column = token.column ∧ Culprit tokens token fault.cause := by
  obtain ⟨mnemonic, operands, rfl, rfl | ⟨token, htoken, hfault⟩⟩ := encodeTokens_eq_error h
  · exact ⟨mnemonic, hmem mnemonic List.mem_cons_self, rfl, .mnemonic hinstruction⟩
  · obtain ⟨hcolumn, hcause⟩ := Token.blame_eq_error.mp hfault
    refine ⟨token, hmem token (List.mem_cons_of_mem _ htoken), hcolumn, ?_⟩
    rcases encodeOperand_eq_error hcause with hcause | hcause | hcause <;> rw [hcause]
    · exact .immediate hinstruction htoken
    · exact .charLiteral hinstruction htoken
    · exact .operand hinstruction htoken

/-- A fault of the label of a line belongs to a token in front of the colon or to the
colon. -/
private theorem culprit_of_labelName {before : List Token} {colon : Token}
    {fault : LineFault} (rest : List Token) (hbefore : ∀ other ∈ before, other.text ≠ ":")
    (hcolon : colon.text = ":") (h : labelName colon before = .error fault) :
    ∃ token ∈ before ++ colon :: rest, fault.column = token.column ∧
      Culprit (before ++ colon :: rest) token fault.cause := by
  unfold labelName at h
  split at h
  case h_1 =>
    obtain rfl := Except.error.inj h
    exact ⟨colon, List.mem_cons_self, rfl, .emptyLabel rfl hcolon⟩
  case h_2 label =>
    split at h
    case isTrue => cases h
    case isFalse =>
      obtain rfl := Except.error.inj h
      exact ⟨label, List.mem_cons_self, rfl, .label rfl hcolon⟩
  case h_3 first second more =>
    obtain rfl := Except.error.inj h
    exact ⟨second, by simp, rfl, .labels rfl hcolon hbefore⟩

/-- **Faults of tokens.**  The fault of a line of tokens has the column of a token to which
it belongs. -/
theorem culprit_of_encodeTokenLine {tokens : List Token} {fault : LineFault}
    (h : encodeTokenLine tokens = .error fault) :
    ∃ token ∈ tokens, fault.column = token.column ∧ Culprit tokens token fault.cause := by
  unfold encodeTokenLine at h
  split at h
  case h_1 hnoColon =>
    rw [List.dropWhile_eq_nil_iff] at hnoColon
    refine culprit_of_instruction ?_ (fun token htoken => htoken) h
    rw [Statement.ofTokens_of_no_colon fun token htoken => bne_iff_ne.mp (hnoColon token htoken)]
  case h_2 colon rest hcut =>
    obtain ⟨htokens, hcolon⟩ := eq_append_of_dropWhile hcut
    rcases bind_eq_error.mp h with hname | ⟨name, hname, h⟩
    · have hbefore : ∀ other ∈ tokens.takeWhile (fun token => token.text != ":"),
          other.text ≠ ":" := by
        intro other hother
        have hplain := List.mem_takeWhile_imp hother
        exact bne_iff_ne.mp hplain
      have hculprit := culprit_of_labelName rest hbefore hcolon hname
      rwa [← htokens] at hculprit
    · obtain ⟨label, hlabel, -⟩ := eq_singleton_of_labelName hname
      rw [hlabel, List.singleton_append] at htokens
      rcases bind_eq_error.mp h with hrest | ⟨encoded, -, h⟩
      · refine culprit_of_instruction ?_ (fun token htoken => ?_) hrest
        · rw [htokens, Statement.ofTokens, if_pos hcolon]
        · rw [htokens]
          exact List.mem_cons_of_mem _ (List.mem_cons_of_mem _ htoken)
      · cases h

/-! ## Faults of lines -/

/-- What stands at a column stands inside the line. -/
theorem StandsAt.bounds {line : List Char} {column : Nat} {text : String}
    (h : StandsAt line column text) (hne : text.toList ≠ []) :
    1 ≤ column ∧ column ≤ utf8Len line := by
  obtain ⟨before, after, rfl, rfl⟩ := h
  obtain ⟨c, rest, htext⟩ := List.exists_cons_of_ne_nil hne
  have hpos := c.utf8Size_pos
  rw [htext, String.utf8Len_append, String.utf8Len_append, String.utf8Len_cons]
  omega

/-- A token stands at its column. -/
theorem standsAt_of_tokenize {line : List Char} {tokens : List Token}
    (h : tokenize line = .ok tokens) {token : Token} (htoken : token ∈ tokens) :
    StandsAt line token.column token.text ∧ token.text.toList ≠ [] := by
  obtain ⟨text, comment, rfl, -, hlexes⟩ := exists_lexes_of_tokenize h
  obtain ⟨before, after, rfl, hcolumn⟩ := hlexes.laidOut.slices token htoken
  exact ⟨⟨before, after ++ comment, by simp, hcolumn⟩, hlexes.laidOut.nonempty token htoken⟩

/-- **Faults of lines.**  A line that is not encoded has a fault at its column, which is a
column of the line. -/
theorem faultAt_of_encodeLineAt {line : List Char} {fault : LineFault}
    (h : encodeLineAt line = .error fault) :
    1 ≤ fault.column ∧ fault.column ≤ utf8Len line ∧ FaultAt line fault.column fault.cause := by
  rcases bind_eq_error.mp h with hscan | ⟨tokens, htokens, hencode⟩
  · obtain ⟨text, rest, before, rfl, -, -, rfl⟩ := exists_unclosed_of_tokenize hscan
    have hstands : StandsAt (text ++ quote :: rest) (1 + utf8Len text)
        (String.singleton quote) := ⟨text, rest, by simp, rfl⟩
    obtain ⟨hfirst, hlast⟩ := hstands.bounds (by decide)
    exact ⟨hfirst, hlast, .unterminated hstands⟩
  · obtain ⟨token, htoken, hcolumn, hculprit⟩ := culprit_of_encodeTokenLine hencode
    obtain ⟨hstands, hne⟩ := standsAt_of_tokenize htokens htoken
    rw [← hcolumn] at hstands
    obtain ⟨hfirst, hlast⟩ := hstands.bounds hne
    exact ⟨hfirst, hlast, .token htokens htoken hcolumn.symm hstands hculprit⟩

end ByteMachine
