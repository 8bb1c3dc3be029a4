import ByteMachine.Proofs.Assembly.Form
import ByteMachine.Proofs.Assembly.Scan

/-!
# Names of labels

The name of a label stands in two places: in front of a colon, where the label is defined, and
among the operands of an instruction, which refer to the label.  The two are checked by
different code.  In front of a colon a name must be an identifier, and no symbol; an operand is
a reference if it passes none of the tests for numbers, quoted literals and symbols, and is an
identifier.

An identifier is neither a number nor a quoted literal, so both ask for the same.  What is in
front of a colon is a token by itself, since no token goes on with a colon; so any token can be
tried as a label by a colon behind it.

* `IsToken`, `isToken_iff` — the tokens of lines are the lexemes;
* `encodeOperand_eq_reference` — the operands that are references;
* `encodeLine_colon` — a token with a colon behind it;
* `mem_encodeTokens`, `mem_encodeLine` — the elements of instructions and of lines;
* `isDefinable_iff`, `isReferable_iff` — the names that lines define and refer to;
* `operand_forms` — operands and labels.
-/

namespace ByteMachine

open String (utf8Len)

/-! ## Tokens -/

/-- A text that is a token of some line. -/
def IsToken (text : String) : Prop :=
  ∃ line tokens token, tokenize line = .ok tokens ∧ token ∈ tokens ∧ token.text = text

/-- A lexeme is the only token of its line. -/
theorem tokenize_lexeme {text : String} (h : IsLexeme text.toList) :
    tokenize text.toList = .ok [⟨text, 1⟩] := by
  have hmaximal : IsMaximal text.toList ([] ++ []) := by
    intro more hmore hne
    exact absurd (List.prefix_nil.mp hmore) hne
  have hlexes : Lexes [] 1 (text.toList ++ []) _ := .lexeme h hmaximal (.nil _)
  rw [String.ofList_toList, List.append_nil] at hlexes
  have htokens := hlexes.tokenize_comment trivial
  rwa [List.append_nil] at htokens

/-- **Tokens.**  The tokens of lines are the lexemes. -/
theorem isToken_iff {text : String} : IsToken text ↔ IsLexeme text.toList := by
  constructor
  · intro h
    obtain ⟨line, tokens, token, htokens, htoken, rfl⟩ := h
    obtain ⟨_, _, -, -, hlexes⟩ := exists_lexes_of_tokenize htokens
    exact hlexes.isLexeme htoken
  · intro h
    exact ⟨text.toList, _, _, tokenize_lexeme h, List.mem_cons_self, rfl⟩

/-- A lexeme that is no colon ends where a colon follows. -/
theorem tokenize_lexeme_colon {text : String} (h : IsLexeme text.toList) (hne : text ≠ ":") :
    ∃ column, tokenize (text ++ ":").toList = .ok [⟨text, 1⟩, ⟨":", column⟩] := by
  have hmaximal : IsMaximal text.toList ([':'] ++ [] ++ []) := by
    generalize htext : text.toList = chars at h
    cases h with
    | colon => exact absurd (String.toList_inj.mp htext) hne
    | pieces hpieces hall => exact (isMaximal_pieces hpieces hall).mpr (noPiece_colon [])
  have hlexes : Lexes [] 1 (text.toList ++ ([':'] ++ [])) _ :=
    .lexeme h hmaximal (.lexeme .colon (isMaximal_colon _) (.nil _))
  have htokens := hlexes.tokenize_comment trivial
  rw [String.ofList_toList, List.append_nil, List.append_nil] at htokens
  refine ⟨1 + utf8Len text.toList, ?_⟩
  rw [String.toList_append]
  exact htokens

/-! ## One name, tested twice -/

/-- A label is accepted in front of a colon exactly if it names a label as an operand. -/
theorem labelName_eq_ok {colon label : Token} {name : String} :
    labelName colon [label] = .ok name ↔ NamesLabel label.text ∧ name = label.text := by
  have htest : (isIdentifier label.text.toList && !Symbol.isName label.text) = true ↔
      NamesLabel label.text := by
    rw [Bool.and_eq_true, Bool.not_eq_true', Symbol.isName, Option.isSome_eq_false_iff,
      Option.isNone_iff_eq_none]
    exact ⟨fun h => ⟨h.1, h.2⟩, fun h => ⟨h.identifier, h.noSymbol⟩⟩
  rw [labelName]
  split
  case isTrue h =>
    rw [Except.ok.injEq, eq_comm]
    exact (and_iff_right (htest.mp h)).symm
  case isFalse h =>
    constructor
    · intro herror
      cases herror
    · intro hlabel
      exact absurd (htest.mpr hlabel.1) h

/-- **References.**  An operand is a reference exactly if labels are allowed and it names
one. -/
theorem encodeOperand_eq_reference {allowLabels : Bool} {text name : String} :
    encodeOperand allowLabels text = .ok (.reference name) ↔
      allowLabels = true ∧ NamesLabel text ∧ name = text := by
  rw [encodeOperand_eq_iff]
  constructor
  · intro h
    cases h with
    | reference hlabel hallowed => exact ⟨hallowed, namesLabel_iff.mpr hlabel, rfl⟩
  · intro h
    obtain ⟨hallowed, hlabel, rfl⟩ := h
    exact .reference (namesLabel_iff.mp hlabel) hallowed

/-- A label with a colon behind it is accepted exactly if it names a label as an operand. -/
theorem encodeTokenLine_label {label colon : Token} (hlabel : label.text ≠ ":")
    (hcolon : colon.text = ":") {elements : List Element} :
    encodeTokenLine [label, colon] = .ok elements ↔
      NamesLabel label.text ∧ elements = [.label label.text] := by
  have hplain : (label.text != ":") = true := bne_iff_ne.mpr hlabel
  have hstop : (colon.text != ":") = false := by rw [hcolon]; decide
  have hbehind : ([label, colon].dropWhile fun token => token.text != ":") = [colon] := by
    simp only [List.dropWhile_cons, hplain, hstop, if_true, Bool.false_eq_true, if_false]
  have hfront : ([label, colon].takeWhile fun token => token.text != ":") = [label] := by
    simp only [List.takeWhile_cons, hplain, hstop, if_true, Bool.false_eq_true, if_false]
  rw [encodeTokenLine, hbehind]
  dsimp only
  rw [hfront]
  constructor
  · intro h
    obtain ⟨name, hname, h⟩ := bind_eq_ok.mp h
    obtain ⟨hnames, rfl⟩ := labelName_eq_ok.mp hname
    obtain ⟨encoded, hencoded, h⟩ := bind_eq_ok.mp h
    obtain rfl := Except.ok.inj hencoded
    exact ⟨hnames, (pure_eq_ok.mp h).symm⟩
  · intro h
    obtain ⟨hnames, rfl⟩ := h
    rw [labelName_eq_ok.mpr ⟨hnames, rfl⟩]
    rfl

/-- **Definitions and references.**  A token with a colon behind it is accepted, and is then
the definition of a label, exactly if the token is a reference as an operand. -/
theorem encodeLine_colon {text : String} (h : IsToken text) {elements : List Element} :
    encodeLine (text ++ ":") = .ok elements ↔
      elements = [.label text] ∧ encodeOperand true text = .ok (.reference text) := by
  by_cases hcolon : text = ":"
  · -- two colons define nothing, and a colon is no operand
    subst hcolon
    have hline : encodeLine (":" ++ ":") = .error .emptyLabel := by decide +kernel
    rw [hline, (encodeOperand_colon true).1]
    constructor
    · intro hok
      cases hok
    · intro hok
      cases hok.2
  · obtain ⟨column, htokens⟩ := tokenize_lexeme_colon (isToken_iff.mp h) hcolon
    rw [encodeLine_of_tokenize htokens, mapError_eq_ok, encodeTokenLine_label hcolon rfl,
      encodeOperand_eq_reference]
    constructor
    · intro hboth
      exact ⟨hboth.2, rfl, hboth.1, rfl⟩
    · intro hboth
      exact ⟨hboth.2.2.1, hboth.1⟩

/-! ## Names in lines -/

/-- An element of an instruction: a byte, or a reference with the name of a label. -/
inductive IsInstructionElement : Element → Prop
  | byte (value : UInt8) : IsInstructionElement (.byte value)
  | reference {name : String} (hname : NamesLabel name) : IsInstructionElement (.reference name)

/-- An operand is encoded to such an element. -/
theorem isInstructionElement_of_encodeOperand {allowLabels : Bool} {text : String}
    {element : Element} (h : encodeOperand allowLabels text = .ok element) :
    IsInstructionElement element := by
  cases encodeOperand_eq_iff.mp h with
  | number | character | symbol => exact .byte _
  | reference hlabel hallowed => exact .reference (namesLabel_iff.mpr hlabel)

/-- **Elements of instructions.**  An instruction defines no labels, and its references have
names of labels. -/
theorem mem_encodeTokens {allowLabels : Bool} {tokens : List Token} {elements : List Element}
    (h : encodeTokens allowLabels tokens = .ok elements) {element : Element}
    (helement : element ∈ elements) : IsInstructionElement element := by
  cases tokens with
  | nil =>
      obtain rfl := Except.ok.inj h
      cases helement
  | cons mnemonic operands =>
      unfold encodeTokens at h
      dsimp only at h
      split at h
      case h_2 => cases h
      case h_1 shape opcode hshape hopcode =>
        obtain ⟨encoded, hencoded, h⟩ := bind_eq_ok.mp h
        obtain rfl := pure_eq_ok.mp h
        rcases List.mem_cons.mp helement with rfl | helement
        · exact .byte _
        by_cases hrr : shape = .rr
        · -- two symbols share a byte
          subst hrr
          obtain ⟨x, y, rfl⟩ := exists_pair (Shape.ofCode?_codeOfKinds.mp hshape)
          obtain ⟨first, -, hencoded⟩ := bind_eq_ok.mp hencoded
          obtain ⟨second, -, hencoded⟩ := bind_eq_ok.mp hencoded
          obtain rfl := pure_eq_ok.mp hencoded
          exact List.mem_singleton.mp helement ▸ .byte _
        · rw [encodeOperands_of_ne hrr] at hencoded
          obtain ⟨token, -, htoken⟩ := exists_of_mem_mapM hencoded helement
          exact isInstructionElement_of_encodeOperand (mapError_eq_ok.mp htoken)

/-- **Elements of lines.**  In front of its instruction a line can define a label, which has the
name of one. -/
theorem mem_encodeLine {line : String} {elements : List Element}
    (h : encodeLine line = .ok elements) {element : Element} (helement : element ∈ elements) :
    IsInstructionElement element ∨ ∃ name, NamesLabel name ∧ element = .label name := by
  obtain ⟨tokens, htokens, h⟩ := bind_eq_ok.mp (mapError_eq_ok.mp h)
  unfold encodeTokenLine at h
  split at h
  case h_1 => exact .inl (mem_encodeTokens h helement)
  case h_2 colon rest hcolon =>
    obtain ⟨name, hname, h⟩ := bind_eq_ok.mp h
    obtain ⟨encoded, hencoded, h⟩ := bind_eq_ok.mp h
    obtain rfl := pure_eq_ok.mp h
    rcases List.mem_cons.mp helement with rfl | helement
    · obtain ⟨label, hbefore, -⟩ := eq_singleton_of_labelName hname
      rw [hbefore] at hname
      obtain ⟨hnames, rfl⟩ := labelName_eq_ok.mp hname
      exact .inr ⟨_, hnames, rfl⟩
    · exact .inl (mem_encodeTokens hencoded helement)

/-- A name that some line defines as a label. -/
def IsDefinable (name : String) : Prop :=
  ∃ line elements, encodeLine line = .ok elements ∧ .label name ∈ elements

/-- A name that some line refers to. -/
def IsReferable (name : String) : Prop :=
  ∃ line elements, encodeLine line = .ok elements ∧ .reference name ∈ elements

/-- The name of a label is a word. -/
theorem NamesLabel.isWord {name : String} (h : NamesLabel name) : IsWord name.toList := by
  have hstart : specialChars.any isIdentifierStart = false := by decide
  have hpart : specialChars.any (fun c => isIdentifierStart c || c.isDigit) = false := by decide
  have hidentifier := h.identifier
  generalize name.toList = text at hidentifier
  cases text with
  | nil => cases hidentifier
  | cons first rest =>
      rw [isIdentifier, Bool.and_eq_true, List.all_eq_true] at hidentifier
      refine ⟨List.cons_ne_nil _ _, fun c hc => ?_⟩
      rcases List.mem_cons.mp hc with rfl | hc
      · exact isPlain_of_test hstart hidentifier.1
      · exact isPlain_of_test hpart (hidentifier.2 c hc)

/-- **Definable names.**  The names that lines define are those of labels. -/
theorem isDefinable_iff {name : String} : IsDefinable name ↔ NamesLabel name := by
  constructor
  · intro h
    obtain ⟨line, elements, hline, hlabel⟩ := h
    rcases mem_encodeLine hline hlabel with hinstruction | ⟨other, hother, heq⟩
    · cases hinstruction
    · obtain rfl := Element.label.inj heq
      exact hother
  · intro h
    have htoken : IsToken name := isToken_iff.mpr h.isWord.isLexeme
    have hreference := encodeOperand_eq_reference.mpr ⟨rfl, h, rfl⟩
    exact ⟨_, _, (encodeLine_colon htoken).mpr ⟨rfl, hreference⟩, List.mem_cons_self⟩

theorem NamesLabel.ne_colon {name : String} (h : NamesLabel name) : name ≠ ":" := by
  intro hcolon
  subst hcolon
  exact absurd h.identifier (by decide)

/-- A jump to a label is encoded to a byte and a reference. -/
theorem encodeTokens_jump {mnemonic label : Token} (hmnemonic : mnemonic.text = "jmp")
    (h : NamesLabel label.text) :
    ∃ byte, encodeTokens true [mnemonic, label] = .ok [.byte byte, .reference label.text] := by
  have hshape : Shape.ofCode? (Shape.codeOfKinds [.immediate]) = some .i := by decide
  obtain ⟨opcode, hopcode⟩ : ∃ opcode,
      Opcode.ofName? ("jmp" ++ Shape.codeOfKinds [.immediate]) = some opcode := by
    rw [← Option.isSome_iff_exists]
    decide +kernel
  have hencode := encodeOperand_eq_reference.mpr ⟨rfl, h, rfl⟩
  refine ⟨opcode.byte, ?_⟩
  simp only [encodeTokens, List.map_cons, List.map_nil, operandKind_of_none h.noSymbol, hmnemonic,
    hshape, hopcode]
  rw [encodeOperands_of_ne (by decide), List.mapM_cons, hencode]
  rfl

/-- The line of a jump to a label is accepted. -/
theorem encodeLine_jump {name : String} (h : NamesLabel name) :
    ∃ byte, encodeLine ("jmp " ++ name) = .ok [.byte byte, .reference name] := by
  have hjump : NamesLabel "jmp" := ⟨by decide, by decide⟩
  have hwords : ∀ word ∈ [name.toList], IsWord word := by
    intro word hword
    exact List.mem_singleton.mp hword ▸ h.isWord
  have hline : ("jmp " ++ name).toList =
      "jmp".toList ++ [name.toList].flatMap fun word => ' ' :: word := by
    rw [String.toList_append, List.flatMap_singleton]
    rfl
  obtain ⟨tokens, htokens, htexts⟩ := tokenize_words hjump.isWord hwords
  obtain ⟨mnemonic, rest, rfl, hmnemonic, hrest⟩ := List.map_eq_cons_iff.mp htexts
  obtain ⟨label, more, rfl, hlabel, hmore⟩ := List.map_eq_cons_iff.mp hrest
  obtain rfl := List.map_eq_nil_iff.mp hmore
  rw [String.ofList_toList] at hmnemonic hlabel
  subst hlabel
  have hplain : ∀ token ∈ [mnemonic, label], token.text ≠ ":" := by
    intro token htoken
    rcases List.mem_cons.mp htoken with rfl | htoken
    · exact hmnemonic ▸ hjump.ne_colon
    · exact List.mem_singleton.mp htoken ▸ h.ne_colon
  obtain ⟨byte, hencode⟩ := encodeTokens_jump hmnemonic h
  refine ⟨byte, ?_⟩
  rw [encodeLine_of_tokenize (hline ▸ htokens), encodeTokenLine_of_no_colon hplain, hencode]
  rfl

/-- **Referable names.**  The names that lines refer to are those of labels. -/
theorem isReferable_iff {name : String} : IsReferable name ↔ NamesLabel name := by
  constructor
  · intro h
    obtain ⟨line, elements, hline, hreference⟩ := h
    rcases mem_encodeLine hline hreference with hinstruction | ⟨other, hother, heq⟩
    · cases hinstruction with
      | reference hname => exact hname
    · cases heq
  · intro h
    obtain ⟨byte, hline⟩ := encodeLine_jump h
    exact ⟨_, _, hline, List.mem_cons_of_mem _ List.mem_cons_self⟩

/-! ## Operands -/

theorem letter_operandKind_iff {text : String} :
    (operandKind text).letter = 'r' ↔ Form.Fits text .symbol := by
  rw [Form.fits_iff_test, Form.test, operandKind]
  cases Symbol.isName text <;> decide

/-- **Forms of operands.**  A text has one form at most: it is a decimal number, it starts with a
quote, it is the name of a symbol, or it is any other identifier.  So the forms can be tested in
any order, and the kind of an operand is symbolic exactly if it is the name of a symbol.

An operand is encoded to what its form says and to nothing else, and a text without a form is
refused.  A number in particular is encoded exactly if its value fits in a signed byte, which is
what a reader that takes digit by digit in a signed byte finds.

A token with a colon behind it is accepted, and is the definition of a label, exactly if the token
is a reference as an operand.  So lines define and refer to the same names. -/
theorem operand_forms (text : String) :
    (∀ form other : Form, form.Fits text → other.Fits text → form = other) ∧
    (∀ order : List Form, order.Perm Form.all → ∀ allowLabels,
      encodeInOrder order allowLabels text = encodeOperand allowLabels text) ∧
    ((operandKind text).letter = 'r' ↔ Form.symbol.Fits text) ∧
    (∀ allowLabels result,
      encodeOperand allowLabels text = result ↔ Yields allowLabels text result) ∧
    (encodeImmediate text = (readImmediate text.toList).elim
      (.error (.immediateOutOfRange text)) fun byte => .ok byte.toUInt8) ∧
    (IsToken text → ∀ elements, encodeLine (text ++ ":") = .ok elements ↔
      elements = [.label text] ∧ encodeOperand true text = .ok (.reference text)) ∧
    (IsDefinable text ↔ IsReferable text) ∧
    (IsReferable text ↔ Form.label.Fits text) := by
  refine ⟨fun form other hform hother => hform.unique hother, ?_, letter_operandKind_iff,
    fun allowLabels result => encodeOperand_eq_iff, encodeImmediate_eq_read text,
    fun htoken elements => encodeLine_colon htoken,
    isDefinable_iff.trans isReferable_iff.symm, isReferable_iff.trans namesLabel_iff⟩
  intro order hperm allowLabels
  exact encodeInOrder_eq (fun form => hperm.mem_iff.mpr form.mem_all) allowLabels text

/-- Numbers at the lower bound and above the upper one, a quote between quotes, and a label. -/
theorem operand_forms_bounds :
    encodeOperand false "-00128" = .ok (.byte 128) ∧
      encodeOperand false "0128" = .error (.immediateOutOfRange "0128") ∧
      encodeOperand false "'''" = .ok (.byte 39) ∧
      encodeLine ("loop_1" ++ ":") = .ok [.label "loop_1"] := by
  have hlower : IsDecimal "-00128".toList (-128) := isDecimal_iff.mpr (by decide)
  have hupper : IsDecimal "0128".toList 128 := isDecimal_iff.mpr (by decide)
  have htoken : IsToken "loop_1" :=
    ⟨"loop_1".toList, [⟨"loop_1", 1⟩], ⟨"loop_1", 1⟩, by decide, List.mem_cons_self, rfl⟩
  obtain ⟨-, -, -, hlow, -⟩ := operand_forms "-00128"
  obtain ⟨-, -, -, hhigh, -⟩ := operand_forms "0128"
  obtain ⟨-, -, -, hquote, -⟩ := operand_forms "'''"
  obtain ⟨-, -, -, hname, -, hline, -⟩ := operand_forms "loop_1"
  have hlabel : Form.Fits "loop_1" .label := by decide
  refine ⟨(hlow _ _).mpr (.number hlower (by decide) (by decide)),
    (hhigh _ _).mpr (.outOfRange hupper (by decide)), ?_, ?_⟩
  · exact (hquote _ _).mpr (.character (c := quote) ⟨by decide, by decide⟩ (by decide))
  · exact (hline htoken _).mpr ⟨rfl, (hname _ _).mpr (.reference hlabel rfl)⟩

end ByteMachine
