import ByteMachine.Assembly.Encode
import ByteMachine.Proofs.Instruction.Code
import ByteMachine.Proofs.Instruction.Name
import ByteMachine.Proofs.Object.Labels

/-!
# What a line denotes

The tokens of a line denote an instruction: the first one names the operation,
and each of the others denotes an operand.  `Denotes` and `Spells` say so without
mention of opcodes, shapes and bytes.

* `denotes_of_encodeOperand` — the byte of an operand token is that of the operand
  which the token denotes;
* `spells_of_encodeTokens` — the bytes of a line that starts with a mnemonic are
  those of the instruction that the line spells.

The last one needs the mnemonic: without it the look-up of the opcode can cut the
name at another place than between the first token and the kinds of the others.
-/

namespace ByteMachine

/-! ## Tokens of operands -/

/-- An operand that a token stands for, where `labels` gives the offsets of the
labels. -/
inductive Denotes (labels : String → Option Nat) (text : String) : Operand → Prop
  /-- The name of a register or a flag. -/
  | symbol {s : Symbol} (hname : Symbol.ofName? text = some s) :
      Denotes labels text (.symbol s)
  /-- A decimal number. -/
  | decimal {value : Int8} (hnumeral : Decimal.isNumeral text.toList)
      (hvalue : value.toInt = Decimal.numeralValue text.toList) :
      Denotes labels text (.immediate value)
  /-- A character between quotes. -/
  | literal {value : Int8} {c : Char} (htext : text.toList = [quote, c, quote])
      (hvalue : value.toInt = c.toNat) :
      Denotes labels text (.immediate value)
  /-- The name of a label. -/
  | label {value : Int8} {offset : Nat} (hident : isIdentifier text.toList)
      (hname : Symbol.ofName? text = none) (hlabel : labels text = some offset)
      (hvalue : value.toUInt8.toNat = offset) :
      Denotes labels text (.immediate value)

/-- An instruction that the tokens of a line stand for.  It has as many operands as
the line has tokens behind the mnemonic. -/
inductive Spells (labels : String → Option Nat) : List Token → Instruction → Prop
  | intro {mnemonic : Token} {operands : List Token} {instruction : Instruction}
      (hmnemonic : mnemonic.text = instruction.operation.mnemonic)
      (hoperands : List.Forall₂ (fun token => Denotes labels token.text) operands
        instruction.operands) :
      Spells labels (mnemonic :: operands) instruction

/-- The first token is the mnemonic of an operation. -/
def StartsWithMnemonic (tokens : List Token) : Prop :=
  ∃ operation : Operation, (tokens.map Token.text).head? = some operation.mnemonic

/-- A mnemonic that is found is the mnemonic of the operation. -/
theorem Operation.ofMnemonic?_eq_some {mnemonic : String} {operation : Operation} :
    ofMnemonic? mnemonic = some operation ↔ mnemonic = operation.mnemonic := by
  constructor
  · intro h
    have hfound := List.find?_some h
    exact (beq_iff_eq.mp hfound).symm
  · rintro rfl
    exact ofMnemonic?_mnemonic operation

/-- Looking up the first token tells whether it is a mnemonic. -/
theorem startsWithMnemonic_iff {tokens : List Token} :
    StartsWithMnemonic tokens ↔
      ((tokens.map Token.text).head?.bind Operation.ofMnemonic?).isSome := by
  simp [StartsWithMnemonic, Option.isSome_iff_exists, Option.bind_eq_some_iff,
    Operation.ofMnemonic?_eq_some]

instance (tokens : List Token) : Decidable (StartsWithMnemonic tokens) :=
  decidable_of_iff _ startsWithMnemonic_iff.symm

/-- A name that is found is the name of the symbol. -/
theorem Symbol.name_of_ofName? {text : String} {s : Symbol}
    (h : ofName? text = some s) : s.name = text := by
  have hfound := List.find?_some h
  exact beq_iff_eq.mp hfound

theorem Symbol.ofName_eq_ok {text : String} {s : Symbol} :
    ofName text = .ok s ↔ ofName? text = some s := by
  unfold ofName
  split <;> simp_all

/-- No name of a symbol is a number or a quoted literal. -/
theorem Symbol.form_of_name (s : Symbol) :
    Decimal.isNumeral s.name.toList = false ∧ isQuoted s.name = false := by
  cases s with
  | register r => cases r <;> decide
  | flag f => cases f <;> decide

theorem operandKind_of_some {text : String} {s : Symbol}
    (h : Symbol.ofName? text = some s) : operandKind text = .symbolic := by
  simp [operandKind, Symbol.isName, h]

theorem operandKind_of_none {text : String} (h : Symbol.ofName? text = none) :
    operandKind text = .immediate := by
  simp [operandKind, Symbol.isName, h]

/-- What can start an identifier is no digit. -/
theorem isDigit_of_isIdentifierStart {c : Char} (h : isIdentifierStart c = true) :
    Decimal.isDigit c = false := by
  rcases Bool.or_eq_true_iff.mp h with hletter | hunderscore
  · have habove : 65 ≤ c.val := by
      rcases Bool.or_eq_true_iff.mp hletter with hupper | hlower
      · exact (of_decide_eq_true hupper).1
      · have hfirst : 97 ≤ c.val := of_decide_eq_true (Bool.and_eq_true_iff.mp hlower).1
        exact UInt32.le_trans (by decide) hfirst
    by_contra hdigit
    rw [Bool.not_eq_false, Decimal.isDigit, Bool.and_eq_true] at hdigit
    have hnine : c.val ≤ 57 := of_decide_eq_true hdigit.2
    exact absurd (UInt32.le_trans habove hnine) (by decide)
  · obtain rfl := beq_iff_eq.mp hunderscore
    decide

/-- A number or a quoted literal names no symbol. -/
theorem ofName?_eq_none_of_form {text : String}
    (h : Decimal.isNumeral text.toList = true ∨ isQuoted text = true) :
    Symbol.ofName? text = none := by
  cases hname : Symbol.ofName? text with
  | none => rfl
  | some s =>
      obtain ⟨hnumeral, hquoted⟩ := s.form_of_name
      rw [Symbol.name_of_ofName? hname] at hnumeral hquoted
      simp [hnumeral, hquoted] at h

/-- The byte of a decimal number holds it. -/
theorem toInt_of_encodeImmediate {text : String} {byte : UInt8}
    (h : encodeImmediate text = .ok byte) :
    byte.toInt8.toInt = Decimal.numeralValue text.toList := by
  unfold encodeImmediate at h
  dsimp only at h
  split at h
  case isTrue hrange =>
    obtain rfl := Except.ok.inj h
    exact Int8.toInt_ofInt_of_le hrange.1 (Int.lt_add_one_of_le hrange.2)
  case isFalse => cases h

private theorem toInt_of_lt {n : Nat} (h : n < 128) :
    (UInt8.ofNat n).toInt8.toInt = n := by
  have hall : ∀ n, n < 128 → (UInt8.ofNat n).toInt8.toInt = n := by decide
  exact hall n h

/-- The byte of a quoted literal is the code of its character. -/
theorem toInt_of_encodeCharLiteral {text : String} {byte : UInt8}
    (h : encodeCharLiteral text = .ok byte) :
    ∃ c, text.toList = [quote, c, quote] ∧ byte.toInt8.toInt = c.toNat := by
  unfold encodeCharLiteral at h
  split at h
  case h_1 first c last htext =>
    split at h
    case isTrue hquotes =>
      obtain ⟨rfl, rfl, hascii⟩ := hquotes
      obtain rfl := Except.ok.inj h
      exact ⟨c, htext, toInt_of_lt hascii⟩
    case isFalse => cases h
  case h_2 => cases h

/-- The byte of a reference is the offset of its label. -/
theorem toNat_of_labelByte {table : LabelTable} {name : String} {byte : UInt8}
    (h : labelByte table name = .ok byte) : table.lookup name = some byte.toNat := by
  unfold labelByte at h
  split at h
  case h_1 => cases h
  case h_2 position hlookup =>
    split at h
    case isTrue hposition =>
      obtain rfl := Except.ok.inj h
      rw [hlookup, UInt8.toNat_ofNat_of_lt' hposition]
    case isFalse => cases h

/-- What an operand token is encoded as, by its form. -/
theorem encodeOperand_cases {allowLabels : Bool} {text : String}
    {element : Element} (h : encodeOperand allowLabels text = .ok element) :
    (Decimal.isNumeral text.toList = true ∧
        ∃ byte, encodeImmediate text = .ok byte ∧ element = .byte byte) ∨
      (isQuoted text = true ∧
        ∃ byte, encodeCharLiteral text = .ok byte ∧ element = .byte byte) ∨
      (∃ s, Symbol.ofName? text = some s ∧ element = .byte s.index) ∨
      (Symbol.ofName? text = none ∧ isIdentifier text.toList = true ∧
        element = .reference text) := by
  unfold encodeOperand at h
  split at h
  case isTrue hnumeral =>
    obtain ⟨byte, hbyte, h⟩ := bind_eq_ok.mp h
    exact .inl ⟨hnumeral, byte, hbyte, (pure_eq_ok.mp h).symm⟩
  case isFalse =>
    dsimp only at h
    split at h
    case isTrue hquoted =>
      obtain ⟨byte, hbyte, h⟩ := bind_eq_ok.mp h
      exact .inr (.inl ⟨hquoted, byte, hbyte, (pure_eq_ok.mp h).symm⟩)
    case isFalse =>
      split at h
      case h_1 s hname =>
        exact .inr (.inr (.inl ⟨s, hname, (pure_eq_ok.mp h).symm⟩))
      case h_2 hname =>
        split at h
        case isTrue => cases h
        case isFalse hident =>
          split at h
          case isTrue =>
            have hident : isIdentifier text.toList = true := by simpa using hident
            exact .inr (.inr (.inr ⟨hname, hident, (pure_eq_ok.mp h).symm⟩))
          case isFalse => cases h

/-- A token that is encoded denotes an operand, and once the labels are known its
byte is that of the operand. -/
theorem denotes_of_encodeOperand {allowLabels : Bool} {text : String}
    {element : Element} {table : LabelTable} {bytes : List UInt8}
    (hencode : encodeOperand allowLabels text = .ok element)
    (hresolve : resolve table [element] = .ok bytes) :
    ∃ operand, Denotes (table.lookup ·) text operand ∧ operand.kind = operandKind text ∧
      bytes = [operand.byte] := by
  rcases encodeOperand_cases hencode with
    ⟨hform, byte, hbyte, rfl⟩ | ⟨hform, byte, hbyte, rfl⟩ | ⟨s, hname, rfl⟩ |
      ⟨hname, hident, rfl⟩
  · have hvalue := toInt_of_encodeImmediate hbyte
    refine ⟨.immediate byte.toInt8, .decimal hform hvalue, ?_, ?_⟩
    · rw [operandKind_of_none (ofName?_eq_none_of_form (.inl hform))]
      rfl
    · exact (Except.ok.inj hresolve).symm
  · obtain ⟨c, htext, hvalue⟩ := toInt_of_encodeCharLiteral hbyte
    refine ⟨.immediate byte.toInt8, .literal htext hvalue, ?_, ?_⟩
    · rw [operandKind_of_none (ofName?_eq_none_of_form (.inr hform))]
      rfl
    · exact (Except.ok.inj hresolve).symm
  · refine ⟨.symbol s, .symbol hname, ?_, ?_⟩
    · rw [operandKind_of_some hname]
      rfl
    · exact (Except.ok.inj hresolve).symm
  · obtain ⟨byte, hbyte, hresolve⟩ := bind_eq_ok.mp hresolve
    refine ⟨.immediate byte.toInt8,
      .label hident hname (toNat_of_labelByte hbyte) rfl, ?_, ?_⟩
    · rw [operandKind_of_none hname]
      rfl
    · exact (Except.ok.inj hresolve).symm

/-! ## Tokens of instructions -/

/-- Operands that do not share a byte are encoded one by one. -/
theorem encodeOperands_of_ne {shape : Shape} (h : shape ≠ .rr) (allowLabels : Bool)
    (operands : List Token) :
    encodeOperands allowLabels shape operands =
      operands.mapM fun token => token.blame (encodeOperand allowLabels token.text) := by
  cases shape <;> first | rfl | exact absurd rfl h

/-- Tokens with the kinds of two symbols are two. -/
theorem exists_pair {operands : List Token}
    (h : operands.map (fun token => operandKind token.text) = Shape.kinds .rr) :
    ∃ x y, operands = [x, y] := by
  have hlength := congrArg List.length h
  rw [List.length_map] at hlength
  exact List.length_eq_two.mp hlength

/-- Tokens that are encoded one by one denote operands, and their bytes are those
of the operands in a row. -/
private theorem denotes_of_mapM {allowLabels : Bool} {operands : List Token}
    {elements : List Element} {table : LabelTable} {bytes : List UInt8}
    (hencode : List.Forall₂
      (fun token element => token.blame (encodeOperand allowLabels token.text) = .ok element)
      operands elements)
    (hresolve : resolve table elements = .ok bytes) :
    ∃ decoded : List Operand,
      List.Forall₂ (fun token => Denotes (table.lookup ·) token.text) operands decoded ∧
      decoded.map Operand.kind = operands.map (fun token => operandKind token.text) ∧
      bytes = decoded.map Operand.byte := by
  induction hencode generalizing bytes with
  | nil =>
      obtain rfl := Except.ok.inj hresolve
      exact ⟨[], .nil, rfl, rfl⟩
  | @cons token element operands elements htoken hrest ih =>
      have hparts : resolve table ([element] ++ elements) = .ok bytes := hresolve
      obtain ⟨first, second, hfirst, hsecond, rfl⟩ := resolve_append.mp hparts
      obtain ⟨operand, hdenotes, hkind, rfl⟩ :=
        denotes_of_encodeOperand (mapError_eq_ok.mp htoken) hfirst
      obtain ⟨decoded, hdecoded, hkinds, rfl⟩ := ih hsecond
      refine ⟨operand :: decoded, .cons hdenotes hdecoded, ?_, rfl⟩
      rw [List.map_cons, List.map_cons, hkind, hkinds]

/-- Operand tokens that are encoded for the shape of their kinds denote operands,
and their bytes are the operand bytes. -/
private theorem denotes_of_encodeOperands {allowLabels : Bool} {shape : Shape}
    {operands : List Token} {elements : List Element} {table : LabelTable}
    {bytes : List UInt8}
    (hkinds : operands.map (fun token => operandKind token.text) = shape.kinds)
    (hencode : encodeOperands allowLabels shape operands = .ok elements)
    (hresolve : resolve table elements = .ok bytes) :
    ∃ decoded : List Operand,
      List.Forall₂ (fun token => Denotes (table.lookup ·) token.text) operands decoded ∧
      decoded.map Operand.kind = shape.kinds ∧ bytes = Operand.encode decoded := by
  by_cases hrr : shape = .rr
  · subst hrr
    obtain ⟨x, y, rfl⟩ := exists_pair hkinds
    obtain ⟨first, hfirst, hencode⟩ := bind_eq_ok.mp hencode
    obtain ⟨second, hsecond, hencode⟩ := bind_eq_ok.mp hencode
    obtain rfl := pure_eq_ok.mp hencode
    obtain rfl := Except.ok.inj hresolve
    have hx := Symbol.ofName_eq_ok.mp (mapError_eq_ok.mp hfirst)
    have hy := Symbol.ofName_eq_ok.mp (mapError_eq_ok.mp hsecond)
    exact ⟨[.symbol first, .symbol second], .cons (.symbol hx) (.cons (.symbol hy) .nil),
      rfl, rfl⟩
  · rw [encodeOperands_of_ne hrr] at hencode
    obtain ⟨decoded, hdecoded, hsame, rfl⟩ :=
      denotes_of_mapM (mapM_eq_ok.mp hencode) hresolve
    rw [hkinds] at hsame
    refine ⟨decoded, hdecoded, hsame, (Operand.encode_eq_map ?_).symm⟩
    exact fun h => hrr (Shape.kinds_injective (hsame.symm.trans h))

/-- **What a mnemonic with operands denotes.**  Tokens that are encoded and start
with a mnemonic spell an instruction, and once the labels are known their bytes
are its code. -/
theorem spells_of_encodeTokens {allowLabels : Bool} {tokens : List Token}
    {elements : List Element} {table : LabelTable} {bytes : List UInt8}
    (hstart : StartsWithMnemonic tokens)
    (hencode : encodeTokens allowLabels tokens = .ok elements)
    (hresolve : resolve table elements = .ok bytes) :
    ∃ instruction : Instruction, instruction.WellFormed ∧ bytes = instruction.encode ∧
      Spells (table.lookup ·) tokens instruction := by
  obtain ⟨operation, hfirst⟩ := hstart
  obtain ⟨texts, htexts⟩ := List.head?_eq_some_iff.mp hfirst
  obtain ⟨mnemonic, operands, rfl, hmnemonic, -⟩ := List.map_eq_cons_iff.mp htexts
  unfold encodeTokens at hencode
  dsimp only at hencode
  split at hencode
  case h_1 shape opcode hshape hopcode =>
    obtain ⟨encoded, hencoded, hencode⟩ := bind_eq_ok.mp hencode
    obtain rfl := pure_eq_ok.mp hencode
    obtain ⟨more, hmore, hresolve⟩ := bind_eq_ok.mp hresolve
    obtain rfl := pure_eq_ok.mp hresolve
    have hkinds := Shape.ofCode?_codeOfKinds.mp hshape
    rw [hmnemonic, hkinds] at hopcode
    obtain ⟨hoperation, rfl⟩ := Opcode.ofName?_eq_some.mp hopcode
    obtain ⟨decoded, hdecoded, hformed, rfl⟩ :=
      denotes_of_encodeOperands hkinds hencoded hmore
    refine ⟨⟨opcode, decoded⟩, hformed, rfl, .intro ?_ hdecoded⟩
    rw [hmnemonic, ← hoperation]
    rfl
  case h_2 => cases hencode

end ByteMachine
