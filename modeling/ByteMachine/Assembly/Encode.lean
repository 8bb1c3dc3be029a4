import ByteMachine.Assembly.Token
import ByteMachine.Object.Link
import ByteMachine.Opcode
import ByteMachine.Operand

/-!
# Encoding of a line

An instruction is a mnemonic with its operands.  Each operand is symbolic, if
it names a register or a flag, or immediate, if it is anything else, and these
kinds select the opcode: the mnemonic followed by the letters of the kinds must
be the name of an opcode.

An immediate operand is a decimal number, a quoted ASCII character or the name
of a label.  A label is defined by its name and a colon in front of an
instruction, or on a line of its own.
-/

namespace ByteMachine

/-- A character that can start an identifier. -/
def isIdentifierStart (c : Char) : Bool :=
  c.isAlpha || c == '_'

/-- A letter or an underscore, followed by letters, digits and underscores, all
of them ASCII. -/
def isIdentifier : List Char → Bool
  | [] => false
  | c :: rest =>
    isIdentifierStart c && rest.all fun d => isIdentifierStart d || d.isDigit

/-- The byte of a decimal number from -128 to 127. -/
def encodeImmediate (token : String) : Except Fault UInt8 :=
  let value := Decimal.numeralValue token.toList
  if -128 ≤ value ∧ value ≤ 127 then .ok (Int8.ofInt value).toUInt8
  else .error (.immediateOutOfRange token)

/-- The code of the ASCII character between two quotes. -/
def encodeCharLiteral (token : String) : Except Fault UInt8 :=
  match token.toList with
  | [first, c, last] =>
    if first = quote ∧ last = quote ∧ c.toNat < 128 then
      .ok (UInt8.ofNat c.toNat)
    else .error (.invalidCharLiteral token)
  | _ => .error (.invalidCharLiteral token)

/-- Is a token a quoted literal, well formed or not? -/
def isQuoted (token : String) : Bool :=
  token.toList.head? == some quote

/-- The kind of an operand token. -/
def operandKind (token : String) : OperandKind :=
  if Symbol.isName token then .symbolic else .immediate

/-- The element that an operand token stands for.  Names of labels are refused
unless `allowLabels` is set. -/
def encodeOperand (allowLabels : Bool) (token : String) :
    Except Fault Element := do
  if Decimal.isNumeral token.toList then
    return .byte (← encodeImmediate token)
  if isQuoted token then
    return .byte (← encodeCharLiteral token)
  match Symbol.ofName? token with
  | some s => return .byte s.index
  | none =>
    if !isIdentifier token.toList then throw (.invalidOperand token)
    if allowLabels then return .reference token
    throw (.unknownSymbol token)

/-- The elements of the operands of an instruction of a given shape. -/
def encodeOperands (allowLabels : Bool) (shape : Shape) (operands : List Token) :
    Except LineFault (List Element) :=
  match shape, operands with
  | .rr, [x, y] => do
    let first ← x.blame (Symbol.ofName x.text)
    let second ← y.blame (Symbol.ofName y.text)
    return [.byte (Symbol.pack first second)]
  | _, operands =>
    operands.mapM fun token => token.blame (encodeOperand allowLabels token.text)

/-- The elements of an instruction, which is empty or starts with its
mnemonic. -/
def encodeTokens (allowLabels : Bool) :
    List Token → Except LineFault (List Element)
  | [] => .ok []
  | mnemonic :: operands =>
    let code := Shape.codeOfKinds (operands.map fun token => operandKind token.text)
    let name := mnemonic.text ++ code
    match Shape.ofCode? code, Opcode.ofName? name with
    | some shape, some opcode => do
      let encoded ← encodeOperands allowLabels shape operands
      return .byte opcode.byte :: encoded
    | _, _ => .error ⟨mnemonic.column, .unknownOperation name⟩

/-- The name of the label that the tokens in front of a colon define. -/
def labelName (colon : Token) : List Token → Except LineFault String
  | [] => .error ⟨colon.column, .emptyLabel⟩
  | [label] =>
    if isIdentifier label.text.toList && !Symbol.isName label.text then
      .ok label.text
    else .error ⟨label.column, .invalidLabel label.text⟩
  | first :: second :: rest =>
    let texts := (first :: second :: rest).map Token.text
    .error ⟨second.column, .invalidLabel (" ".intercalate texts)⟩

/-- The elements of a line: an optional label and an optional instruction. -/
def encodeTokenLine (tokens : List Token) : Except LineFault (List Element) :=
  match tokens.dropWhile fun token => token.text != ":" with
  | [] => encodeTokens true tokens
  | colon :: rest => do
    let before := tokens.takeWhile fun token => token.text != ":"
    let name ← labelName colon before
    let encoded ← encodeTokens true rest
    return .label name :: encoded

/-- The elements of a line, or its fault with a column. -/
def encodeLineAt (line : List Char) : Except LineFault (List Element) := do
  let tokens ← tokenize line
  encodeTokenLine tokens

/-- The elements of a line. -/
def encodeLine (line : String) : Except Fault (List Element) :=
  (encodeLineAt line.toList).mapError LineFault.cause

/-- The value of an element that is a byte. -/
def Element.toByte : Element → Except Fault UInt8
  | .byte value => .ok value
  | element => .error (.invalidOperand element.text)

/-- The bytes of a line that holds one instruction and mentions no labels. -/
def encodeInstruction (line : String) : Except Fault (List UInt8) := do
  let elements ← (do
    let tokens ← tokenize line.toList
    encodeTokens false tokens).mapError LineFault.cause
  elements.mapM Element.toByte

end ByteMachine
