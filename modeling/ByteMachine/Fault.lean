import ByteMachine.Text.Decimal

/-!
# Faults

Everything that can go wrong between a source text and the end of a run is one
of the causes below, and `Fault.message` is the one place that words them.
-/

namespace ByteMachine

/-- The number of memory cells, which is also the size of the largest image. -/
def memorySize : Nat := 256

/-- Why something failed. -/
inductive Fault where
  /-- A decimal literal outside the signed eight-bit range. -/
  | immediateOutOfRange (token : String)
  /-- A quoted literal that does not hold exactly one ASCII character. -/
  | invalidCharLiteral (token : String)
  /-- An operand of no known form. -/
  | invalidOperand (token : String)
  /-- A mnemonic that does not go with the operands behind it. -/
  | unknownOperation (name : String)
  /-- A colon with nothing before it. -/
  | emptyLabel
  /-- A label that is no identifier, or names a register or a flag. -/
  | invalidLabel (label : String)
  /-- A quote that opens a literal and never closes. -/
  | unterminatedLiteral
  /-- A fault in a source text, with its line and its column. -/
  | assembly (line column : Nat) (cause : Fault)
  /-- A label with two definitions. -/
  | duplicateLabel (label : String)
  /-- A reference to a label without a definition. -/
  | undefinedLabel (label : String)
  /-- A reference to a label whose position does not fit in a byte. -/
  | labelOutOfRange (label : String) (position : Nat)
  /-- An image that does not fit in memory. -/
  | programTooLarge (size : Nat)
  /-- A name of no register and no flag. -/
  | unknownSymbol (name : String)
  /-- A byte that announces no instruction, or one that is cut off. -/
  | invalidInstruction (opcode : UInt8) (offset : Nat)
  /-- An operand byte that is the index of no register and no flag. -/
  | invalidRegisterIndex (index : UInt8)
  /-- A wrong number of operand bytes. -/
  | operandCountMismatch (name : String) (expected actual : Nat)
  /-- An operation that has an opcode and no effect. -/
  | unimplemented (mnemonic : String)
  /-- A division or a remainder by zero. -/
  | divisionByZero
  /-- A result without a register to go to. -/
  | expectedRegister (mnemonic : String)
  /-- A run that needs more instructions than its limit allows. -/
  | stepLimitExceeded (limit : Nat)
  /-- A failed input or output of one byte. -/
  | console (reason : String)
  /-- A failed access to a file. -/
  | file (path reason : String)
deriving DecidableEq, Repr

namespace Fault

/-- The text that reports a fault. -/
def message : Fault → String
  | immediateOutOfRange token =>
    "immediate " ++ token ++ " out of range [-128, 127]"
  | invalidCharLiteral token => "malformed character literal " ++ token
  | invalidOperand token => "invalid operand " ++ token
  | unknownOperation name => "unknown operation " ++ name
  | emptyLabel => "empty label name"
  | invalidLabel label => "invalid label name " ++ label
  | unterminatedLiteral => "unterminated character literal"
  | assembly line column cause =>
    "line " ++ Decimal.ofNat line ++ ":" ++ Decimal.ofNat column ++ ": "
      ++ cause.message
  | duplicateLabel label => "duplicate label: " ++ label
  | undefinedLabel label => "undefined label: " ++ label
  | labelOutOfRange label position =>
    "label " ++ label ++ " at position " ++ Decimal.ofNat position
      ++ " is not addressable"
  | programTooLarge size =>
    "program of " ++ Decimal.ofNat size ++ " bytes exceeds memory of "
      ++ Decimal.ofNat memorySize ++ " bytes"
  | unknownSymbol name =>
    "invalid register or flag name: \"" ++ name ++ "\""
  | invalidInstruction opcode offset =>
    "invalid instruction " ++ Decimal.ofNat opcode.toNat ++ " at offset "
      ++ Decimal.ofNat offset
  | invalidRegisterIndex index =>
    "register index " ++ Decimal.ofNat index.toNat ++ " out of bounds"
  | operandCountMismatch name expected actual =>
    name ++ " takes " ++ Decimal.ofNat expected ++ " operand bytes, got "
      ++ Decimal.ofNat actual
  | unimplemented mnemonic => "operation " ++ mnemonic ++ " is not implemented"
  | divisionByZero => "division by zero"
  | expectedRegister mnemonic => mnemonic ++ " expects a register destination"
  | stepLimitExceeded limit =>
    "step limit of " ++ Decimal.ofNat limit ++ " instructions exceeded"
  | console reason => "console error: " ++ reason
  | file path reason => "io error on " ++ path ++ ": " ++ reason

end Fault

end ByteMachine
