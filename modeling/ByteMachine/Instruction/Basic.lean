import ByteMachine.Opcode
import ByteMachine.Operand

/-!
# Instructions

An instruction is an opcode with its operands.  It is encoded as the opcode's
byte followed by the operand bytes, and nothing in the encoding says how long
it is: the opcode alone decides that.

* `Instruction.decode` — read one instruction from a buffer that may still be
  growing;
* `Instruction.text` — the instruction as a line of a program.
-/

namespace ByteMachine

/-- An opcode with its operands. -/
structure Instruction where
  opcode : Opcode
  operands : List Operand
deriving DecidableEq, Repr

/-- The opcode that a byte announces, or the fault of a byte that announces
none and stands at the start of what is decoded. -/
def Opcode.ofByte (byte : UInt8) : Except Fault Opcode :=
  match Opcode.ofByte? byte with
  | some opcode => .ok opcode
  | none => .error (.invalidInstruction byte 0)

namespace Instruction

/-- What the instruction does. -/
def operation (instruction : Instruction) : Operation :=
  instruction.opcode.operation

/-- The number of bytes of the encoded instruction. -/
def length (instruction : Instruction) : Nat :=
  1 + instruction.opcode.shape.operandBytes

/-- The instruction as a line of a program. -/
def text (instruction : Instruction) : String :=
  instruction.operation.mnemonic
    ++ String.join (instruction.operands.map fun operand => " " ++ operand.text)

/-- Decode a buffer that holds one instruction.  The answer is `none` as long
as the buffer is shorter than the instruction that its first byte
announces. -/
def decode : List UInt8 → Except Fault (Option Instruction)
  | [] => .ok none
  | byte :: operandBytes => do
    let opcode ← Opcode.ofByte byte
    let expected := opcode.shape.operandBytes
    if operandBytes.length < expected then return none
    if expected < operandBytes.length then
      throw (.operandCountMismatch opcode.name expected operandBytes.length)
    let operands ← Operand.decode opcode.shape operandBytes
    return some { opcode, operands }

/-- A buffer of three bytes is never too short. -/
theorem length_lt_of_decode_eq_none {bytes : List UInt8}
    (h : decode bytes = .ok none) : bytes.length < 3 := by
  cases bytes with
  | nil => decide
  | cons byte operandBytes =>
    simp only [decode, bind, Except.bind, pure, Except.pure] at h
    split at h
    · simp at h
    · rename_i opcode _
      have hle := opcode.shape.operandBytes_le
      split at h
      · simp only [List.length_cons]
        omega
      · split at h
        · simp [throw, throwThe, MonadExceptOf.throw] at h
        · split at h
          · simp at h
          · simp at h

end Instruction

end ByteMachine
