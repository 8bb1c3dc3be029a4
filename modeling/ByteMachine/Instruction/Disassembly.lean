import ByteMachine.Instruction.Basic
import ByteMachine.Text.Align

/-!
# Disassembly

An image is cut into instructions from its first byte on: each instruction
starts where the one before it ends.
-/

namespace ByteMachine

/-- The instructions of an image with their offsets, where the first byte of
`bytes` stands at `offset`. -/
def disassembleFrom (offset : Nat) (bytes : List UInt8) :
    Except Fault (List (Nat × Instruction)) :=
  match bytes with
  | [] => .ok []
  | byte :: rest =>
    match Opcode.ofByte? byte with
    | none => .error (.invalidInstruction byte offset)
    | some opcode => do
      let length := opcode.shape.operandBytes
      match ← Instruction.decode (byte :: rest.take length) with
      | none => throw (.invalidInstruction byte offset)
      | some instruction =>
        let more ← disassembleFrom (offset + 1 + length) (rest.drop length)
        return (offset, instruction) :: more
termination_by bytes.length
decreasing_by simp only [List.length_drop, List.length_cons]; omega

/-- The instructions of an image with their offsets. -/
def disassemble (bytes : List UInt8) : Except Fault (List (Nat × Instruction)) :=
  disassembleFrom 0 bytes

/-- A listing of an image, one line for each instruction with its offset in
front. -/
def listing (bytes : List UInt8) : Except Fault String := do
  let instructions ← disassemble bytes
  return String.join (instructions.map fun (offset, instruction) =>
    alignRight 3 (Decimal.ofNat offset) ++ ": " ++ instruction.text ++ "\n")

end ByteMachine
