import ByteMachine.Operation
import ByteMachine.Shape

/-!
# The instruction set

An opcode is a row of one table, which pairs an operation with an operand
shape.  The row's number is the opcode's byte, and its name is the mnemonic of
the operation followed by the code of the shape.
-/

namespace ByteMachine

/-- The rows of the instruction set, in the order of their opcode bytes. -/
def instructionSet : Array (Operation × Shape) :=
  #[(.halt, .bare), (.getc, .bare), (.putc, .bare), (.getc, .r), (.putc, .r),
    (.putc, .i),
    (.unary .not, .bare), (.unary .neg, .bare), (.unary .popcount, .bare),
    (.unary .clz, .bare),
    (.unary .not, .r), (.unary .neg, .r), (.unary .popcount, .r),
    (.unary .clz, .r),
    (.binary .add, .bare), (.binary .sub, .bare), (.binary .mul, .bare),
    (.binary .div, .bare), (.binary .mod, .bare),
    (.binary .add, .i), (.binary .sub, .i), (.binary .mul, .i),
    (.binary .div, .i), (.binary .mod, .i),
    (.binary .add, .r), (.binary .sub, .r), (.binary .mul, .r),
    (.binary .div, .r), (.binary .mod, .r),
    (.binary .add, .rr), (.binary .sub, .rr), (.binary .mul, .rr),
    (.binary .div, .rr), (.binary .mod, .rr),
    (.binary .add, .ir), (.binary .sub, .ir), (.binary .mul, .ir),
    (.binary .div, .ir), (.binary .mod, .ir),
    (.binary .or, .bare), (.binary .and, .bare), (.binary .xor, .bare),
    (.binary .shl, .bare), (.binary .shr, .bare),
    (.binary .or, .i), (.binary .and, .i), (.binary .xor, .i),
    (.binary .shl, .i), (.binary .shr, .i),
    (.binary .or, .r), (.binary .and, .r), (.binary .xor, .r),
    (.binary .shl, .r), (.binary .shr, .r),
    (.binary .or, .rr), (.binary .and, .rr), (.binary .xor, .rr),
    (.binary .shl, .rr), (.binary .shr, .rr),
    (.binary .or, .ir), (.binary .and, .ir), (.binary .xor, .ir),
    (.binary .shl, .ir), (.binary .shr, .ir),
    (.store, .i), (.store, .r), (.store, .ii), (.store, .ri), (.store, .rr),
    (.store, .ir),
    (.load, .i), (.load, .r), (.load, .ir), (.load, .rr),
    (.mov, .i), (.mov, .r), (.mov, .rr), (.mov, .ir),
    (.test, .r), (.cmp, .i), (.cmp, .r), (.cmp, .ir), (.cmp, .rr),
    (.jump .jmp, .i), (.jump .jmp, .r),
    (.jump .jo, .i), (.jump .jno, .i), (.jump .jz, .i), (.jump .jnz, .i),
    (.jump .jl, .i), (.jump .jle, .i), (.jump .jge, .i), (.jump .jpe, .i),
    (.jump .jpo, .i), (.jump .jaz, .i),
    (.push, .bare), (.push, .i), (.push, .r), (.pop, .bare), (.pop, .r),
    (.call, .i), (.call, .r), (.ret, .bare)]

/-- A row of the instruction set. -/
abbrev Opcode := Fin instructionSet.size

namespace Opcode

/-- All opcodes, in the order of their bytes. -/
def all : List Opcode :=
  List.finRange instructionSet.size

/-- What the opcode does. -/
def operation (opcode : Opcode) : Operation :=
  instructionSet[opcode].1

/-- How the opcode takes its operands. -/
def shape (opcode : Opcode) : Shape :=
  instructionSet[opcode].2

/-- The mnemonic followed by the code of the shape. -/
def name (opcode : Opcode) : String :=
  opcode.operation.mnemonic ++ opcode.shape.code

/-- The byte that announces the opcode in an image. -/
def byte (opcode : Opcode) : UInt8 :=
  UInt8.ofNat opcode.val

/-- The opcode that a byte announces, if it announces one. -/
def ofByte? (byte : UInt8) : Option Opcode :=
  if h : byte.toNat < instructionSet.size then some ⟨byte.toNat, h⟩ else none

/-- The opcode with a given name, if there is one. -/
def ofName? (name : String) : Option Opcode :=
  all.find? fun opcode => opcode.name == name

/-- The instruction set has 103 rows. -/
theorem instructionSet_size : instructionSet.size = 103 := rfl

/-- An opcode's byte leads back to the opcode. -/
theorem ofByte?_byte (opcode : Opcode) : ofByte? opcode.byte = some opcode := by
  have hlt : opcode.val < 256 := Nat.lt_trans opcode.isLt (by rw [instructionSet_size]; decide)
  have hbyte : opcode.byte.toNat = opcode.val := by
    simp [byte, Nat.mod_eq_of_lt hlt]
  simp [ofByte?, hbyte, opcode.isLt]

end Opcode

end ByteMachine
