import ByteMachine.Fault
import ByteMachine.Shape
import ByteMachine.Symbol

/-!
# Operands and operand bytes

An operand is an immediate value or a symbol.  An immediate takes one byte in
two's complement and a symbol takes one byte for its index, except that a pair
of symbols is packed into one byte, the first in the high half.

`Operand.decode` reads operand bytes of a known shape.
-/

namespace ByteMachine

/-- What an instruction operates on. -/
inductive Operand where
  | immediate (value : Int8)
  | symbol (s : Symbol)
deriving DecidableEq, Repr

/-- The symbol with a given index, or the fault that there is none. -/
def Symbol.ofIndex (index : UInt8) : Except Fault Symbol :=
  match Symbol.ofIndex? index with
  | some s => .ok s
  | none => .error (.invalidRegisterIndex index)

/-- The symbol with a given name, or the fault that there is none. -/
def Symbol.ofName (name : String) : Except Fault Symbol :=
  match Symbol.ofName? name with
  | some s => .ok s
  | none => .error (.unknownSymbol name)

namespace Symbol

/-- Two symbols in one byte, the first in the high half. -/
def pack (first second : Symbol) : UInt8 :=
  first.index <<< 4 ||| second.index

/-- The two symbols of a packed byte. -/
def unpack (byte : UInt8) : Except Fault (Symbol × Symbol) := do
  let first ← ofIndex (byte >>> 4)
  let second ← ofIndex (byte &&& 0x0F)
  return (first, second)

/-- A known index leads to its symbol. -/
theorem ofIndex_index (s : Symbol) : ofIndex s.index = .ok s := by
  simp [ofIndex, ofIndex?_index]

/-- The high half of a packed byte is the first index. -/
theorem pack_shiftRight (first second : Symbol) :
    pack first second >>> 4 = first.index := by
  cases first with
  | register r =>
    cases second with
    | register r' => cases r <;> cases r' <;> decide
    | flag f' => cases r <;> cases f' <;> decide
  | flag f =>
    cases second with
    | register r' => cases f <;> cases r' <;> decide
    | flag f' => cases f <;> cases f' <;> decide

/-- The low half of a packed byte is the second index. -/
theorem pack_and (first second : Symbol) :
    pack first second &&& 0x0F = second.index := by
  cases first with
  | register r =>
    cases second with
    | register r' => cases r <;> cases r' <;> decide
    | flag f' => cases r <;> cases f' <;> decide
  | flag f =>
    cases second with
    | register r' => cases f <;> cases r' <;> decide
    | flag f' => cases f <;> cases f' <;> decide

/-- Packed symbols come apart again. -/
theorem unpack_pack (first second : Symbol) :
    unpack (pack first second) = .ok (first, second) := by
  simp [unpack, pack_shiftRight, pack_and, ofIndex_index, bind, Except.bind,
    pure, Except.pure]

end Symbol

namespace Operand

/-- The accumulator, which stands in for operands that are left out. -/
def accumulator : Operand := .symbol (.register .a)

/-- An operand in a program text. -/
def text : Operand → String
  | immediate value => Decimal.ofInt value.toInt
  | symbol s => s.name

/-- Read one operand byte of a given kind. -/
def ofByte (kind : OperandKind) (byte : UInt8) : Except Fault Operand :=
  match kind with
  | .immediate => .ok (immediate byte.toInt8)
  | .symbolic => return symbol (← Symbol.ofIndex byte)

/-- Read the operand bytes of a shape, which must be exactly as many as the
shape asks for. -/
def decode (shape : Shape) (bytes : List UInt8) : Except Fault (List Operand) :=
  match shape, bytes with
  | .bare, [] => .ok []
  | .i, [x] => return [← ofByte .immediate x]
  | .r, [x] => return [← ofByte .symbolic x]
  | .ii, [x, y] => return [← ofByte .immediate x, ← ofByte .immediate y]
  | .ir, [x, y] => return [← ofByte .immediate x, ← ofByte .symbolic y]
  | .ri, [x, y] => return [← ofByte .symbolic x, ← ofByte .immediate y]
  | .rr, [packed] => do
    let (x, y) ← Symbol.unpack packed
    return [symbol x, symbol y]
  | shape, bytes =>
    .error (.operandCountMismatch shape.code shape.operandBytes bytes.length)

end Operand

end ByteMachine
