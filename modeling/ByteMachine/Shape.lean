/-!
# Operand shapes

The shape of an instruction says how many operands it takes and of which kind
each is: immediate (`i`) or symbolic (`r`).  The shape's code spells the kinds
in order, and two symbolic operands share one operand byte.
-/

namespace ByteMachine

/-- The kind of an operand. -/
inductive OperandKind where
  | immediate | symbolic
deriving DecidableEq, Repr

/-- The letter that stands for a kind in shape codes. -/
def OperandKind.letter : OperandKind → Char
  | .immediate => 'i'
  | .symbolic => 'r'

/-- The operand shapes of the instruction set; each constructor spells the
kinds of its operands. -/
inductive Shape where
  | bare | i | r | ii | ir | ri | rr
deriving DecidableEq, Repr

namespace Shape

/-- All shapes. -/
def all : List Shape := [bare, i, r, ii, ir, ri, rr]

/-- The kinds of the operands, in order. -/
def kinds : Shape → List OperandKind
  | bare => []
  | i => [.immediate]
  | r => [.symbolic]
  | ii => [.immediate, .immediate]
  | ir => [.immediate, .symbolic]
  | ri => [.symbolic, .immediate]
  | rr => [.symbolic, .symbolic]

/-- The letters of a sequence of kinds. -/
def codeOfKinds (kinds : List OperandKind) : String :=
  String.ofList (kinds.map OperandKind.letter)

/-- The code of a shape. -/
def code (shape : Shape) : String :=
  codeOfKinds shape.kinds

/-- The shape with a given code, if there is one. -/
def ofCode? (code : String) : Option Shape :=
  all.find? fun shape => shape.code == code

/-- The number of operands. -/
def arity (shape : Shape) : Nat :=
  shape.kinds.length

/-- The number of operand bytes: one for each operand, except that two
symbolic operands share one. -/
def operandBytes : Shape → Nat
  | rr => 1
  | shape => shape.arity

/-- A shape's code leads back to the shape. -/
theorem ofCode?_code (shape : Shape) : ofCode? shape.code = some shape := by
  cases shape <;> decide

/-- No shape has more than two operand bytes. -/
theorem operandBytes_le (shape : Shape) : shape.operandBytes ≤ 2 := by
  cases shape <;> decide

end Shape

end ByteMachine
