/-!
# Operations

What an instruction does, apart from how its operands are encoded.  Operations
that work alike are grouped: the unary ones compute a value from one operand,
the binary ones combine a source with a destination, and the jumps share one
effect under different conditions.

Every operation has a mnemonic, and no two share one.
-/

namespace ByteMachine

/-- Operations that compute a value from one operand. -/
inductive Unary where
  | not | neg | popcount | clz
deriving DecidableEq, Repr

/-- Operations that combine a source with a destination. -/
inductive Binary where
  | add | sub | mul | div | mod | or | and | xor | shl | shr
deriving DecidableEq, Repr

/-- Jumps, each with its own condition. -/
inductive Jump where
  | jmp | jo | jno | jz | jnz | jl | jle | jge | jpe | jpo | jaz
deriving DecidableEq, Repr

/-- The operations of the machine. -/
inductive Operation where
  | halt | getc | putc
  | unary (u : Unary)
  | binary (b : Binary)
  | store | load | mov | test | cmp
  | jump (j : Jump)
  | push | pop | call | ret
deriving DecidableEq, Repr

namespace Unary

/-- All unary operations. -/
def all : List Unary := [not, neg, popcount, clz]

/-- The word that stands for a unary operation in a program. -/
def mnemonic : Unary → String
  | not => "not" | neg => "neg" | popcount => "popcount" | clz => "clz"

end Unary

namespace Binary

/-- All binary operations. -/
def all : List Binary := [add, sub, mul, div, mod, or, and, xor, shl, shr]

/-- The word that stands for a binary operation in a program. -/
def mnemonic : Binary → String
  | add => "add" | sub => "sub" | mul => "mul" | div => "div" | mod => "mod"
  | or => "or" | and => "and" | xor => "xor" | shl => "shl" | shr => "shr"

end Binary

namespace Jump

/-- All jumps. -/
def all : List Jump := [jmp, jo, jno, jz, jnz, jl, jle, jge, jpe, jpo, jaz]

/-- The word that stands for a jump in a program. -/
def mnemonic : Jump → String
  | jmp => "jmp" | jo => "jo" | jno => "jno" | jz => "jz" | jnz => "jnz"
  | jl => "jl" | jle => "jle" | jge => "jge"
  | jpe => "jpe" | jpo => "jpo" | jaz => "jaz"

end Jump

namespace Operation

/-- All operations. -/
def all : List Operation :=
  [halt, getc, putc] ++ Unary.all.map unary ++ Binary.all.map binary
    ++ [store, load, mov, test, cmp] ++ Jump.all.map jump
    ++ [push, pop, call, ret]

/-- The word that stands for an operation in a program. -/
def mnemonic : Operation → String
  | halt => "halt" | getc => "getc" | putc => "putc"
  | unary u => u.mnemonic
  | binary b => b.mnemonic
  | store => "store" | load => "load" | mov => "mov"
  | test => "test" | cmp => "cmp"
  | jump j => j.mnemonic
  | push => "push" | pop => "pop" | call => "call" | ret => "ret"

/-- The operation with a given mnemonic, if there is one. -/
def ofMnemonic? (mnemonic : String) : Option Operation :=
  all.find? fun operation => operation.mnemonic == mnemonic

/-- A mnemonic leads back to its operation. -/
theorem ofMnemonic?_mnemonic (operation : Operation) :
    ofMnemonic? operation.mnemonic = some operation := by
  cases operation with
  | unary u => cases u <;> decide
  | binary b => cases b <;> decide
  | jump j => cases j <;> decide
  | _ => decide

end Operation

end ByteMachine
