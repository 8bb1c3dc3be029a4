/-!
# Registers, flags and symbols

The machine has seven registers and five flags.  Both kinds share one space of
names and one space of indices: registers come first, in the order of
`Register.all`, and flags follow, in the order of `Flag.all`.

* `Symbol.index` and `Symbol.ofIndex?` — the numbering, from 0 to 11;
* `Symbol.name` and `Symbol.ofName?` — the names used in programs.
-/

namespace ByteMachine

/-- The registers.  `a` is the accumulator, `ip` the instruction pointer, `sb`
the stack base and `sp` the stack pointer. -/
inductive Register where
  | a | b | c | d | ip | sb | sp
deriving DecidableEq, Repr

namespace Register

/-- All registers, in the order of their indices. -/
def all : List Register := [a, b, c, d, ip, sb, sp]

/-- The name of a register in a program. -/
def name : Register → String
  | a => "a" | b => "b" | c => "c" | d => "d"
  | ip => "ip" | sb => "sb" | sp => "sp"

end Register

/-- The flags. -/
inductive Flag where
  | carry | parity | zero | sign | overflow
deriving DecidableEq, Repr

namespace Flag

/-- All flags, in the order of their indices. -/
def all : List Flag := [carry, parity, zero, sign, overflow]

/-- The name of a flag in a program. -/
def name : Flag → String
  | carry => "cf" | parity => "pf" | zero => "zf" | sign => "sf" | overflow => "of"

end Flag

/-- What a symbolic operand can name. -/
inductive Symbol where
  | register (r : Register)
  | flag (f : Flag)
deriving DecidableEq, Repr

namespace Symbol

/-- All symbols, in the order of their indices. -/
def all : List Symbol :=
  Register.all.map register ++ Flag.all.map flag

/-- The name of a symbol in a program. -/
def name : Symbol → String
  | register r => r.name
  | flag f => f.name

/-- The number that stands for a symbol in encoded instructions. -/
def index : Symbol → UInt8
  | register .a => 0
  | register .b => 1
  | register .c => 2
  | register .d => 3
  | register .ip => 4
  | register .sb => 5
  | register .sp => 6
  | flag .carry => 7
  | flag .parity => 8
  | flag .zero => 9
  | flag .sign => 10
  | flag .overflow => 11

/-- The symbol with a given index, if there is one. -/
def ofIndex? (index : UInt8) : Option Symbol :=
  all[index.toNat]?

/-- The symbol with a given name, if there is one. -/
def ofName? (name : String) : Option Symbol :=
  all.find? fun s => s.name == name

/-- Does a text name a register or a flag? -/
def isName (text : String) : Bool :=
  (ofName? text).isSome

/-- A symbol's index leads back to the symbol. -/
theorem ofIndex?_index (s : Symbol) : ofIndex? s.index = some s := by
  cases s with
  | register r => cases r <;> rfl
  | flag f => cases f <;> rfl

/-- A symbol's name leads back to the symbol. -/
theorem ofName?_name (s : Symbol) : ofName? s.name = some s := by
  cases s with
  | register r => cases r <;> decide
  | flag f => cases f <;> decide

end Symbol

end ByteMachine
