import ByteMachine.Machine.Arithmetic
import ByteMachine.Machine.Console
import ByteMachine.Machine.State

/-!
# Execution of one operation

`execute` applies an operation to a machine with a console.  An operand that is
left out is the accumulator, and operands beyond those that an operation uses
are ignored: with one operand it is the source and the accumulator is the
destination.

An action that fails keeps the state that it has reached, so that it is a fact
about `execute`, and not a convention, that a failure changes nothing.
-/

namespace ByteMachine

/-- A machine with the console that it is connected to. -/
structure Session (σ : Type) where
  machine : Machine
  console : σ

/-- What changes a machine and its console, or fails. -/
abbrev Action (σ : Type) := EStateM Fault (Session σ)

/-- The operand at a place, or the accumulator if there is none. -/
def operandAt (operands : List Operand) (place : Nat) : Operand :=
  (operands[place]?).getD .accumulator

/-- The register that the operand at a place names, where `operation` needs a
register for its result. -/
def destination (operands : List Operand) (place : Nat) (operation : Operation) :
    Except Fault Register :=
  match operandAt operands place with
  | .symbol (.register r) => .ok r
  | _ => .error (.expectedRegister operation.mnemonic)

/-- Set the flags that describe a value: whether it is zero, whether the number
of bits set in its low byte is even, and whether it is negative. -/
def Machine.describe (machine : Machine) (x : Int) : Machine :=
  ((machine.setFlag .zero (x == 0)).setFlag .parity
    (popcount (Int8.ofInt x).toUInt8 % 2 == 0)).setFlag .sign (x < 0)

/-- Does a jump jump? -/
def Jump.taken (machine : Machine) : Jump → Bool
  | .jmp => true
  | .jo => machine.flag .overflow
  | .jno => !machine.flag .overflow
  | .jz => machine.flag .zero
  | .jnz => !machine.flag .zero
  | .jl => machine.flag .zero != machine.flag .overflow
  | .jle => machine.flag .zero != machine.flag .overflow || machine.flag .zero
  | .jge => machine.flag .sign == machine.flag .overflow
  | .jpe => machine.flag .parity
  | .jpo => !machine.flag .parity
  | .jaz => machine.register .a == 0

namespace Action

variable {σ : Type}

/-- The present value of the operand at a place. -/
def valueAt (operands : List Operand) (place : Nat) : Action σ Int8 :=
  return (← get).machine.value (operandAt operands place)

/-- Change the machine. -/
def update (change : Machine → Machine) : Action σ Unit :=
  modify fun session => { session with machine := change session.machine }

/-- Fail if a computation has failed. -/
def check {α : Type} (result : Except Fault α) : Action σ α :=
  match result with
  | .ok value => pure value
  | .error fault => throw fault

/-- Take a byte from the console. -/
def getByte [Console σ] : Action σ UInt8 := fun session =>
  match Console.getByte session.console with
  | .ok byte console => .ok byte { session with console }
  | .error fault console => .error fault { session with console }

/-- Give a byte to the console. -/
def putByte [Console σ] (byte : UInt8) : Action σ Unit := fun session =>
  match Console.putByte byte session.console with
  | .ok () console => .ok () { session with console }
  | .error fault console => .error fault { session with console }

end Action

open ByteMachine.Action in
/-- Apply an operation to its operands.  Halting changes nothing here: it is
the engine that stops. -/
def execute {σ : Type} [Console σ] (operation : Operation)
    (operands : List Operand) : Action σ Unit :=
  match operation with
  | .halt => pure ()
  | .getc => do
    let r ← check (destination operands 0 operation)
    let byte ← getByte
    update fun machine => machine.setRegister r byte.toInt8
  | .putc => do
    let value ← valueAt operands 0
    putByte value.toUInt8
  | .unary u => do
    let x ← valueAt operands 0
    update fun machine => machine.setRegister .a (u.result x)
  | .binary b => do
    let source ← valueAt operands 0
    let r ← check (destination operands 1 operation)
    let machine := (← get).machine
    let result ← check (b.result source (machine.register r))
    update fun machine => machine.setRegister r result
  | .store => do
    let address ← valueAt operands 0
    let value ← valueAt operands 1
    update fun machine => machine.write address.toUInt8 value
  | .load => do
    let address ← valueAt operands 0
    let r ← check (destination operands 1 operation)
    update fun machine => machine.setRegister r (machine.read address.toUInt8)
  | .mov => do
    let value ← valueAt operands 0
    let r ← check (destination operands 1 operation)
    update fun machine => machine.setRegister r value
  | .test => do
    let x ← valueAt operands 0
    update fun machine => machine.describe x.toInt
  | .cmp => do
    let x ← valueAt operands 0
    let y ← valueAt operands 1
    update fun machine => machine.describe (x.toInt - y.toInt)
  | .jump j => do
    let target ← valueAt operands 0
    if j.taken (← get).machine then
      update fun machine => machine.setRegister .ip target
  | .push => do
    let value ← valueAt operands 0
    update fun machine => machine.decrement .sp
    update fun machine => machine.write (machine.register .sp).toUInt8 value
  | .pop => do
    let r ← check (destination operands 0 operation)
    let machine := (← get).machine
    let value := machine.read (machine.register .sp).toUInt8
    update fun machine => machine.increment .sp
    update fun machine => machine.setRegister r value
  | .call | .ret => throw (.unimplemented operation.mnemonic)

end ByteMachine
