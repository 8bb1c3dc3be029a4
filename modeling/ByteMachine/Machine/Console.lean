import ByteMachine.Fault

/-!
# Consoles

A console gives and takes one byte at a time.  Any type can serve as the state
of a console; a failing call may change the state too.

`Script` is the console whose input is known beforehand and whose output is
kept.
-/

namespace ByteMachine

/-- The states of a console. -/
class Console (σ : Type) where
  /-- Take the next byte of the input. -/
  getByte : EStateM Fault σ UInt8
  /-- Add a byte to the output. -/
  putByte : UInt8 → EStateM Fault σ Unit

/-- A console with a fixed input, which keeps its output and can refuse more of
it after a number of bytes. -/
structure Script where
  input : List UInt8
  output : Array UInt8
  outputLimit : Option Nat
deriving DecidableEq, Repr

namespace Script

/-- A script that has given and taken nothing yet. -/
def start (input : List UInt8) (outputLimit : Option Nat) : Script :=
  { input, output := #[], outputLimit }

/-- Put more bytes behind the input that is left. -/
def feed (script : Script) (bytes : List UInt8) : Script :=
  { script with input := script.input ++ bytes }

/-- The fault of asking for input where none is left. -/
def endOfInput : Fault := .console "end of input"

/-- Does a script take one more byte of output? -/
def accepts (script : Script) : Bool :=
  match script.outputLimit with
  | none => true
  | some limit => script.output.size < limit

instance : Console Script where
  getByte := fun script =>
    match script.input with
    | [] => .error endOfInput script
    | byte :: rest => .ok byte { script with input := rest }
  putByte := fun byte script =>
    if script.accepts then
      .ok () { script with output := script.output.push byte }
    else .error (.console "output closed") script

end Script

end ByteMachine
