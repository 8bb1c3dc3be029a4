import ByteMachine.Machine.State
import ByteMachine.Text.Align

/-!
# Machine dumps

A dump shows all registers, all flags and those memory cells that do not hold
zero, each cell with its address.
-/

namespace ByteMachine

namespace Machine

/-- The registers in a dump. -/
def registersText (machine : Machine) : String :=
  " ".intercalate (Register.all.map fun r =>
    r.name ++ "=" ++ Decimal.ofInt (machine.register r).toInt)

/-- The flags in a dump. -/
def flagsText (machine : Machine) : String :=
  " ".intercalate (Flag.all.map fun f =>
    f.name ++ "=" ++ if machine.flag f then "1" else "0")

/-- A memory cell in a dump, which is left out if it holds zero. -/
def cellText (position : Nat) (value : Int8) : String :=
  if value = 0 then ""
  else "  [" ++ alignRight 3 (Decimal.ofNat position) ++ "] = "
    ++ Decimal.ofInt value.toInt ++ "\n"

/-- Registers, flags and memory as a text. -/
def dump (machine : Machine) : String :=
  "registers: " ++ machine.registersText ++ "\n"
    ++ "flags:     " ++ machine.flagsText ++ "\n"
    ++ "memory:\n"
    ++ String.join (machine.memory.cells.toList.zipIdx.map
        fun (value, position) => cellText position value)

end Machine

end ByteMachine
