import ByteMachine.Engine.Budget
import ByteMachine.Log
import ByteMachine.Text.Blank

/-!
# Settings of a run

A run can be traced and it can be limited.  Both settings can be made by
variables of the environment, and a variable with a malformed value is reported
and ignored.
-/

namespace ByteMachine

/-- Is a run traced, and how many instructions may it execute? -/
structure Settings where
  trace : Bool
  stepLimit : Option Nat
deriving DecidableEq, Repr

/-- The values of the environment variables that matter, as far as they are
set. -/
structure Environment where
  trace : Option String
  stepLimit : Option String
  terminal : Option String
  noColor : Option String
deriving DecidableEq, Repr

namespace Settings

/-- The variable that turns tracing on. -/
def traceVariable : String := "OCTET_TRACE"

/-- The variable that limits the number of instructions. -/
def stepLimitVariable : String := "OCTET_STEP_LIMIT"

/-- No trace and no limit. -/
def default : Settings := { trace := false, stepLimit := none }

/-- The truth value that a text stands for, white space around it aside. -/
def readSwitch (raw : String) : Option Bool :=
  let word := String.ofList ((Blank.trim raw.toList).map Char.toLower)
  if word == "1" || word == "true" then some true
  else if word == "0" || word == "false" || word == "" then some false
  else none

/-- The digits of a count, which may follow a plus sign. -/
def countDigits : List Char → List Char
  | '+' :: rest => rest
  | text => text

/-- The positive count that a text stands for, white space around it aside. -/
def readStepLimit (raw : String) : Option Nat :=
  let digits := countDigits (Blank.trim raw.toList)
  if Decimal.isDigits digits then
    let count := Decimal.value digits
    if 0 < count ∧ count ≤ Budget.maxCount then some count else none
  else none

/-- The value of a variable, and a warning if it is malformed. -/
def readVariable {α : Type} (name expected : String) (read : String → Option α) :
    Option String → Option α × List Record
  | none => (none, [])
  | some raw =>
    match read raw with
    | some value => (some value, [])
    | none =>
      (none, [⟨.warn, "Ignoring " ++ name ++ "=" ++ raw ++ ": expected " ++ expected⟩])

/-- The settings that an environment makes, and the warnings about it. -/
def ofEnvironment (environment : Environment) : Settings × List Record :=
  let (trace, traceWarnings) :=
    readVariable traceVariable "1, 0, true or false" readSwitch environment.trace
  let (stepLimit, stepLimitWarnings) :=
    readVariable stepLimitVariable "a positive integer" readStepLimit
      environment.stepLimit
  ({ trace := trace.getD default.trace, stepLimit },
    traceWarnings ++ stepLimitWarnings)

end Settings

end ByteMachine
