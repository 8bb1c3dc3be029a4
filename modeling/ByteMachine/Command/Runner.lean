import ByteMachine.Command.Host
import ByteMachine.Files.Path

/-!
# The command that runs a program

The program is an image, if its file has the extension `bin`, and a source text
otherwise.  Options set the trace and the step limit, which may also be set by
the environment, and ask for a dump of the machine at the end.
-/

namespace ByteMachine

namespace Runner

/-- How a program is run. -/
structure Options where
  settings : Settings
  dump : Bool
deriving DecidableEq, Repr

/-- Why options were refused. -/
inductive OptionFault where
  | limitMissing
  | limitInvalid (raw : String)
  | unexpected (argument : String)
deriving DecidableEq, Repr

/-- The text that reports refused options. -/
def OptionFault.message : OptionFault → String
  | limitMissing => "--step-limit requires an argument"
  | limitInvalid raw =>
    "Invalid step limit: '" ++ raw ++ "' is not a positive integer"
  | unexpected argument => "Unexpected argument: " ++ argument ++ "\n"

/-- Read options from left to right, where a later one overrides an earlier
one. -/
def Options.read (options : Options) : List String → Except OptionFault Options
  | [] => .ok options
  | argument :: rest =>
    if argument == "--trace" then
      read { options with settings := { options.settings with trace := true } } rest
    else if argument == "--step-limit" then
      match rest with
      | [] => .error .limitMissing
      | raw :: rest =>
        match Settings.readStepLimit raw with
        | none => .error (.limitInvalid raw)
        | some limit =>
          read { options with
            settings := { options.settings with stepLimit := some limit } } rest
    else if argument == "--dump" then
      read { options with dump := true } rest
    else .error (.unexpected argument)

/-- How to use the command. -/
def usage (program : String) : String :=
  "Octet VM\n\nUSAGE:\n    " ++ program ++ " <program> [OPTIONS]\n\n"
    ++ "ARGS:\n"
    ++ "    <program>    Assembly source (.asm) or linked image (.bin)\n\n"
    ++ "OPTIONS:\n"
    ++ "    --trace              Log every executed instruction\n"
    ++ "    --step-limit <n>     Stop with an error after n instructions\n"
    ++ "    --dump               Print registers, flags and memory after the run\n"
    ++ "    -h, --help           Print this help message\n\n"
    ++ "ENVIRONMENT:\n"
    ++ "    OCTET_TRACE          1 or true to trace\n"
    ++ "    OCTET_STEP_LIMIT     Default step limit\n\n"
    ++ "EXAMPLES:\n    " ++ program ++ " hello.asm\n    "
    ++ program ++ " hello.bin --step-limit 10000 --dump\n"

/-- Is an argument a request for help? -/
def isHelp (argument : String) : Bool :=
  argument == "--help" || argument == "-h"

variable {m : Type → Type} [Monad m] [Host m]

open Host

/-- Read a program, from an image or from a source text. -/
def load (path : String) : m (Except Fault Image) :=
  if Path.extension path == some "bin" then readImage path
  else assembleFile path

/-- Run an image and report how that ended.  There is no exit code if the run
did not end. -/
def runLoaded (options : Options) (image : Image) : m (Option UInt32) := do
  let report ← runImage options.settings image
  match report.verdict with
  | .running => return none
  | verdict =>
    print "\n"
    if options.dump then print report.machine.dump
    match verdict with
    | .failed fault =>
      error ("Execution failed at address " ++ Decimal.ofNat report.machine.ip.toNat
        ++ ": " ++ fault.message)
      return some 1
    | _ =>
      info ("Halted after " ++ Decimal.ofNat report.steps ++ " instructions")
      return some 0

/-- Run the program at a path. -/
def runFile (options : Options) (path : String) : m (Option UInt32) := do
  if !(← exists? path) then
    error ("Input file does not exist: " ++ path)
    return some 1
  match ← load path with
  | .ok image => runLoaded options image
  | .error (.assembly ..) => return some 1
  | .error fault =>
    error fault.message
    return some 1

/-- The whole command.  The answer is its exit code. -/
def command (program : String) (arguments : List String)
    (environment : Environment) : m (Option UInt32) := do
  match arguments with
  | [] =>
    info (usage program)
    return some 1
  | path :: rest =>
    if isHelp path then
      info (usage program)
      return some 0
    let (settings, warnings) := Settings.ofEnvironment environment
    warnings.forM log
    match Options.read { settings, dump := false } rest with
    | .ok options => runFile options path
    | .error fault =>
      error fault.message
      if let .unexpected _ := fault then info (usage program)
      return some 1

end Runner

end ByteMachine
