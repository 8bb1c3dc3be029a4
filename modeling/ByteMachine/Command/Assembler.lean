import ByteMachine.Command.Host
import ByteMachine.Files.Path
import ByteMachine.Instruction.Disassembly

/-!
# The command that assembles a program

The image of a source text is written to a file, whose path is that of the
source with the extension `bin`, unless another path is given.  A listing of
the image is printed on request.
-/

namespace ByteMachine

namespace Assembler

/-- What is assembled and where the image goes. -/
structure Options where
  source : String
  image : String
  listing : Bool
deriving DecidableEq, Repr

/-- Why arguments were refused. -/
inductive ArgumentFault where
  | sourceMissing
  | imageMissing (argument : String)
  | unexpected (argument : String)
deriving DecidableEq, Repr

/-- The text that reports refused arguments. -/
def ArgumentFault.message : ArgumentFault → String
  | sourceMissing => "missing input file"
  | imageMissing argument => argument ++ " requires an argument"
  | unexpected argument => "unexpected argument: " ++ argument

/-- Read the arguments behind the source path, where a later one overrides an
earlier one. -/
def Options.readRest (options : Options) :
    List String → Except ArgumentFault Options
  | [] => .ok options
  | argument :: rest =>
    if argument == "-o" || argument == "--output" then
      match rest with
      | [] => .error (.imageMissing argument)
      | image :: rest => readRest { options with image } rest
    else if argument == "-d" || argument == "--disassemble" then
      readRest { options with listing := true } rest
    else .error (.unexpected argument)

/-- Read the arguments of the command. -/
def Options.read : List String → Except ArgumentFault Options
  | [] => .error .sourceMissing
  | source :: rest =>
    readRest { source, image := Path.withExtension source "bin", listing := false }
      rest

/-- How to use the command. -/
def usage (program : String) : String :=
  "usage: " ++ program ++ " <input.asm> [-o <out.bin>] [-d]\n\n"
    ++ "    -o, --output <file>   image path, defaults to <input>.bin\n"
    ++ "    -d, --disassemble     print a listing of the linked image\n"
    ++ "    -h, --help            show this message\n"

/-- Is an argument a request for help? -/
def isHelp (argument : String) : Bool :=
  argument == "-h" || argument == "--help"

/-- The number of cells that an image should leave to the stack. -/
def stackHeadroom : Nat := 16

variable {m : Type → Type} [Monad m] [Host m]

open Host

/-- Report an image that has been written, and list it on request. -/
def report (options : Options) (image : Image) : m UInt32 := do
  let size := Decimal.ofNat image.size
  info (options.source ++ " -> " ++ options.image ++ " (" ++ size ++ " bytes)")
  if memorySize < image.size + stackHeadroom then
    warn ("Image uses " ++ size ++ " of " ++ Decimal.ofNat memorySize
      ++ " bytes; the stack may overwrite code")
  if !options.listing then return 0
  match listing image.bytes with
  | .ok text =>
    print text
    return 0
  | .error fault =>
    error ("Disassembly failed: " ++ fault.message)
    return 1

/-- Assemble a source file and write its image. -/
def assembleTo (options : Options) : m UInt32 := do
  if !(← exists? options.source) then
    error ("Input file does not exist: " ++ options.source)
    return 1
  match ← assembleFile options.source with
  | .error fault =>
    error ("Assembly failed: " ++ fault.message)
    return 1
  | .ok image =>
    match ← writeFile options.image image.bytes with
    | .error fault =>
      error ("Failed to write " ++ options.image ++ ": " ++ fault.message)
      return 1
    | .ok () => report options image

/-- The whole command.  The answer is its exit code. -/
def command (program : String) (arguments : List String) : m UInt32 := do
  if arguments.any isHelp then
    info (usage program)
    return 0
  match Options.read arguments with
  | .ok options => assembleTo options
  | .error fault =>
    error fault.message
    info (usage program)
    return 1

end Assembler

end ByteMachine
