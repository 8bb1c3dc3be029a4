import ByteMachine.Assembly.Source
import ByteMachine.Engine.Run
import ByteMachine.Machine.Dump

/-!
# What commands ask of their host

A command reads and writes files, logs, prints and runs an image on the
standard console.  `Host` lists these services, so that a command says what it
does and not on what.
-/

namespace ByteMachine

/-- What is left of a run. -/
structure RunReport where
  verdict : Verdict
  machine : Machine
  /-- The number of executed instructions. -/
  steps : Nat

/-- The services that commands use. -/
class Host (m : Type → Type) where
  /-- Is there a file or a directory at a path? -/
  exists? : String → m Bool
  /-- The content of a file. -/
  readFile : String → m (Except Fault (List UInt8))
  /-- Replace or create a file. -/
  writeFile : String → List UInt8 → m (Except Fault Unit)
  /-- Write a record to the log. -/
  log : Record → m Unit
  /-- Write a text to the standard output. -/
  print : String → m Unit
  /-- Run an image on the standard console. -/
  runImage : Settings → Image → m RunReport

/-- Decode the content of a source file. -/
def decodeSource (path : String) (content : List UInt8) : Except Fault String :=
  match String.fromUTF8? (ByteArray.mk content.toArray) with
  | some source => .ok source
  | none => .error (.file path "stream did not contain valid UTF-8")

/-- The log message on a source that cannot be turned into an image. -/
def sourceReport (path source : String) : Fault → String
  | .assembly line column cause => diagnostic path source line column cause.message
  | fault => fault.message

namespace Host

variable {m : Type → Type} [Monad m] [Host m]

/-- Log an error. -/
def error (message : String) : m Unit :=
  log ⟨.error, message⟩

/-- Log a warning. -/
def warn (message : String) : m Unit :=
  log ⟨.warn, message⟩

/-- Log a piece of information. -/
def info (message : String) : m Unit :=
  log ⟨.info, message⟩

/-- Read and assemble a source file.  A source that cannot be turned into an
image is reported. -/
def assembleFile (path : String) : m (Except Fault Image) := do
  match (← readFile path).bind (decodeSource path) with
  | .error fault => return .error fault
  | .ok source =>
    let result := assembleImage source
    if let .error fault := result then
      error (sourceReport path source fault)
    return result

/-- Read an image file. -/
def readImage (path : String) : m (Except Fault Image) :=
  return (← readFile path).bind Image.ofBytes

end Host

end ByteMachine
