import ByteMachine.Clock.Timestamp
import ByteMachine.Command.Assembler
import ByteMachine.Command.Runner
import ByteMachine.Files.Tree
import Std.Time.DateTime.Timestamp

/-!
# The program

The commands on the files, the standard streams and the clock of the computer.
The name of the executable file selects the command: `assembler` assembles, and
any other name runs programs.

A run is watched turn by turn, so that its output and its trace are seen as they
arise.  Input is read when a turn asks for it: a turn that fails for want of
input is taken again with one more byte.
-/

namespace ByteMachine

namespace Live

/-- The words of the operating system for an error, and its number. -/
def reason : IO.Error → String
  | .alreadyExists _ code details | .otherError code details
  | .resourceBusy code details | .resourceVanished code details
  | .unsupportedOperation code details | .hardwareFault code details
  | .unsatisfiedConstraints code details | .illegalOperation code details
  | .protocolError code details | .timeExpired code details
  | .interrupted _ code details | .noFileOrDirectory _ code details
  | .invalidArgument _ code details | .permissionDenied _ code details
  | .resourceExhausted _ code details | .inappropriateType _ code details
  | .noSuchThing _ code details =>
    details ++ " (os error " ++ Decimal.ofNat code.toNat ++ ")"
  | .unexpectedEof => "unexpected end of file"
  | .userError message => message

/-- Access a file. -/
def access {α : Type} (path : String) (action : IO α) : IO (Except Fault α) := do
  match ← action.toBaseIO with
  | .ok value => return .ok value
  | .error failure => return .error (.file path (reason failure))

/-- Is there a file or a directory at a path?  The path is resolved name by
name, so the limit on its whole length is checked first. -/
def isThere (path : String) : IO Bool := do
  match FileTree.checkLength path with
  | .error _ => return false
  | .ok () => return (← (IO.FS.realPath path).toBaseIO).toBool

/-- The content of a file. -/
def readAll (path : String) : IO (List UInt8) := do
  let handle ← IO.FS.Handle.mk path .read
  return (← handle.readBinToEnd).toList

/-- The environment variables that matter. -/
def environment : IO Environment := do
  return {
    trace := ← IO.getEnv Settings.traceVariable
    stepLimit := ← IO.getEnv Settings.stepLimitVariable
    terminal := ← IO.getEnv "TERM"
    noColor := ← IO.getEnv "NO_COLOR" }

/-- The present time as it is shown in a log. -/
def timestamp : IO String := do
  let now ← Std.Time.Timestamp.now
  return Timestamp.text now.toNanosecondsSinceUnixEpoch.val

/-- Write a record to the standard error stream.  Failures are ignored. -/
def log (record : Record) : IO Unit := do
  let present ← environment
  let format : Log.Format :=
    { stamp := some (← timestamp)
      showLevel := true
      color := Log.usesColor present.terminal present.noColor
      debug := true }
  try
    (← IO.getStderr).putStr (Log.render format record)
  catch _ => pure ()

/-- Write bytes to the standard output and make them visible. -/
def write (bytes : Array UInt8) : IO Unit := do
  let output ← IO.getStdout
  output.write (ByteArray.mk bytes)
  output.flush

/-- The report of an engine that has stopped. -/
def report (engine : Engine Script) (verdict : Verdict) : RunReport :=
  { verdict, machine := engine.machine, steps := engine.budget.used }

/-- Take a turn on a console that fails, and report the failure of a standard
stream in place of the console's own. -/
def reportFailure (engine : Engine Script) (console : Script) (failure : IO.Error) :
    RunReport :=
  let progress := (engine.withConsole console).turn #[]
  report progress.engine (.failed (.console (reason failure)))

/-- Run an engine to its end, where `logged` events of its first turn are in the
log already. -/
partial def watch (engine : Engine Script) (logged : Nat) : IO RunReport := do
  let progress := engine.turn #[]
  (progress.events.toList.drop logged).forM fun event => log event.record
  let console := progress.engine.session.console
  if progress.verdict = .failed Script.endOfInput then
    match ← ((← IO.getStdin).read 1).toBaseIO with
    | .error failure => return reportFailure engine console failure
    | .ok bytes =>
      if bytes.isEmpty then return report progress.engine progress.verdict
      watch (engine.withConsole (console.feed bytes.toList)) progress.events.size
  else
    if !console.output.isEmpty then
      if let .error failure ← (write console.output).toBaseIO then
        let closed := { engine.session.console with outputLimit := some 0 }
        return reportFailure engine closed failure
    let engine := progress.engine.withConsole { console with output := #[] }
    match progress.verdict with
    | .running => watch engine 0
    | verdict => return report engine verdict

end Live

instance : Host IO where
  exists? := Live.isThere
  readFile := fun path => Live.access path (Live.readAll path)
  writeFile := fun path content =>
    Live.access path (IO.FS.writeBinFile path (ByteArray.mk content.toArray))
  log := Live.log
  print := fun text => Live.write text.toUTF8.data
  runImage := fun settings image =>
    Live.watch ((Engine.start (Script.start [] none) settings).load image) 0

end ByteMachine

open ByteMachine in
/-- Run the command that the name of the executable file selects. -/
def main (arguments : List String) : IO UInt32 := do
  let program := (← IO.appPath).fileName.getD ""
  if program == "assembler" then
    Assembler.command program arguments
  else
    let code ← Runner.command program arguments (← Live.environment)
    return code.getD 1
