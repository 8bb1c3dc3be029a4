import ByteMachine.Command.Host
import ByteMachine.Files.Tree

/-!
# A world for commands

A host in which everything is known: the files, the bytes that wait on the
standard input and what has been printed and logged.  A run without a limit is
watched for a number of turns only.
-/

namespace ByteMachine

/-- The state of a host. -/
structure World where
  files : FileTree
  input : List UInt8
  output : Array UInt8
  records : Array Record
  /-- The number of turns after which a run without a limit is given up. -/
  patience : Nat

namespace World

/-- A world in which nothing has been printed or logged. -/
def start (files : FileTree) (input : List UInt8) (patience : Nat) : World :=
  { files, input, output := #[], records := #[], patience }

/-- The fault of an access to a path. -/
def fileFault (path : String) (fault : AccessFault) : Fault :=
  .file path fault.reason

/-- Write a file. -/
def writeFile (path : String) (content : List UInt8) (world : World) :
    Except Fault Unit × World :=
  match world.files.write path content with
  | .ok files => (.ok (), { world with files })
  | .error fault => (.error (fileFault path fault), world)

/-- Run an image on the standard input and output. -/
def runImage (settings : Settings) (image : Image) (world : World) :
    RunReport × World :=
  let engine := Engine.start (Script.start world.input none) settings
  let progress := engine.runImage image world.patience
  let engine := progress.engine
  ({ verdict := progress.verdict
     machine := engine.machine
     steps := engine.budget.used },
    { world with
      input := engine.session.console.input
      output := world.output ++ engine.session.console.output
      records := world.records ++ progress.events.map Event.record })

instance : Host (StateM World) where
  exists? := fun path => return (← get).files.contains path
  readFile := fun path =>
    return ((← get).files.read path).mapError (fileFault path)
  writeFile := fun path content => modifyGet (writeFile path content)
  log := fun record =>
    modify fun world => { world with records := world.records.push record }
  print := fun text =>
    modify fun world =>
      { world with output := world.output ++ text.toUTF8.data }
  runImage := fun settings image => modifyGet (runImage settings image)

end World

end ByteMachine
