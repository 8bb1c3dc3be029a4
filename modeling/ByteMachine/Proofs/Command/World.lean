import ByteMachine.Command.World

/-!
# Commands in a world

What a command does in a world is put together from what it asks of the world.  Three
kinds of behaviour are followed here, each by one rule for a command in parts and one for every
service.

* `World.hostRunning` — a world in which images are run in any way;
* `World.Logs` — a command that does nothing but log, however images are run: it does not
  run any;
* `World.Reads` — a command that changes nothing at all;
* `World.Alike` — two commands, on files of their own, that leave these files alone and do
  the same otherwise.
-/

namespace ByteMachine

namespace World

variable {α β : Type}

/-! ## Commands that only log -/

/-- The services of a world in which images are run as told. -/
@[reducible]
def hostRunning (run : Settings → Image → World → RunReport × World) : Host (StateM World) :=
  { (inferInstance : Host (StateM World)) with
    runImage := fun settings image => modifyGet (run settings image) }

/-- A command gives an answer and changes nothing but the log.  How images are run does not
matter to it. -/
def Logs (command : Host (StateM World) → StateM World α) (answer : α) (world : World) : Prop :=
  ∃ records, ∀ run, (command (hostRunning run)).run world = (answer, { world with records })

theorem logs_pure (answer : α) (world : World) : Logs (fun _ => pure answer) answer world :=
  ⟨world.records, fun _ => rfl⟩

theorem logs_log (record : Record) (world : World) :
    Logs (fun host => host.log record) () world :=
  ⟨world.records.push record, fun _ => rfl⟩

/-- A part that only logs, followed by one that does. -/
theorem Logs.bind {first : Host (StateM World) → StateM World α}
    {second : Host (StateM World) → α → StateM World β} {middle : α} {answer : β}
    {world : World}
    (hfirst : Logs first middle world)
    (hsecond : ∀ records, Logs (second · middle) answer { world with records }) :
    Logs (fun host => first host >>= second host) answer world := by
  obtain ⟨records, hfirst⟩ := hfirst
  obtain ⟨records', hsecond⟩ := hsecond records
  refine ⟨records', fun run => ?_⟩
  rw [StateT.run_bind, hfirst run]
  exact hsecond run

/-- To log several records. -/
theorem logs_forM (records : List Record) (world : World) :
    Logs (fun host => records.forM host.log) () world := by
  induction records generalizing world with
  | nil => exact logs_pure () world
  | cons record rest ih =>
      exact (logs_log record world).bind fun records => ih { world with records }

/-- A command that only logs leaves the files alone. -/
theorem Logs.files_eq {command : Host (StateM World) → StateM World α} {answer : α}
    {world : World} (h : Logs command answer world) :
    ((command inferInstance).run world).2.files = world.files := by
  obtain ⟨records, hrun⟩ := h
  exact congrArg (·.2.files) (hrun runImage)

theorem logs_exists (path : String) (world : World) :
    Logs (fun host => host.exists? path) (world.files.contains path) world :=
  ⟨world.records, fun _ => rfl⟩

theorem logs_readFile (path : String) (world : World) :
    Logs (fun host => host.readFile path)
      ((world.files.read path).mapError (fileFault path)) world :=
  ⟨world.records, fun _ => rfl⟩

/-! ## Commands that only read -/

/-- The same world with other files. -/
def withFiles (world : World) (files : FileTree) : World :=
  { world with files }

/-- With these files, a command gives an answer and changes nothing at all. -/
def Reads (files : FileTree) (command : StateM World α) (answer : α) : Prop :=
  ∀ world : World, command.run (world.withFiles files) = (answer, world.withFiles files)

variable {files files' : FileTree}

theorem reads_pure (answer : α) : Reads files (pure answer) answer :=
  fun _ => rfl

theorem reads_exists (path : String) :
    Reads files (Host.exists? path) (files.contains path) :=
  fun _ => rfl

theorem reads_readFile (path : String) :
    Reads files (Host.readFile path) ((files.read path).mapError (fileFault path)) :=
  fun _ => rfl

/-- A part that only reads, followed by any command. -/
theorem Reads.run_bind {first : StateM World α} {second : α → StateM World β} {middle : α}
    (hfirst : Reads files first middle) (world : World) :
    (first >>= second).run (world.withFiles files) =
      (second middle).run (world.withFiles files) := by
  rw [StateT.run_bind, hfirst world]
  rfl

/-- A part that only reads, followed by one that does. -/
theorem Reads.bind {first : StateM World α} {second : α → StateM World β} {middle : α}
    {answer : β} (hfirst : Reads files first middle)
    (hsecond : Reads files (second middle) answer) : Reads files (first >>= second) answer :=
  fun world => (hfirst.run_bind world).trans (hsecond world)

/-! ## Commands on different files -/

/-- Two commands in worlds that are the same apart from the files give the same answer, and
the worlds are still the same apart from the files, which are what they were. -/
def Alike (files files' : FileTree) (first second : StateM World α) : Prop :=
  ∀ world : World, ∃ answer, ∃ after : World,
    first.run (world.withFiles files) = (answer, after.withFiles files) ∧
      second.run (world.withFiles files') = (answer, after.withFiles files')

theorem alike_pure (answer : α) : Alike files files' (pure answer) (pure answer) :=
  fun world => ⟨answer, world, rfl, rfl⟩

theorem alike_log (record : Record) :
    Alike files files' (Host.log record) (Host.log record) :=
  fun world => ⟨(), { world with records := world.records.push record }, rfl, rfl⟩

theorem alike_print (text : String) :
    Alike files files' (Host.print text) (Host.print text) :=
  fun world => ⟨(), { world with output := world.output ++ text.toUTF8.data }, rfl, rfl⟩

/-- A run of an image knows nothing of files. -/
theorem alike_runImage (settings : Settings) (image : Image) :
    Alike files files' (Host.runImage settings image) (Host.runImage settings image) :=
  fun world => ⟨(runImage settings image world).1, (runImage settings image world).2, rfl, rfl⟩

/-- Commands are alike if their parts are. -/
theorem Alike.bind {first first' : StateM World α} {second second' : α → StateM World β}
    (hfirst : Alike files files' first first')
    (hsecond : ∀ middle, Alike files files' (second middle) (second' middle)) :
    Alike files files' (first >>= second) (first' >>= second') := by
  intro world
  obtain ⟨middle, between, hone, htwo⟩ := hfirst world
  obtain ⟨answer, after, hthree, hfour⟩ := hsecond middle between
  refine ⟨answer, after, ?_, ?_⟩
  · rw [StateT.run_bind, hone]
    exact hthree
  · rw [StateT.run_bind, htwo]
    exact hfour

/-- A command that is alike to itself leaves the files alone. -/
theorem Alike.files_eq {command : StateM World α} {world : World}
    (h : Alike world.files world.files command command) :
    (command.run world).2.files = world.files := by
  obtain ⟨answer, after, hrun, -⟩ := h world
  exact congrArg (·.2.files) hrun

theorem alike_forM (records : List Record) :
    Alike files files' (records.forM Host.log) (records.forM Host.log) := by
  induction records with
  | nil => exact alike_pure ()
  | cons record rest ih => exact (alike_log record).bind fun _ => ih

end World

end ByteMachine
