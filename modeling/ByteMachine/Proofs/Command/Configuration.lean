import ByteMachine.Command.Runner
import ByteMachine.Proofs.Engine.Settings

/-!
# The effective configuration of a run

The arguments behind the path of the program are read as options, one after another, on top of
what the environment has set.  An option is one argument or two, and which of them depends on
its first word alone.  So arguments are accepted exactly if they are options in a row, and what
they amount to is found by going through these options.  Whatever the arguments are, the
warnings about the environment come first; then the command turns to the program file, or it
reports the first argument that does not fit and is over.

* `Choice` — one option, with the arguments that it consists of;
* `Options.read_flatMap`, `Options.exists_choices_of_read` — which arguments are accepted;
* `GoesOn`, `Stops` — the two ways of the command, on every lawful host;
* `effective_configuration` — which way it goes, and with which options.
-/

namespace ByteMachine

namespace Runner

/-! ## Options in a row -/

/-- One option.  A limit keeps the text that it was given as and the count that this text
sets. -/
inductive Choice where
  | trace
  | dump
  | stepLimit (raw : String) (count : Nat) (accepted : Settings.readStepLimit raw = some count)

namespace Choice

/-- The arguments that an option consists of. -/
def arguments : Choice → List String
  | trace => ["--trace"]
  | dump => ["--dump"]
  | stepLimit raw _ _ => ["--step-limit", raw]

/-- The limit that an option sets. -/
def limit? : Choice → Option Nat
  | stepLimit _ count _ => some count
  | _ => none

/-- What an option changes. -/
def apply (options : Options) : Choice → Options
  | trace => { options with settings := { options.settings with trace := true } }
  | dump => { options with dump := true }
  | stepLimit _ count _ =>
    { options with settings := { options.settings with stepLimit := some count } }

end Choice

namespace Options

variable (options : Options)

/-- One option is read, and then the rest. -/
theorem read_append (choice : Choice) (rest : List String) :
    read options (choice.arguments ++ rest) = read (choice.apply options) rest := by
  cases choice with
  | trace =>
      rw [read.eq_def]
      rfl
  | dump =>
      rw [read.eq_def]
      rfl
  | stepLimit raw count accepted =>
      rw [read.eq_def]
      simp only [Choice.arguments, List.cons_append, List.nil_append, accepted]
      rfl

/-- **Options in a row are accepted.** -/
theorem read_flatMap (choices : List Choice) :
    read options (choices.flatMap Choice.arguments) =
      .ok (choices.foldl Choice.apply options) := by
  induction choices generalizing options with
  | nil => rfl
  | cons choice rest ih => rw [List.flatMap_cons, read_append, ih, List.foldl_cons]

/-- **Nothing else is accepted.** -/
theorem exists_choices_of_read {options result : Options} {arguments : List String}
    (h : read options arguments = .ok result) :
    ∃ choices : List Choice, arguments = choices.flatMap Choice.arguments := by
  induction options, arguments using read.induct with
  | case1 options => exact ⟨[], rfl⟩
  | case2 options argument rest htrace ih =>
      rw [beq_iff_eq] at htrace
      subst htrace
      obtain ⟨choices, rfl⟩ := ih ((read_append options .trace rest).symm.trans h)
      exact ⟨.trace :: choices, rfl⟩
  | case3 options argument htrace hlimit =>
      rw [read.eq_def] at h
      simp only [htrace, hlimit] at h
      cases h
  | case4 options argument htrace hlimit raw rest hraw =>
      rw [read.eq_def] at h
      simp only [htrace, hlimit, hraw] at h
      cases h
  | case5 options argument htrace hlimit raw rest count hraw ih =>
      rw [beq_iff_eq] at hlimit
      subst hlimit
      obtain ⟨choices, rfl⟩ :=
        ih ((read_append options (.stepLimit raw count hraw) rest).symm.trans h)
      exact ⟨.stepLimit raw count hraw :: choices, rfl⟩
  | case6 options argument rest htrace hlimit hdump ih =>
      rw [beq_iff_eq] at hdump
      subst hdump
      obtain ⟨choices, rfl⟩ := ih ((read_append options .dump rest).symm.trans h)
      exact ⟨.dump :: choices, rfl⟩
  | case7 options argument rest htrace hlimit hdump =>
      rw [read.eq_def] at h
      simp only [htrace, hlimit, hdump] at h
      cases h

/-! What a row of options amounts to. -/

variable (choices : List Choice)

theorem trace_foldl :
    (choices.foldl Choice.apply options).settings.trace = true ↔
      Choice.trace ∈ choices ∨ options.settings.trace = true := by
  induction choices generalizing options with
  | nil => simp
  | cons choice rest ih =>
      rw [List.foldl_cons, ih, List.mem_cons]
      cases choice <;> simp [Choice.apply]

theorem dump_foldl :
    (choices.foldl Choice.apply options).dump = true ↔
      Choice.dump ∈ choices ∨ options.dump = true := by
  induction choices generalizing options with
  | nil => simp
  | cons choice rest ih =>
      rw [List.foldl_cons, ih, List.mem_cons]
      cases choice <;> simp [Choice.apply]

/-- The last limit counts. -/
theorem stepLimit_foldl :
    (choices.foldl Choice.apply options).settings.stepLimit =
      (choices.filterMap Choice.limit?).getLast?.or options.settings.stepLimit := by
  induction choices generalizing options with
  | nil => rfl
  | cons choice rest ih =>
      rw [List.foldl_cons, ih]
      cases choice with
      | trace => rfl
      | dump => rfl
      | stepLimit raw count accepted =>
          rw [List.filterMap_cons_some (f := Choice.limit?) (b := count) rfl, List.getLast?_cons]
          cases (rest.filterMap Choice.limit?).getLast? <;> rfl

end Options

/-! ## The two ways of the command -/

/-- On every lawful host, the command logs the records and turns to the program file. -/
def GoesOn (program path : String) (arguments : List String) (environment : Environment)
    (records : List Record) (options : Options) : Prop :=
  ∀ (m : Type → Type) [Monad m] [LawfulMonad m] [Host m],
    (command program (path :: arguments) environment : m (Option UInt32)) = do
      records.forM Host.log
      runFile options path

/-- On every lawful host, the command logs the records and does nothing else, and its exit code
is 1. -/
def Stops (program path : String) (arguments : List String) (environment : Environment)
    (records : List Record) : Prop :=
  ∀ (m : Type → Type) [Monad m] [LawfulMonad m] [Host m],
    (command program (path :: arguments) environment : m (Option UInt32)) = do
      records.forM Host.log
      return some 1

/-- The records about refused options. -/
def OptionFault.reports (program : String) (fault : OptionFault) : List Record :=
  ⟨.error, fault.message⟩ ::
    match fault with
    | .unexpected _ => [⟨.info, usage program⟩]
    | _ => []

section

variable {program path : String} {arguments : List String} {environment : Environment}
  {options : Options} {fault : OptionFault} {records : List Record}

theorem goesOn_of_read (hpath : isHelp path = false)
    (h : Options.read ⟨(Settings.ofEnvironment environment).1, false⟩ arguments = .ok options) :
    GoesOn program path arguments environment (Settings.ofEnvironment environment).2 options := by
  intro m _ _ _
  simp only [command, hpath, h]
  rfl

theorem stops_of_read (hpath : isHelp path = false)
    (h : Options.read ⟨(Settings.ofEnvironment environment).1, false⟩ arguments = .error fault) :
    Stops program path arguments environment
      ((Settings.ofEnvironment environment).2 ++ fault.reports program) := by
  intro m _ _ _
  simp only [command, hpath, h]
  cases fault <;> simp [OptionFault.reports, Host.error, Host.info]

/-- The command goes on with options in a row. -/
theorem goesOn_of_choices (hpath : isHelp path = false) (choices : List Choice) :
    GoesOn program path (choices.flatMap Choice.arguments) environment
      (Settings.ofEnvironment environment).2
      (choices.foldl Choice.apply ⟨(Settings.ofEnvironment environment).1, false⟩) :=
  goesOn_of_read hpath (Options.read_flatMap _ choices)

/-- The command stops with anything else, and says why. -/
theorem stops_of_no_choices (hpath : isHelp path = false)
    (hnone : ¬∃ choices : List Choice, arguments = choices.flatMap Choice.arguments) :
    ∃ reports, reports ≠ [] ∧ Stops program path arguments environment
      ((Settings.ofEnvironment environment).2 ++ reports) := by
  cases hread : Options.read ⟨(Settings.ofEnvironment environment).1, false⟩ arguments with
  | ok options => exact absurd (Options.exists_choices_of_read hread) hnone
  | error fault =>
      exact ⟨fault.reports program, List.cons_ne_nil _ _, stops_of_read hpath hread⟩

/-! A host can tell the two ways apart. -/

/-- A host without files that remembers which paths it has been asked about. -/
@[reducible]
def asking : Host (StateM (List String)) where
  exists? path := modifyGet fun asked => (false, path :: asked)
  readFile path := modifyGet fun asked => (.error (.file path "no such file"), path :: asked)
  writeFile path _ := return .error (.file path "no such file")
  log _ := return ()
  print _ := return ()
  runImage _ _ := return ⟨.running, .cleared, 0⟩

theorem asking_forM (records : List Record) :
    (records.forM asking.log : StateM (List String) Unit) = pure () := by
  induction records with
  | nil => rfl
  | cons record rest ih =>
      show (asking.log record >>= fun _ => rest.forM asking.log) = pure ()
      rw [ih]
      rfl

/-- A command that goes on does not stop. -/
theorem GoesOn.not_stops {others : List Record}
    (hgoes : GoesOn program path arguments environment records options)
    (hstops : Stops program path arguments environment others) : False := by
  let _ := asking
  have hasked := congrArg (fun command => (command.run []).2)
    ((hgoes (StateM (List String))).symm.trans (hstops (StateM (List String))))
  simp only [asking_forM] at hasked
  cases hasked

end

end Runner

open Runner

/-- **The effective configuration.**  Run any program, other than a request for help, with any
arguments behind it in any environment.  The command gets to the program file exactly if the
arguments are options in a row, in any order and number, where each limit has the text of a
count; otherwise it logs why and exits with 1, and asks its host for nothing else.  If it gets
there, the run is traced if an option or a well-formed variable says so; the last limit among the
options counts, or else that of a well-formed variable, if there is one.  A malformed
variable has the effect of one that is not set, apart from one warning, and there are no other
warnings.  The texts of truth values are a few words, and those of counts are positive numbers of
64 bits in decimal. -/
theorem effective_configuration (program path : String) (arguments : List String)
    (environment : Environment) (hpath : isHelp path = false) :
    let warnings := (Settings.ofEnvironment environment).2
    ((∃ records options, GoesOn program path arguments environment records options) ↔
      ∃ choices : List Choice, arguments = choices.flatMap Choice.arguments) ∧
    (∀ choices : List Choice, arguments = choices.flatMap Choice.arguments →
      ∃ options, GoesOn program path arguments environment warnings options ∧
        (options.settings.trace = true ↔ Choice.trace ∈ choices ∨
          ∃ raw, environment.trace = some raw ∧ Settings.readSwitch raw = some true) ∧
        options.settings.stepLimit = (choices.filterMap Choice.limit?).getLast?.or
          (environment.stepLimit.bind Settings.readStepLimit) ∧
        (options.dump = true ↔ Choice.dump ∈ choices)) ∧
    ((¬∃ choices : List Choice, arguments = choices.flatMap Choice.arguments) →
      ∃ reports, reports ≠ [] ∧
        Stops program path arguments environment (warnings ++ reports)) ∧
    (∀ raw, environment.trace = some raw → Settings.readSwitch raw = none →
      Settings.ofEnvironment environment =
        let others := Settings.ofEnvironment { environment with trace := none }
        (others.1,
          Settings.warning Settings.traceVariable raw "1, 0, true or false" :: others.2)) ∧
    (∀ raw, environment.stepLimit = some raw → Settings.readStepLimit raw = none →
      Settings.ofEnvironment environment =
        let others := Settings.ofEnvironment { environment with stepLimit := none }
        (others.1,
          others.2 ++ [Settings.warning Settings.stepLimitVariable raw "a positive integer"])) ∧
    ((∀ raw, environment.trace = some raw → Settings.readSwitch raw ≠ none) →
      (∀ raw, environment.stepLimit = some raw → Settings.readStepLimit raw ≠ none) →
        warnings = []) ∧
    (∀ raw value, Settings.readSwitch raw = some value ↔ Settings.IsSwitch raw value) ∧
    ∀ raw count, Settings.readStepLimit raw = some count ↔ Settings.IsCount raw count := by
  intro warnings
  refine ⟨⟨?needed, ?enough⟩, ?options, stops_of_no_choices hpath,
    fun raw htrace hread => Settings.ofEnvironment_of_trace htrace hread,
    fun raw hlimit hread => Settings.ofEnvironment_of_stepLimit hlimit hread,
    Settings.ofEnvironment_snd, fun raw value => Settings.readSwitch_eq_some_iff,
    fun raw count => Settings.readStepLimit_eq_some_iff⟩
  case needed =>
    rintro ⟨records, options, hgoes⟩
    by_contra hnone
    obtain ⟨reports, -, hstops⟩ := stops_of_no_choices hpath hnone
    exact hgoes.not_stops hstops
  case enough =>
    rintro ⟨choices, rfl⟩
    exact ⟨warnings, _, goesOn_of_choices hpath choices⟩
  case options =>
    rintro choices rfl
    refine ⟨_, goesOn_of_choices hpath choices, ?trace, ?limit, ?dump⟩
    case trace => rw [Options.trace_foldl, Settings.trace_ofEnvironment]
    case limit => rw [Options.stepLimit_foldl, Settings.ofEnvironment_fst]
    case dump => rw [Options.dump_foldl, or_iff_left Bool.false_ne_true]

/-- A later limit overrides an earlier one and the environment, whose other variable is
malformed; and the text of a limit is not taken for an option. -/
theorem effective_configuration_limits :
    let environment : Environment := ⟨some "loud", some "100", none, none⟩
    isHelp "p.asm" = false ∧
      (∃ options, GoesOn "octet-vm" "p.asm"
          ["--step-limit", "9", "--trace", "--step-limit", " +007 "] environment
          [Settings.warning Settings.traceVariable "loud" "1, 0, true or false"] options ∧
        options.settings.trace = true ∧ options.settings.stepLimit = some 7) ∧
      ∃ records, Stops "octet-vm" "p.asm" ["--step-limit", "--trace"] environment records := by
  intro environment
  have hpath : isHelp "p.asm" = false := by decide
  have hnine : Settings.readStepLimit "9" = some 9 := by decide +kernel
  have hseven : Settings.readStepLimit " +007 " = some 7 := by decide +kernel
  refine ⟨hpath, ?_, ?_⟩
  · obtain ⟨-, haccepted, -⟩ := effective_configuration "octet-vm" "p.asm"
      ["--step-limit", "9", "--trace", "--step-limit", " +007 "] environment hpath
    obtain ⟨options, hgoes, htrace, hlimit, -⟩ :=
      haccepted [.stepLimit "9" 9 hnine, .trace, .stepLimit " +007 " 7 hseven] rfl
    have hwarnings : (Settings.ofEnvironment environment).2 =
        [Settings.warning Settings.traceVariable "loud" "1, 0, true or false"] := by
      decide +kernel
    rw [hwarnings] at hgoes
    exact ⟨options, hgoes, htrace.mpr (Or.inl (by simp)), hlimit⟩
  · obtain ⟨-, -, hrefused, -⟩ := effective_configuration "octet-vm" "p.asm"
      ["--step-limit", "--trace"] environment hpath
    obtain ⟨reports, -, hstops⟩ := hrefused (by
      rintro ⟨choices, hchoices⟩
      have hread := Options.read_flatMap ⟨Settings.default, false⟩ choices
      rw [← hchoices] at hread
      have herror : Options.read ⟨Settings.default, false⟩ ["--step-limit", "--trace"] =
          .error (.limitInvalid "--trace") := by
        decide +kernel
      cases herror.symm.trans hread)
    exact ⟨_, hstops⟩

end ByteMachine
