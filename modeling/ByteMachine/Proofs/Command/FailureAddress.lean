import ByteMachine.Command.Runner
import ByteMachine.Command.World
import ByteMachine.Proofs.Engine.Boundary
import ByteMachine.Proofs.Engine.ControlFlow
import ByteMachine.Proofs.Engine.Failure

/-!
# The address of a failure

When a run fails, the command logs where.  What it logs is the place of the instruction
pointer, and this stands on the last byte that has been fetched: an instruction is fetched as
a whole before anything can go wrong with it, and only what is no opcode is noticed at its
first byte.  The trace, on the other hand, and the fault of a byte that is no opcode name the
first byte.  So the logged address is the one of the instruction exactly if no operand bytes
belong to it, and too large by their number otherwise.

* `Engine.events_of_failed` — an instruction that fails is the last one in the trace;
* `Runner.run_runLoaded` — what the command does when the run is over;
* `failure_logged_at_last_byte` — the logged address, the failing instruction and the trace;
* `division_logged_behind_opcode` — a division that is not where the log says.
-/

namespace ByteMachine

variable {σ : Type} [Console σ]

/-! ## The failing instruction -/

/-- An instruction that fails is noted, and nothing behind it. -/
theorem Engine.events_of_failed {engine final : Engine σ} {instruction : Instruction}
    {fault : Fault} (hdecode : engine.Decodes instruction)
    (h : Step engine (.failed fault) final) (events : Array Event) :
    (engine.turn events).events =
      engine.note events (.decoded engine.machine.ip instruction) := by
  cases h with
  | unknown hopcode => exact absurd hdecode (not_decodes_of_unknown hopcode instruction)
  | badSymbol hopcode hindex =>
      exact absurd hdecode (not_decodes_of_badSymbol hopcode hindex instruction)
  | @refused other limit hother hhalt hlimit hused =>
      obtain rfl := eq_of_decodes hdecode hother
      have hlast : (engine.onLast instruction.opcode).budget.limit = some limit := hlimit
      rw [turn_of_ne_halt hdecode hhalt, perform_of_limit hlast hused]
  | @fails other _ session hother hhalt hallows hfailure hexecute =>
      obtain rfl := eq_of_decodes hdecode hother
      have hlast : (engine.onLast instruction.opcode).budget.Allows := hallows
      rw [turn_of_ne_halt hdecode hhalt, perform_of_error hlast hexecute]

/-- The address of the last byte that is fetched, as a number. -/
theorem Engine.toNat_ip_of_failed {engine final : Engine σ} {fault : Fault}
    (h : Step engine (.failed fault) final) :
    final.machine.ip.toNat =
      (engine.machine.ip.toNat + engine.operandCount) % memorySize := by
  have hcount := engine.operandCount_le
  rw [machine_eq_of_failed h, Machine.ip_jumpTo, UInt8.toNat_add, UInt8.toNat_ofNat']
  rw [Nat.mod_eq_of_lt (a := engine.operandCount) (by omega)]
  rfl

/-- A script fails in words of its own. -/
theorem Script.exists_reason {fault : Fault} (h : ConsoleFails Script fault) :
    ∃ reason, fault = .console reason := by
  obtain ⟨script, next, hget | ⟨byte, hput⟩⟩ := h
  · simp only [Console.getByte] at hget
    split at hget
    · cases hget
      exact ⟨_, rfl⟩
    · cases hget
  · simp only [Console.putByte] at hput
    split at hput
    · cases hput
    · cases hput
      exact ⟨_, rfl⟩

/-- The fault of a byte that is no opcode names its address. -/
theorem Engine.offset_of_invalidInstruction {engine final : Engine Script} {opcode : UInt8}
    {offset : Nat} (h : Step engine (.failed (.invalidInstruction opcode offset)) final) :
    offset = engine.machine.ip.toNat ∧ engine.operandCount = 0 := by
  have hstep := h
  cases h with
  | unknown hopcode => exact ⟨rfl, operandCount_of_unknown hopcode⟩
  | fails hdecode hhalt hallows hfailure hexecute =>
      obtain ⟨reason, hreason⟩ :=
        Script.exists_reason (consoleFails_of_decoding hdecode hstep trivial)
      cases hreason

/-! ## The report -/

namespace Runner

/-- The record of how a run has ended, and the exit code. -/
def conclusion (report : RunReport) : Option (UInt32 × Record) :=
  match report.verdict with
  | .running => none
  | .halted =>
    some (0, ⟨.info, "Halted after " ++ Decimal.ofNat report.steps ++ " instructions"⟩)
  | .failed fault =>
    some (1, ⟨.error, "Execution failed at address " ++
      Decimal.ofNat report.machine.ip.toNat ++ ": " ++ fault.message⟩)

variable {options : Options} {image : Image} {world after : World} {report : RunReport}

/-- When the run is over, the command logs its conclusion and nothing behind it. -/
theorem run_runLoaded (hrun : World.runImage options.settings image world = (report, after)) :
    match conclusion report with
    | none => (runLoaded options image : StateM World (Option UInt32)).run world = (none, after)
    | some (code, record) =>
      ∃ output, (runLoaded options image : StateM World (Option UInt32)).run world =
        (some code, { after with output, records := after.records.push record }) := by
  have hfirst : (Host.runImage options.settings image : StateM World RunReport).run world =
      (report, after) := hrun
  rw [runLoaded, StateT.run_bind, hfirst]
  obtain ⟨verdict, machine, steps⟩ := report
  cases verdict with
  | running => rfl
  | halted => cases options.dump <;> exact ⟨_, rfl⟩
  | failed fault => cases options.dump <;> exact ⟨_, rfl⟩

end Runner

/-- **The logged address.**  Run any image with any options on any input, and let the command
fail.  Then some instructions have been completed, and the next one fails: it cannot be
decoded, it is refused, or its operation fails.  The last record names the fault and an
address, which is that of the byte at the instruction pointer before the step, plus the
number of operand bytes that this byte asks for.  It is the address of the instruction if
that number is zero, in particular if the byte is no opcode, and only then.  A traced run
has noted the instruction right before, with its own address. -/
theorem failure_logged_at_last_byte (options : Runner.Options) (image : Image) (world : World)
    (hexit : ((Runner.runLoaded options image : StateM World (Option UInt32)).run world).1 =
      some 1) :
    let after := ((Runner.runLoaded options image : StateM World (Option UInt32)).run world).2
    let start := (Engine.start (Script.start world.input none) options.settings).load image
    ∃ completed failing final fault logged earlier,
      Engine.Steps completed start failing ∧ Engine.Step failing (.failed fault) final ∧
      after.records = Array.push earlier ⟨.error,
        "Execution failed at address " ++ Decimal.ofNat logged ++ ": " ++ fault.message⟩ ∧
      logged = (failing.machine.ip.toNat + failing.operandCount) % memorySize ∧
      (logged = failing.machine.ip.toNat ↔ failing.operandCount = 0) ∧
      (∀ opcode offset, fault = .invalidInstruction opcode offset → logged = offset) ∧
      (options.settings.trace = true → ∀ instruction, failing.Decodes instruction →
        earlier.back? = some (Event.decoded failing.machine.ip instruction).record) := by
  intro after start
  let progress := start.run world.patience
  have hrun : World.runImage options.settings image world =
      (⟨progress.verdict, progress.engine.machine, progress.engine.budget.used⟩,
        { world with
          input := progress.engine.session.console.input
          output := world.output ++ progress.engine.session.console.output
          records := world.records ++ progress.events.map Event.record }) := rfl
  have hcommand := Runner.run_runLoaded hrun
  cases hverdict : progress.verdict with
  | running =>
      rw [Runner.conclusion, hverdict] at hcommand
      rw [hcommand] at hexit
      cases hexit
  | halted =>
      rw [Runner.conclusion, hverdict] at hcommand
      obtain ⟨output, hcommand⟩ := hcommand
      rw [hcommand] at hexit
      cases hexit
  | failed fault =>
      rw [Runner.conclusion, hverdict] at hcommand
      obtain ⟨output, hcommand⟩ := hcommand
      have hended : progress.verdict ≠ .running := by
        rw [hverdict]
        exact Verdict.noConfusion
      obtain ⟨completed, failing, before, hsteps, hlast⟩ := Engine.exists_last_turn hended
      have hprogress : progress = failing.turn before := hlast
      have hstep : Engine.Step failing (.failed fault) progress.engine := by
        have hturn := Engine.step_turn failing before
        rw [← hprogress, hverdict] at hturn
        exact hturn
      have hlogged := Engine.toNat_ip_of_failed hstep
      refine ⟨completed, failing, progress.engine, fault, progress.engine.machine.ip.toNat,
        world.records ++ progress.events.map Event.record, hsteps, hstep, ?_, hlogged, ?_, ?_, ?_⟩
      · exact congrArg (fun run : Option UInt32 × World => run.2.records) hcommand
      · have hcount := failing.operandCount_le
        have hip := failing.machine.ip.toNat_lt
        rw [memorySize] at hlogged
        omega
      · intro opcode offset hfault
        rw [hfault] at hstep
        obtain ⟨hoffset, hcount⟩ := Engine.offset_of_invalidInstruction hstep
        rw [hlogged, hcount, hoffset]
        exact Nat.mod_eq_of_lt failing.machine.ip.toNat_lt
      · intro htrace instruction hdecode
        have htraced : failing.settings.trace = true := by
          rw [Engine.settings_of_steps hsteps]
          exact htrace
        have hevents := Engine.events_of_failed hdecode hstep before
        rw [← hprogress, Engine.note, if_pos htraced] at hevents
        rw [hevents]
        simp

/-- A limit refuses the second instruction of a program. -/
theorem failure_logged_at_last_byte_limit :
    let options : Runner.Options := ⟨⟨true, some 1⟩, false⟩
    let image : Image := ⟨[74, 1, 74, 2, 0], by decide⟩
    let run := (Runner.runLoaded options image : StateM World (Option UInt32)).run
      (World.start FileTree.empty [] 0)
    run.1 = some 1 ∧
      ∃ (failing : Engine Script) (fault : Fault) (logged : Nat) (earlier : Array Record),
        run.2.records = earlier.push ⟨.error,
          "Execution failed at address " ++ Decimal.ofNat logged ++ ": " ++ fault.message⟩ ∧
        logged = (failing.machine.ip.toNat + failing.operandCount) % memorySize ∧
        ∀ instruction, failing.Decodes instruction →
          earlier.back? = some (Event.decoded failing.machine.ip instruction).record := by
  intro options image run
  have hexit : run.1 = some 1 := by decide +kernel
  obtain ⟨-, failing, -, fault, logged, earlier, -, -, hrecords, hlogged, -, -, hnoted⟩ :=
    failure_logged_at_last_byte options image _ hexit
  exact ⟨hexit, failing, fault, logged, earlier, hrecords, hlogged, hnoted rfl⟩

/-- **A failure is not logged where it is.**  The first instruction of a program, at address
0, divides by zero.  The trace says so, and the last record names address 2. -/
theorem division_logged_behind_opcode :
    let run := (Runner.runLoaded ⟨⟨true, none⟩, false⟩ ⟨[37, 7, 0], by decide⟩ :
      StateM World (Option UInt32)).run (World.start FileTree.empty [] 9)
    run.1 = some 1 ∧ run.2.records = #[⟨.debug, "  0: div 7 a"⟩,
      ⟨.error, "Execution failed at address 2: division by zero"⟩] := by
  decide +kernel

end ByteMachine
