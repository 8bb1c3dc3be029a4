import ByteMachine.Proofs.Engine.Repetition

/-!
# Failed runs

An instruction is executed as a whole or not at all.  An operation that fails has
changed nothing, and what a run does in front of an operation, fetching the
instruction and charging it, moves the instruction pointer only.  A run that fails
therefore leaves the machine as the last completed instruction has left it, apart
from the instruction pointer.

* `Engine.machine_eq_of_failed` — a step that fails moves the instruction pointer;
* `execute_getc_of_not_register` — input without a register to go to is not asked
  for;
* `unchanged_of_failure` — failures of operations and failures of runs.
-/

namespace ByteMachine

namespace Machine

/-- Moving the instruction pointer leaves the other registers alone. -/
theorem register_jumpTo_of_ne (machine : Machine) (address : UInt8) {r : Register}
    (h : r ≠ .ip) : (machine.jumpTo address).register r = machine.register r :=
  Registers.get_set_of_ne _ _ h

end Machine

variable {σ : Type}

/-- The number of operand bytes that the byte at the instruction pointer asks for: none if it
is no opcode. -/
def Engine.operandCount (engine : Engine σ) : Nat :=
  match Opcode.ofByte? engine.opcodeByte with
  | some opcode => opcode.shape.operandBytes
  | none => 0

theorem Engine.operandCount_of_opcode {engine : Engine σ} {opcode : Opcode}
    (h : Opcode.ofByte? engine.opcodeByte = some opcode) :
    engine.operandCount = opcode.shape.operandBytes := by
  rw [operandCount, h]

theorem Engine.operandCount_of_unknown {engine : Engine σ}
    (h : Opcode.ofByte? engine.opcodeByte = none) : engine.operandCount = 0 := by
  rw [operandCount, h]

theorem Engine.operandCount_le (engine : Engine σ) : engine.operandCount ≤ 2 := by
  rw [operandCount]
  split
  · exact Shape.operandBytes_le _
  · exact Nat.zero_le 2

variable [Console σ]

/-- **Failed steps.**  A step that fails moves the instruction pointer to the last byte that
has been fetched, and changes nothing else in the machine. -/
theorem Engine.machine_eq_of_failed {engine final : Engine σ} {fault : Fault}
    (h : Step engine (.failed fault) final) :
    final.machine =
      engine.machine.jumpTo (engine.machine.ip + UInt8.ofNat engine.operandCount) := by
  cases h with
  | unknown hopcode =>
      rw [operandCount_of_unknown hopcode]
      exact ((congrArg _ (UInt8.add_zero _)).trans (Machine.jumpTo_ip _)).symm
  | badSymbol hopcode hindex =>
      rw [operandCount_of_opcode hopcode]
      rfl
  | refused hdecode hhalt hlimit hused =>
      rw [operandCount_of_opcode (decodes_iff.mp hdecode).1]
      rfl
  | fails hdecode hhalt hallows hfailure hexecute =>
      rw [operandCount_of_opcode (decodes_iff.mp hdecode).1]
      rfl

/-- A step that fails moves the instruction pointer only. -/
theorem Engine.machine_of_failed {engine final : Engine σ} {fault : Fault}
    (h : Step engine (.failed fault) final) :
    ∃ address, final.machine = engine.machine.jumpTo address :=
  ⟨_, machine_eq_of_failed h⟩

/-- Input that has no register to go to fails before the console is asked. -/
theorem execute_getc_of_not_register {operands : List Operand}
    (h : ∀ r, operandAt operands 0 ≠ .symbol (.register r)) (session : Session σ) :
    execute .getc operands session = .error (.expectedRegister "getc") session := by
  have hdestination : destination operands 0 .getc = .error (.expectedRegister "getc") := by
    unfold destination
    split
    case h_1 r hr => exact absurd hr (h r)
    case h_2 => rfl
  simp only [execute, hdestination]
  rfl

/-- How the console stands after an operation that fails: as before, or as a call
that fails with the same fault leaves it. -/
private theorem console_of_failure {session final : Session σ} {fault : Fault}
    (h : Failure session fault final) :
    final.console = session.console ∨
      Console.getByte session.console = .error fault final.console ∨
      ∃ byte, Console.putByte byte session.console = .error fault final.console := by
  cases h with
  | operation hfault => exact .inl rfl
  | input hinput => exact .inr (.inl hinput)
  | output houtput => exact .inr (.inr ⟨_, houtput⟩)

/-- **Failures leave nothing half done.**  An operation that fails leaves the machine
as it was, and the console too, unless it is a call of the console that has failed;
input that has no register to go to is not taken.  A run that fails does so some
completed instructions after its start, and since then only the instruction pointer
has changed: the other registers, the flags and the memory cells are as the last
completed instruction has left them. -/
theorem unchanged_of_failure (σ : Type) [Console σ] :
    (∀ operation operands (session final : Session σ) fault,
      execute operation operands session = .error fault final →
        final.machine = session.machine ∧
          (final.console = session.console ∨
            Console.getByte session.console = .error fault final.console ∨
            ∃ byte, Console.putByte byte session.console = .error fault final.console)) ∧
    (∀ operands (session : Session σ),
      (∀ r, operandAt operands 0 ≠ .symbol (.register r)) →
        execute .getc operands session = .error (.expectedRegister "getc") session) ∧
    ∀ (engine : Engine σ) patience fault, (engine.run patience).verdict = .failed fault →
      ∃ completed last, Engine.Steps completed engine last ∧
        Engine.Step last (.failed fault) (engine.run patience).engine ∧
        (∀ r, r ≠ .ip →
          (engine.run patience).engine.machine.register r = last.machine.register r) ∧
        (∀ f, (engine.run patience).engine.machine.flag f = last.machine.flag f) ∧
        ∀ address,
          (engine.run patience).engine.machine.read address = last.machine.read address := by
  refine ⟨?_, ?_, ?_⟩
  · intro operation operands session final fault h
    have hfailure := execute_error h
    exact ⟨hfailure.machine_eq, console_of_failure hfailure⟩
  · intro operands session h
    exact execute_getc_of_not_register h session
  · intro engine patience fault h
    have hended : (engine.run patience).verdict ≠ .running := by
      rw [h]
      exact Verdict.noConfusion
    obtain ⟨-, completed, last, hsteps, hstep⟩ := Engine.ends_of_run hended
    rw [h] at hstep
    obtain ⟨address, hmachine⟩ := Engine.machine_of_failed hstep
    refine ⟨completed, last, hsteps, hstep, ?_, ?_, ?_⟩
    · intro r hr
      rw [hmachine]
      exact Machine.register_jumpTo_of_ne _ _ hr
    · intro f
      rw [hmachine]
      rfl
    · intro other
      rw [hmachine]
      rfl

/-- Input for a flag, and a run that divides by zero in its third instruction. -/
theorem unchanged_of_failure_division :
    (∀ session final : Session Script,
      execute .getc [.symbol (.flag .zero)] session =
          .error (.expectedRegister "getc") final →
        final.machine = session.machine) ∧
    (∀ session : Session Script,
      execute .getc [.symbol (.flag .zero)] session =
        .error (.expectedRegister "getc") session) ∧
    let engine := (Engine.start (Script.start [] none) ⟨false, none⟩).load
      ⟨[77, 65, 1, 97, 1, 37, 7, 2], by decide⟩
    (engine.run 9).verdict = .failed .divisionByZero ∧
      ∃ completed last, Engine.Steps completed engine last ∧
        Engine.Step last (.failed .divisionByZero) (engine.run 9).engine ∧
        ∀ address,
          (engine.run 9).engine.machine.read address = last.machine.read address := by
  obtain ⟨hoperation, hinput, hrun⟩ := unchanged_of_failure Script
  refine ⟨?_, ?_, ?_⟩
  · intro session final h
    exact (hoperation _ _ _ _ _ h).1
  · intro session
    exact hinput _ _ (fun r h => by cases h)
  · intro engine
    have hverdict : (engine.run 9).verdict = .failed .divisionByZero := by decide +kernel
    obtain ⟨completed, last, hsteps, hstep, -, -, hcells⟩ := hrun engine 9 _ hverdict
    exact ⟨hverdict, completed, last, hsteps, hstep, hcells⟩

end ByteMachine
