import ByteMachine.Engine.Settings
import ByteMachine.Instruction.Basic
import ByteMachine.Machine.Execute

/-!
# The engine

The engine runs the program in memory from the instruction pointer on.  An
instruction does not say how long it is, so its bytes are fetched one at a time
until they decode.  During that the instruction pointer moves along and ends on
the last byte of the instruction.  The instruction is then charged to the step
budget and executed, and the instruction pointer moves to the next byte, unless
the operation has changed it.

* `fetch` — read one instruction;
* `Engine.turn` — read and execute one instruction;
* `Engine.runFor` — at most a given number of turns;
* `Engine.run` — turns until the run ends, where a run without a limit is given
  up after a number of turns that the caller chooses.
-/

namespace ByteMachine

/-- Something that a traced run reports. -/
inductive Event where
  /-- An instruction, with the address of its first byte. -/
  | decoded (address : UInt8) (instruction : Instruction)
  /-- The instruction pointer was changed by an operation. -/
  | jumped (target : UInt8)
deriving DecidableEq, Repr

namespace Event

/-- The message of an event in a log. -/
def text : Event → String
  | decoded address instruction =>
    alignRight 3 (Decimal.ofNat address.toNat) ++ ": " ++ instruction.text
  | jumped target => "     ip -> " ++ Decimal.ofNat target.toNat

/-- An event as a log record. -/
def record (event : Event) : Record :=
  ⟨.debug, event.text⟩

end Event

/-- Put the address of an instruction into the fault that its first byte
announces nothing. -/
def Fault.relocate (address : UInt8) : Fault → Fault
  | .invalidInstruction opcode _ => .invalidInstruction opcode address.toNat
  | fault => fault

/-- Fetch bytes behind those in the buffer until they decode.  `start` is the
address of the first byte. -/
def fetch (start : UInt8) (machine : Machine) (buffer : List UInt8) :
    Except Fault Instruction × Machine :=
  let bytes := buffer ++ [(machine.read machine.ip).toUInt8]
  match _h : Instruction.decode bytes with
  | .ok (some instruction) => (.ok instruction, machine)
  | .ok none => fetch start machine.advance bytes
  | .error fault => (.error (fault.relocate start), machine)
termination_by 3 - buffer.length
decreasing_by
  have hlt := Instruction.length_lt_of_decode_eq_none _h
  simp only [bytes, List.length_append, List.length_cons, List.length_nil] at hlt ⊢
  omega

/-- A machine with its console, its settings and its step budget. -/
structure Engine (σ : Type) where
  session : Session σ
  settings : Settings
  budget : Budget

/-- How a run stands. -/
inductive Verdict where
  /-- The run goes on. -/
  | running
  /-- The run has reached a halt. -/
  | halted
  /-- The run has failed. -/
  | failed (fault : Fault)
deriving DecidableEq, Repr

/-- How far a run has come. -/
structure Progress (σ : Type) where
  verdict : Verdict
  engine : Engine σ
  /-- The events so far, in order. -/
  events : Array Event

namespace Engine

variable {σ : Type}

/-- The machine of an engine. -/
def machine (engine : Engine σ) : Machine :=
  engine.session.machine

/-- Replace the machine of an engine. -/
def withMachine (engine : Engine σ) (machine : Machine) : Engine σ :=
  { engine with session := { engine.session with machine } }

/-- Replace the console of an engine. -/
def withConsole (engine : Engine σ) (console : σ) : Engine σ :=
  { engine with session := { engine.session with console } }

/-- An engine with a cleared machine. -/
def start (console : σ) (settings : Settings) : Engine σ :=
  { session := { machine := .cleared, console }
    settings
    budget := Budget.start settings.stepLimit }

/-- Load an image into a cleared machine and forget the instructions executed
before. -/
def load (engine : Engine σ) (image : Image) : Engine σ :=
  { engine.withMachine (Machine.cleared.load image) with
    budget := engine.budget.reset }

/-- Add an event, if the run is traced. -/
def note (engine : Engine σ) (events : Array Event) (event : Event) :
    Array Event :=
  if engine.settings.trace then events.push event else events

variable [Console σ]

/-- Execute an instruction that has been fetched: the instruction pointer is on
its last byte. -/
def perform (engine : Engine σ) (instruction : Instruction)
    (events : Array Event) : Progress σ :=
  match engine.budget.charge with
  | .error fault => ⟨.failed fault, engine, events⟩
  | .ok budget =>
    let before := engine.machine.ip
    match execute instruction.operation instruction.operands engine.session with
    | .error fault session =>
      ⟨.failed fault, { engine with session, budget }, events⟩
    | .ok () session =>
      let engine := { engine with session, budget }
      let after := engine.machine.ip
      if after = before then
        ⟨.running, engine.withMachine engine.machine.advance, events⟩
      else ⟨.running, engine, engine.note events (.jumped after)⟩

/-- Fetch and execute one instruction. -/
def turn (engine : Engine σ) (events : Array Event) : Progress σ :=
  let start := engine.machine.ip
  match fetch start engine.machine [] with
  | (.error fault, machine) =>
    ⟨.failed fault, engine.withMachine machine, events⟩
  | (.ok instruction, machine) =>
    let engine := engine.withMachine machine
    let events := engine.note events (.decoded start instruction)
    if instruction.operation = .halt then ⟨.halted, engine, events⟩
    else engine.perform instruction events

/-- At most `turns` turns. -/
def runFor (turns : Nat) (engine : Engine σ) (events : Array Event) :
    Progress σ :=
  match turns with
  | 0 => ⟨.running, engine, events⟩
  | turns + 1 =>
    match engine.turn events with
    | ⟨.running, engine, events⟩ => runFor turns engine events
    | progress => progress

/-- A number of turns after which a run has ended: every turn but the last one
uses up a part of the limit.  Without a limit it is `patience`. -/
def turnsNeeded (engine : Engine σ) (patience : Nat) : Nat :=
  match engine.budget.limit with
  | some limit => limit - engine.budget.used + 1
  | none => patience

/-- Run until a halt or a failure, or until the patience with a run without a
limit is used up. -/
def run (engine : Engine σ) (patience : Nat) : Progress σ :=
  engine.runFor (engine.turnsNeeded patience) #[]

/-- Load an image and run it. -/
def runImage (engine : Engine σ) (image : Image) (patience : Nat) : Progress σ :=
  (engine.load image).run patience

end Engine

end ByteMachine
