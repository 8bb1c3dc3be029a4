import ByteMachine.Proofs.Engine.Failure
import ByteMachine.Proofs.Engine.Limit
import ByteMachine.Proofs.Machine.Frame

/-!
# Traces

A trace lists the instructions that are completed from one engine to another.  Between
two of them the machine changes where the first one touches it, and the instruction
pointer moves; a run that ends moves the instruction pointer and changes nothing else.
What no instruction of a trace touches is therefore at its end what it was at its
start.

* `Engine.Trace` — instructions completed in a row;
* `Engine.machine_of_completed` — one of them: its effect, and a move of the
  instruction pointer;
* `Engine.agreesAt_of_trace` — all of them: the locations that none of them touches;
* `Engine.Trace.reserved` — two flags stay false behind a load;
* `unchanged_of_untouched` — frames of operations and of runs.
-/

namespace ByteMachine

namespace Machine

/-- Moving the instruction pointer leaves the other locations alone. -/
theorem agreesAt_jumpTo {machine : Machine} {location : Location} (h : location ≠ .register .ip)
    (address : UInt8) : (machine.jumpTo address).AgreesAt machine location :=
  agreesAt_setRegister h _

end Machine

namespace Engine

variable {σ : Type} [Console σ]

/-! ## Steps -/

/-- **Completed instructions.**  A step that leaves the run running has the effect of the
instruction, executed on its last byte, and moves the instruction pointer. -/
theorem machine_of_completed {engine next : Engine σ} {instruction : Instruction}
    (hdecode : engine.Decodes instruction) (hstep : Step engine .running next) :
    ∃ machine address,
      Effect (engine.onLast instruction.opcode).machine instruction.operands
        instruction.operation machine ∧
      next.machine = machine.jumpTo address := by
  cases hstep with
  | @fallsThrough other session hother hhalt hallows hexecute hip =>
      obtain rfl := eq_of_decodes hdecode hother
      exact ⟨session.machine, _, execute_ok hexecute, rfl⟩
  | @jumps other session hother hhalt hallows hexecute hip =>
      obtain rfl := eq_of_decodes hdecode hother
      exact ⟨session.machine, _, execute_ok hexecute, (Machine.jumpTo_ip _).symm⟩

/-- A step that ends the run moves the instruction pointer and changes nothing else in
the machine. -/
theorem machine_of_ended {engine next : Engine σ} {verdict : Verdict}
    (hverdict : verdict ≠ .running) (hstep : Step engine verdict next) :
    ∃ address, next.machine = engine.machine.jumpTo address := by
  cases verdict with
  | running => exact absurd rfl hverdict
  | failed fault => exact machine_of_failed hstep
  | halted =>
      cases hstep with
      | @halts instruction hdecode hhalt => exact ⟨engine.lastAddress instruction.opcode, rfl⟩

/-! ## Traces -/

/-- Instructions that are completed one after the other.  A run that has ended may be
taken up again where it has ended. -/
inductive Trace : Engine σ → List Instruction → Engine σ → Prop
  | nil (engine : Engine σ) : Trace engine [] engine
  | completed {engine next final : Engine σ} {instruction : Instruction}
      {rest : List Instruction} (hdecode : engine.Decodes instruction)
      (hstep : Step engine .running next) (hrest : Trace next rest final) :
      Trace engine (instruction :: rest) final
  | ended {engine next final : Engine σ} {verdict : Verdict} {rest : List Instruction}
      (hverdict : verdict ≠ .running) (hstep : Step engine verdict next)
      (hrest : Trace next rest final) : Trace engine rest final

/-- Traces in a row are a trace. -/
theorem Trace.trans {engine middle final : Engine σ} {front rest : List Instruction}
    (h : Trace engine front middle) (hrest : Trace middle rest final) :
    Trace engine (front ++ rest) final := by
  induction h with
  | nil engine => exact hrest
  | completed hdecode hstep _ ih => exact .completed hdecode hstep (ih hrest)
  | ended hverdict hstep _ ih => exact .ended hverdict hstep (ih hrest)

/-- Steps that leave the run running are a trace. -/
theorem exists_trace_of_steps {count : Nat} {engine final : Engine σ}
    (hsteps : Steps count engine final) : ∃ instructions, Trace engine instructions final := by
  induction hsteps with
  | zero engine => exact ⟨[], .nil engine⟩
  | succ hstep hrest ih =>
      obtain ⟨instruction, hdecode, -⟩ := charges_of_running hstep
      obtain ⟨rest, htrace⟩ := ih
      exact ⟨instruction :: rest, .completed hdecode hstep htrace⟩

/-- **Runs are traces.**  A run of any number of turns leads along a trace. -/
theorem exists_trace_of_runFor (engine : Engine σ) (turns : Nat) (events : Array Event) :
    ∃ instructions, Trace engine instructions (engine.runFor turns events).engine := by
  rcases runFor_cases turns engine events with
    ⟨-, hsteps⟩ | ⟨hverdict, count, middle, -, hsteps, hlast⟩
  · exact exists_trace_of_steps hsteps
  · obtain ⟨instructions, htrace⟩ := exists_trace_of_steps hsteps
    exact ⟨_, htrace.trans (.ended hverdict hlast (.nil _))⟩

/-- **Frames of traces.**  A location, apart from the instruction pointer, that no
instruction of a trace touches is at its end what it was at its start. -/
theorem agreesAt_of_trace {engine final : Engine σ} {instructions : List Instruction}
    {location : Location} (h : Trace engine instructions final) (hip : location ≠ .register .ip)
    (hlocation : ∀ instruction ∈ instructions, ∀ machine,
      location ∉ instruction.operation.touched machine instruction.operands) :
    final.machine.AgreesAt engine.machine location := by
  -- On the trace; the instruction pointer is left out because fetching moves it as well.
  induction h with
  | nil engine => exact .refl _ _
  | @completed engine next final instruction rest hdecode hstep hrest ih =>
      obtain ⟨hfirst, hothers⟩ := List.forall_mem_cons.mp hlocation
      obtain ⟨machine, address, heffect, hnext⟩ := machine_of_completed hdecode hstep
      have hstart : (engine.onLast instruction.opcode).machine.AgreesAt engine.machine location :=
        Machine.agreesAt_jumpTo hip _
      have hstep : next.machine.AgreesAt engine.machine location := by
        rw [hnext]
        exact (Machine.agreesAt_jumpTo hip _).trans
          ((heffect.frame (hfirst _)).trans hstart)
      exact (ih hothers).trans hstep
  | ended hverdict hstep hrest ih =>
      obtain ⟨address, hnext⟩ := machine_of_ended hverdict hstep
      refine (ih hlocation).trans ?_
      rw [hnext]
      exact Machine.agreesAt_jumpTo hip address

/-- **Reserved flags.**  Behind a load the flags for carry and overflow stay false. -/
theorem Trace.reserved {engine final : Engine σ} {image : Image}
    {instructions : List Instruction} (h : Trace (engine.load image) instructions final)
    {f : Flag} (hf : f = .carry ∨ f = .overflow) : final.machine.flag f = false := by
  have hagrees : final.machine.AgreesAt (engine.load image).machine (.flag f) :=
    agreesAt_of_trace h Location.noConfusion fun _ _ _ => reserved_not_mem_touched hf
  refine Eq.trans hagrees ?_
  cases f <;> rfl

/-- The stack base stays zero behind a load until it is a destination. -/
theorem Trace.stackBase {engine final : Engine σ} {image : Image}
    {instructions : List Instruction} (h : Trace (engine.load image) instructions final)
    (hsb : ∀ instruction ∈ instructions,
      instruction.operation.result? instruction.operands ≠ some .sb) :
    final.machine.register .sb = 0 := by
  have hagrees : final.machine.AgreesAt (engine.load image).machine (.register .sb) := by
    refine agreesAt_of_trace h (by decide) fun instruction hmem machine htouched => ?_
    exact hsb instruction hmem (sb_mem_touched_iff.mp htouched)
  exact hagrees

end Engine

/-! ## Frames -/

open Engine in
/-- **What is not touched does not change.**  An operation that succeeds changes no
location that it does not touch.  Runs are traces; and behind a load the flags for carry
and overflow are false at the end of every trace, so that the jump for overflow never
jumps there and the one for no overflow always does, and the stack base is zero unless it
has been a destination. -/
theorem unchanged_of_untouched (σ : Type) [Console σ] :
    (∀ operation operands (session final : Session σ),
      execute operation operands session = .ok () final →
        ∀ location, location ∉ operation.touched session.machine operands →
          final.machine.AgreesAt session.machine location) ∧
    (∀ (engine : Engine σ) turns events,
      ∃ instructions, Trace engine instructions (engine.runFor turns events).engine) ∧
    ∀ (engine final : Engine σ) image instructions,
      Trace (engine.load image) instructions final →
        (∀ f, f = .carry ∨ f = .overflow → final.machine.flag f = false) ∧
        (∀ opcode operands,
          execute (.jump .jo) operands (final.onLast opcode).session =
            .ok () (final.onLast opcode).session) ∧
        (∀ opcode operands,
          execute (.jump .jno) operands (final.onLast opcode).session =
            .ok () { (final.onLast opcode).session with
              machine := (final.onLast opcode).machine.setRegister .ip
                ((final.onLast opcode).machine.value (operandAt operands 0)) }) ∧
        ((∀ instruction ∈ instructions,
            instruction.operation.result? instruction.operands ≠ some .sb) →
          final.machine.register .sb = 0) := by
  refine ⟨?_, exists_trace_of_runFor, ?_⟩
  · intro operation operands session final hexecute location hlocation
    exact (execute_ok hexecute).frame hlocation
  · intro engine final image instructions htrace
    have hoverflow : final.machine.flag .overflow = false := htrace.reserved (.inr rfl)
    refine ⟨fun f hf => htrace.reserved hf, ?_, ?_, htrace.stackBase⟩
    · intro opcode operands
      have htaken : Jump.jo.taken (final.onLast opcode).session.machine = false := hoverflow
      rw [execute_jump_eq, htaken]
      rfl
    · intro opcode operands
      have htaken : Jump.jno.taken (final.onLast opcode).session.machine = true :=
        congrArg not hoverflow
      rw [execute_jump_eq, htaken]
      rfl

open Engine in
/-- A bitwise negation that names the stack base, executed on its own and in a run. -/
theorem unchanged_of_untouched_not :
    let engine := (start (Script.start [] none) ⟨false, none⟩).load
      ⟨[10, 5, 85, 0], by decide⟩
    let instruction : Instruction := ⟨⟨10, by decide⟩, [.symbol (.register .sb)]⟩
    (∃ session,
      execute (.unary .not) [.symbol (.register .sb)] engine.session = .ok () session ∧
        session.machine.register .sb = engine.machine.register .sb) ∧
    ∃ final, Trace engine [instruction] final ∧ final.machine.flag .overflow = false ∧
      final.machine.register .sb = 0 := by
  intro engine instruction
  obtain ⟨hframe, -, hrun⟩ := unchanged_of_untouched Script
  have hdecode : engine.Decodes instruction := by decide +kernel
  have hstep : Step engine .running (engine.turn #[]).engine :=
    (step_iff_turn #[]).mpr ⟨by decide +kernel, rfl⟩
  have htrace := Trace.completed hdecode hstep (.nil _)
  obtain ⟨hflags, -, -, hsb⟩ := hrun _ _ _ _ htrace
  have hother : ∀ other ∈ [instruction],
      other.operation.result? other.operands ≠ some .sb := by decide
  have hkeeps := hframe (.unary .not) [.symbol (.register .sb)] engine.session _ rfl
    (.register .sb) (by decide)
  exact ⟨⟨_, rfl, hkeeps⟩, _, htrace, hflags .overflow (.inr rfl), hsb hother⟩

end ByteMachine
