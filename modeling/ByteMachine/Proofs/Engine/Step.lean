import ByteMachine.Proofs.Engine.Fetch
import ByteMachine.Proofs.Machine.Failure

/-!
# The engine step by step

`Engine.Step` says what one instruction does to an engine, without any mention of
how its bytes are fetched: the byte at the instruction pointer tells how long the
instruction is, all its bytes are decoded at once, and the instruction pointer
stands on the last one of them while the operation is executed.

* `Engine.Step` — the step relation;
* `Engine.perform_of_limit`, `Engine.perform_of_error`, `Engine.perform_of_ip_eq`,
  `Engine.perform_of_ip_ne` — what performing an instruction comes to;
* `Engine.step_iff_turn` — a turn of the engine is a step, and every step is a turn.
-/

namespace ByteMachine

/-! ## Budgets -/

namespace Budget

/-- The limit allows one more instruction. -/
def Allows (budget : Budget) : Prop :=
  ∀ limit, budget.limit = some limit → budget.used < limit

/-- One more instruction that is allowed is counted. -/
theorem charge_of_allows {budget : Budget} (h : budget.Allows) :
    budget.charge = .ok budget.count := by
  unfold charge
  split
  case h_1 => rfl
  case h_2 limit hlimit => rw [if_pos (h limit hlimit)]

/-- One more instruction that is not allowed is refused. -/
theorem charge_of_limit {budget : Budget} {limit : Nat} (hlimit : budget.limit = some limit)
    (hused : limit ≤ budget.used) : budget.charge = .error (.stepLimitExceeded limit) := by
  rw [charge, hlimit]
  exact if_neg (Nat.not_lt_of_ge hused)

/-- What is not allowed is beyond a limit. -/
theorem exists_limit_of_not_allows {budget : Budget} (h : ¬ budget.Allows) :
    ∃ limit, budget.limit = some limit ∧ limit ≤ budget.used := by
  simpa [Allows] using h

end Budget

namespace Engine

variable {σ : Type}

/-! ## Steps -/

/-- The byte at the instruction pointer. -/
def opcodeByte (engine : Engine σ) : UInt8 :=
  (engine.machine.read engine.machine.ip).toUInt8

/-- The bytes behind the instruction pointer that are the operand bytes of an
opcode. -/
def operandBytes (engine : Engine σ) (opcode : Opcode) : List UInt8 :=
  engine.machine.bytesAt (engine.machine.ip + 1) opcode.shape.operandBytes

/-- The address of the last byte of an instruction with an opcode. -/
def lastAddress (engine : Engine σ) (opcode : Opcode) : UInt8 :=
  engine.machine.ip + UInt8.ofNat opcode.shape.operandBytes

/-- The instruction pointer on the last byte of an instruction with an opcode, and
nothing else changed. -/
def onLast (engine : Engine σ) (opcode : Opcode) : Engine σ :=
  engine.withMachine (engine.machine.jumpTo (engine.lastAddress opcode))

theorem ip_onLast (engine : Engine σ) (opcode : Opcode) :
    (engine.onLast opcode).machine.ip = engine.lastAddress opcode :=
  Machine.ip_jumpTo _ _

/-- The bytes from the instruction pointer on, as many as the instruction has, are
the instruction. -/
def Decodes (engine : Engine σ) (instruction : Instruction) : Prop :=
  Instruction.decode (engine.machine.bytesAt engine.machine.ip instruction.length) =
    .ok (some instruction)

instance (engine : Engine σ) (instruction : Instruction) :
    Decidable (engine.Decodes instruction) :=
  inferInstanceAs (Decidable (_ = _))

/-- An instruction decodes exactly if its opcode and its operands are in memory. -/
theorem decodes_iff {engine : Engine σ} {instruction : Instruction} :
    engine.Decodes instruction ↔
      Opcode.ofByte? engine.opcodeByte = some instruction.opcode ∧
        Operand.decode instruction.opcode.shape (engine.operandBytes instruction.opcode) =
          .ok instruction.operands := by
  rw [Decodes, Instruction.decode_eq_some, Instruction.length, Nat.add_comm,
    Machine.bytesAt_succ_eq_cons, Instruction.encode, List.cons.injEq,
    Opcode.ofByte?_eq_some, Operand.decode_eq_ok]
  exact and_left_comm

/-- What is fetched of an instruction that decodes. -/
theorem fetch_of_decodes {engine : Engine σ} {instruction : Instruction}
    (h : engine.Decodes instruction) :
    fetch engine.machine.ip engine.machine [] =
      (.ok instruction, (engine.onLast instruction.opcode).machine) := by
  obtain ⟨hopcode, hoperands⟩ := decodes_iff.mp h
  have hfetch := fetch_known hopcode
  rw [operandBytes] at hoperands
  rw [hoperands] at hfetch
  exact hfetch

/-- Only one instruction decodes. -/
theorem eq_of_decodes {engine : Engine σ} {instruction other : Instruction}
    (h : engine.Decodes instruction) (hother : engine.Decodes other) :
    instruction = other := by
  have hfetch := (fetch_of_decodes h).symm.trans (fetch_of_decodes hother)
  exact Except.ok.inj (congrArg Prod.fst hfetch)

/-- Nothing decodes where the byte is no opcode. -/
theorem not_decodes_of_unknown {engine : Engine σ}
    (h : Opcode.ofByte? engine.opcodeByte = none) (instruction : Instruction) :
    ¬ engine.Decodes instruction := by
  intro hdecode
  have hopcode := (decodes_iff.mp hdecode).1
  rw [h] at hopcode
  cases hopcode

/-- Nothing decodes where a field of the operands should be an index and is not. -/
theorem not_decodes_of_badSymbol {engine : Engine σ} {opcode : Opcode} {index : UInt8}
    (hopcode : Opcode.ofByte? engine.opcodeByte = some opcode)
    (hindex : (opcode.shape.symbolFields (engine.operandBytes opcode)).find? (12 ≤ ·) =
      some index) (instruction : Instruction) : ¬ engine.Decodes instruction := by
  intro hdecode
  obtain ⟨hother, hoperands⟩ := decodes_iff.mp hdecode
  obtain rfl : opcode = instruction.opcode := Option.some.inj (hopcode.symm.trans hother)
  have hfails := (Operand.decode_eq_error (Machine.length_bytesAt engine.machine _ _)).mpr
    ⟨index, hindex, rfl⟩
  have hboth := hoperands.symm.trans hfails
  cases hboth

variable [Console σ]

/-- What one instruction does to an engine, and whether the run goes on. -/
inductive Step (engine : Engine σ) : Verdict → Engine σ → Prop
  /-- The byte at the instruction pointer is no opcode. -/
  | unknown (hopcode : Opcode.ofByte? engine.opcodeByte = none) :
      Step engine
        (.failed (.invalidInstruction engine.opcodeByte engine.machine.ip.toNat)) engine
  /-- An operand byte or a half of one should be the index of a symbol and is
  not. -/
  | badSymbol {opcode : Opcode} {index : UInt8}
      (hopcode : Opcode.ofByte? engine.opcodeByte = some opcode)
      (hindex : (opcode.shape.symbolFields (engine.operandBytes opcode)).find? (12 ≤ ·) =
        some index) :
      Step engine (.failed (.invalidRegisterIndex index)) (engine.onLast opcode)
  /-- The instruction is a halt. -/
  | halts {instruction : Instruction} (hdecode : engine.Decodes instruction)
      (hhalt : instruction.operation = .halt) :
      Step engine .halted (engine.onLast instruction.opcode)
  /-- The limit is used up. -/
  | refused {instruction : Instruction} {limit : Nat}
      (hdecode : engine.Decodes instruction) (hhalt : instruction.operation ≠ .halt)
      (hlimit : engine.budget.limit = some limit) (hused : limit ≤ engine.budget.used) :
      Step engine (.failed (.stepLimitExceeded limit)) (engine.onLast instruction.opcode)
  /-- The operation fails, and leaves the machine alone. -/
  | fails {instruction : Instruction} {fault : Fault} {session : Session σ}
      (hdecode : engine.Decodes instruction) (hhalt : instruction.operation ≠ .halt)
      (hallows : engine.budget.Allows)
      (hfailure : Failure (engine.onLast instruction.opcode).session fault session)
      (hexecute : execute instruction.operation instruction.operands
        (engine.onLast instruction.opcode).session = .error fault session) :
      Step engine (.failed fault)
        { (engine.onLast instruction.opcode).withConsole session.console with
          budget := engine.budget.count }
  /-- The operation leaves the instruction pointer on the last byte, and the next
  instruction is behind it. -/
  | fallsThrough {instruction : Instruction} {session : Session σ}
      (hdecode : engine.Decodes instruction) (hhalt : instruction.operation ≠ .halt)
      (hallows : engine.budget.Allows)
      (hexecute : execute instruction.operation instruction.operands
        (engine.onLast instruction.opcode).session = .ok () session)
      (hip : session.machine.ip = engine.lastAddress instruction.opcode) :
      Step engine .running
        { engine with
          session := { session with
            machine := session.machine.jumpTo (engine.lastAddress instruction.opcode + 1) }
          budget := engine.budget.count }
  /-- The operation moves the instruction pointer to the next instruction. -/
  | jumps {instruction : Instruction} {session : Session σ}
      (hdecode : engine.Decodes instruction) (hhalt : instruction.operation ≠ .halt)
      (hallows : engine.budget.Allows)
      (hexecute : execute instruction.operation instruction.operands
        (engine.onLast instruction.opcode).session = .ok () session)
      (hip : session.machine.ip ≠ engine.lastAddress instruction.opcode) :
      Step engine .running { engine with session, budget := engine.budget.count }

/-! ## Turns -/

/-- A turn at what is no opcode fails. -/
theorem turn_of_unknown {engine : Engine σ}
    (h : Opcode.ofByte? engine.opcodeByte = none) (events : Array Event) :
    engine.turn events =
      ⟨.failed (.invalidInstruction engine.opcodeByte engine.machine.ip.toNat), engine,
        events⟩ := by
  rw [turn, fetch_unknown h]
  rfl

/-- A turn at an opcode with a field that is no index fails. -/
theorem turn_of_badSymbol {engine : Engine σ} {opcode : Opcode} {index : UInt8}
    (hopcode : Opcode.ofByte? engine.opcodeByte = some opcode)
    (hindex : (opcode.shape.symbolFields (engine.operandBytes opcode)).find? (12 ≤ ·) =
      some index) (events : Array Event) :
    engine.turn events =
      ⟨.failed (.invalidRegisterIndex index), engine.onLast opcode, events⟩ := by
  have hfetch := fetch_known hopcode
  have hoperands := (Operand.decode_eq_error (Machine.length_bytesAt engine.machine
    (engine.machine.ip + 1) opcode.shape.operandBytes)).mpr ⟨index, hindex, rfl⟩
  rw [hoperands] at hfetch
  rw [turn, hfetch]
  rfl

/-- A turn with a halt ends the run. -/
theorem turn_of_halt {engine : Engine σ} {instruction : Instruction}
    (h : engine.Decodes instruction) (hhalt : instruction.operation = .halt)
    (events : Array Event) :
    engine.turn events = ⟨.halted, engine.onLast instruction.opcode,
      engine.note events (.decoded engine.machine.ip instruction)⟩ := by
  rw [turn, fetch_of_decodes h]
  exact if_pos hhalt

/-- A turn with another instruction performs it. -/
theorem turn_of_ne_halt {engine : Engine σ} {instruction : Instruction}
    (h : engine.Decodes instruction) (hhalt : instruction.operation ≠ .halt)
    (events : Array Event) :
    engine.turn events = (engine.onLast instruction.opcode).perform instruction
      (engine.note events (.decoded engine.machine.ip instruction)) := by
  rw [turn, fetch_of_decodes h]
  exact if_neg hhalt

/-- An instruction beyond the limit is not performed. -/
theorem perform_of_limit {engine : Engine σ} {limit : Nat}
    (hlimit : engine.budget.limit = some limit) (hused : limit ≤ engine.budget.used)
    (instruction : Instruction) (events : Array Event) :
    engine.perform instruction events =
      ⟨.failed (.stepLimitExceeded limit), engine, events⟩ := by
  rw [perform, Budget.charge_of_limit hlimit hused]

/-- An operation that fails ends the run. -/
theorem perform_of_error {engine : Engine σ} {instruction : Instruction} {fault : Fault}
    {session : Session σ} (hallows : engine.budget.Allows)
    (hexecute : execute instruction.operation instruction.operands engine.session =
      .error fault session) (events : Array Event) :
    engine.perform instruction events =
      ⟨.failed fault, { engine with session, budget := engine.budget.count }, events⟩ := by
  simp only [perform, Budget.charge_of_allows hallows, hexecute]

/-- An operation that leaves the instruction pointer alone is followed by the next
address. -/
theorem perform_of_ip_eq {engine : Engine σ} {instruction : Instruction}
    {session : Session σ} (hallows : engine.budget.Allows)
    (hexecute : execute instruction.operation instruction.operands engine.session =
      .ok () session)
    (hip : session.machine.ip = engine.machine.ip) (events : Array Event) :
    engine.perform instruction events =
      ⟨.running,
        { engine with
          session := { session with
            machine := session.machine.jumpTo (engine.machine.ip + 1) }
          budget := engine.budget.count }, events⟩ := by
  simp only [perform, Budget.charge_of_allows hallows, hexecute]
  refine (if_pos hip).trans ?_
  rw [← hip]
  rfl

/-- An operation that moves the instruction pointer is followed by where it points
to. -/
theorem perform_of_ip_ne {engine : Engine σ} {instruction : Instruction}
    {session : Session σ} (hallows : engine.budget.Allows)
    (hexecute : execute instruction.operation instruction.operands engine.session =
      .ok () session)
    (hip : session.machine.ip ≠ engine.machine.ip) (events : Array Event) :
    engine.perform instruction events =
      ⟨.running, { engine with session, budget := engine.budget.count },
        engine.note events (.jumped session.machine.ip)⟩ := by
  simp only [perform, Budget.charge_of_allows hallows, hexecute]
  exact (if_neg hip).trans rfl

/-- After a failure only the console can be another one. -/
theorem session_eq_of_failure {engine : Engine σ} {fault : Fault} {session : Session σ}
    (h : Failure engine.session fault session) :
    session = ⟨engine.machine, session.console⟩ := by
  rw [Engine.machine, ← h.machine_eq]

/-- What performing an instruction does is a step. -/
private theorem step_perform {engine : Engine σ} {instruction : Instruction}
    (hdecode : engine.Decodes instruction) (hhalt : instruction.operation ≠ .halt)
    (events : Array Event) :
    Step engine ((engine.onLast instruction.opcode).perform instruction events).verdict
      ((engine.onLast instruction.opcode).perform instruction events).engine := by
  by_cases hallows : engine.budget.Allows
  · have hlast : (engine.onLast instruction.opcode).budget.Allows := hallows
    cases hexecute : execute instruction.operation instruction.operands
        (engine.onLast instruction.opcode).session with
    | error fault session =>
        have hfailure := execute_error hexecute
        rw [perform_of_error hlast hexecute, session_eq_of_failure hfailure]
        exact .fails hdecode hhalt hallows hfailure hexecute
    | ok answer session =>
        by_cases hip : session.machine.ip = engine.lastAddress instruction.opcode
        · rw [perform_of_ip_eq hlast hexecute (hip.trans (ip_onLast _ _).symm), ip_onLast]
          exact .fallsThrough hdecode hhalt hallows hexecute hip
        · rw [perform_of_ip_ne hlast hexecute (fun h => hip (h.trans (ip_onLast _ _)))]
          exact .jumps hdecode hhalt hallows hexecute hip
  · obtain ⟨limit, hlimit, hused⟩ := Budget.exists_limit_of_not_allows hallows
    have hlast : (engine.onLast instruction.opcode).budget.limit = some limit := hlimit
    rw [perform_of_limit hlast hused]
    exact .refused hdecode hhalt hlimit hused

/-- **Turns are steps.**  What a turn does is a step. -/
theorem step_turn (engine : Engine σ) (events : Array Event) :
    Step engine (engine.turn events).verdict (engine.turn events).engine := by
  cases hopcode : Opcode.ofByte? engine.opcodeByte with
  | none =>
      rw [turn_of_unknown hopcode]
      exact .unknown hopcode
  | some opcode =>
      cases hoperands : Operand.decode opcode.shape (engine.operandBytes opcode) with
      | error fault =>
          obtain ⟨index, hindex, rfl⟩ :=
            (Operand.decode_eq_error (Machine.length_bytesAt _ _ _)).mp hoperands
          rw [turn_of_badSymbol hopcode hindex]
          exact .badSymbol hopcode hindex
      | ok operands =>
          have hdecode : engine.Decodes ⟨opcode, operands⟩ :=
            decodes_iff.mpr ⟨hopcode, hoperands⟩
          by_cases hhalt : (Instruction.mk opcode operands).operation = .halt
          · rw [turn_of_halt hdecode hhalt]
            exact .halts hdecode hhalt
          · rw [turn_of_ne_halt hdecode hhalt]
            exact step_perform hdecode hhalt _

/-- What a step does, a turn does. -/
theorem turn_of_step {engine next : Engine σ} {verdict : Verdict}
    (h : Step engine verdict next) (events : Array Event) :
    (engine.turn events).verdict = verdict ∧ (engine.turn events).engine = next := by
  cases h with
  | unknown hopcode =>
      rw [turn_of_unknown hopcode]
      exact ⟨rfl, rfl⟩
  | badSymbol hopcode hindex =>
      rw [turn_of_badSymbol hopcode hindex]
      exact ⟨rfl, rfl⟩
  | halts hdecode hhalt =>
      rw [turn_of_halt hdecode hhalt]
      exact ⟨rfl, rfl⟩
  | @refused instruction limit hdecode hhalt hlimit hused =>
      have hlast : (engine.onLast instruction.opcode).budget.limit = some limit := hlimit
      rw [turn_of_ne_halt hdecode hhalt, perform_of_limit hlast hused]
      exact ⟨rfl, rfl⟩
  | @fails instruction fault session hdecode hhalt hallows hfailure hexecute =>
      have hlast : (engine.onLast instruction.opcode).budget.Allows := hallows
      rw [turn_of_ne_halt hdecode hhalt, perform_of_error hlast hexecute]
      refine ⟨rfl, ?_⟩
      rw [session_eq_of_failure hfailure]
      rfl
  | @fallsThrough instruction session hdecode hhalt hallows hexecute hip =>
      have hlast : (engine.onLast instruction.opcode).budget.Allows := hallows
      rw [turn_of_ne_halt hdecode hhalt,
        perform_of_ip_eq hlast hexecute (hip.trans (ip_onLast _ _).symm), ip_onLast]
      exact ⟨rfl, rfl⟩
  | @jumps instruction session hdecode hhalt hallows hexecute hip =>
      have hlast : (engine.onLast instruction.opcode).budget.Allows := hallows
      rw [turn_of_ne_halt hdecode hhalt,
        perform_of_ip_ne hlast hexecute (fun h => hip (h.trans (ip_onLast _ _)))]
      exact ⟨rfl, rfl⟩

/-- **Steps are turns.**  An engine makes a step exactly if its turn does so. -/
theorem step_iff_turn {engine next : Engine σ} {verdict : Verdict} (events : Array Event) :
    Step engine verdict next ↔
      (engine.turn events).verdict = verdict ∧ (engine.turn events).engine = next := by
  constructor
  · exact fun h => turn_of_step h events
  · rintro ⟨rfl, rfl⟩
    exact step_turn engine events

end Engine

end ByteMachine
