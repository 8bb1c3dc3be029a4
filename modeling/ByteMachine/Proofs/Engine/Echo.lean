import ByteMachine.Assembly.Source
import ByteMachine.Proofs.Engine.Boundary
import ByteMachine.Proofs.Machine.Effect

/-!
# A program that copies its input

The program reads a byte, writes it, and starts again unless the byte is a full stop.  On
every input it does what it should, from its source text to the end of its run: it takes the
bytes up to the first full stop, and gives back just these.

A round through the loop is four instructions.  Its invariant is `Echo.At`: the image is in
memory, the instruction pointer is at an address of the listing, and the console has so much
of its input left and has taken so much output.

* `Echo.source`, `Echo.image`, `Echo.listing` — the program;
* `Echo.At` — where a run of the program stands;
* `Echo.steps_round`, `Echo.steps_copy` — a round, and rounds without a full stop;
* `Echo.copies_to_stop` — what a run of the program does.
-/

namespace ByteMachine

namespace Echo

/-! ## The program -/

/-- The program as a text. -/
def source : String :=
  "# Echoes input until a '.' is read.\n"
    ++ "loop:   getc\n"
    ++ "        putc\n"
    ++ "        cmp '.'\n"
    ++ "        jnz loop\n"
    ++ "        halt\n"

/-- The byte that ends the copying. -/
def stop : UInt8 := '.'.toUInt8

/-- The program as an image. -/
def image : Image := ⟨[1, 2, 79, 46, 88, 0, 0], by decide⟩

/-- Take a byte into the accumulator. -/
def getc : Instruction := ⟨⟨1, by decide⟩, []⟩

/-- Write the accumulator. -/
def putc : Instruction := ⟨⟨2, by decide⟩, []⟩

/-- Compare a full stop with the accumulator. -/
def cmp : Instruction := ⟨⟨79, by decide⟩, [.immediate 46]⟩

/-- Start again, unless the comparison has found both equal. -/
def jnz : Instruction := ⟨⟨88, by decide⟩, [.immediate 0]⟩

/-- The end. -/
def halt : Instruction := ⟨⟨0, by decide⟩, []⟩

/-- The program as a listing. -/
def listing : List (Nat × Instruction) :=
  [(0, getc), (1, putc), (2, cmp), (4, jnz), (6, halt)]

/-- The text is assembled to the image. -/
theorem assembleImage_source : assembleImage source = .ok image := by decide +kernel

/-- The image is listed so. -/
theorem disassemble_image : disassemble image.bytes = .ok listing := by decide +kernel

/-! ## Where a run stands -/

/-- A run of the program, without a limit, is at an address: the image is in memory, and the
console has some input left and has taken some output. -/
structure At (address : UInt8) (input : List UInt8) (output : Array UInt8)
    (engine : Engine Script) : Prop where
  memory : engine.machine.memory = (Machine.cleared.load image).memory
  ip : engine.machine.ip = address
  console : engine.session.console = ⟨input, output, none⟩
  limit : engine.budget.limit = none

namespace At

variable {address : UInt8} {input : List UInt8} {output : Array UInt8}
  {engine : Engine Script}

/-- The instruction that is listed at the address decodes. -/
theorem decodes (h : At address input output engine) (instruction : Instruction)
    (hlookup : listing.lookup address.toNat = some instruction) :
    engine.Decodes instruction := by
  have hlisted : Engine.OnListing image listing engine := by
    refine ⟨fun position hposition => ?_, ?_⟩
    · have hread : engine.machine.read (UInt8.ofNat position) =
          (Machine.cleared.load image).read (UInt8.ofNat position) :=
        congrArg (fun memory => memory.read (UInt8.ofNat position)) h.memory
      rw [Machine.Holds, hread]
      exact Machine.holds_load _ hposition
    · rw [h.ip, hlookup]
      rfl
  obtain ⟨other, hother, hdecode⟩ := hlisted.decodes disassemble_image
  rw [h.ip, hlookup] at hother
  obtain rfl := Option.some.inj hother
  exact hdecode

/-- Without a limit every instruction is allowed. -/
theorem allows (h : At address input output engine) : engine.budget.Allows := by
  intro limit hlimit
  rw [h.limit] at hlimit
  cases hlimit

/-- An operation that leaves the memory and the instruction pointer alone is followed by the
instruction behind it. -/
theorem step (h : At address input output engine) (instruction : Instruction)
    {session : Session Script} {left : List UInt8} {taken : Array UInt8}
    (hlookup : listing.lookup address.toNat = some instruction)
    (hhalt : instruction.operation ≠ .halt)
    (hexecute : execute instruction.operation instruction.operands
      (engine.onLast instruction.opcode).session = .ok () session)
    (hmemory : session.machine.memory = engine.machine.memory)
    (hip : session.machine.ip = engine.lastAddress instruction.opcode)
    (hconsole : session.console = ⟨left, taken, none⟩) :
    ∃ next, Engine.Step engine .running next ∧
      At (address + UInt8.ofNat instruction.opcode.shape.operandBytes + 1) left taken next ∧
      (∀ r, r ≠ .ip → next.machine.register r = session.machine.register r) ∧
      ∀ f, next.machine.flag f = session.machine.flag f := by
  have hstep := Engine.Step.fallsThrough (h.decodes instruction hlookup) hhalt h.allows hexecute hip
  refine ⟨_, hstep, ⟨?_, ?_, hconsole, h.limit⟩, ?_, ?_⟩
  · exact hmemory.trans h.memory
  · rw [← h.ip]
    exact Machine.ip_jumpTo _ _
  · intro r hr
    exact Registers.get_set_of_ne _ _ hr
  · intro f
    rfl

end At

/-! ## Instructions of the loop -/

variable {input : List UInt8} {output : Array UInt8} {engine : Engine Script} {byte : UInt8}

/-- A byte of the input goes to the accumulator. -/
theorem step_getc (h : At 0 (byte :: input) output engine) :
    ∃ next, Engine.Step engine .running next ∧ At 1 input output next ∧
      next.machine.register .a = byte.toInt8 := by
  have hexecute : ∀ session : Session Script, session.console = ⟨byte :: input, output, none⟩ →
      execute .getc [] session =
        .ok () ⟨session.machine.setRegister .a byte.toInt8, ⟨input, output, none⟩⟩ := by
    rintro ⟨machine, console⟩ rfl
    rfl
  obtain ⟨next, hstep, hnext, hregisters, -⟩ :=
    h.step getc rfl (by decide) (hexecute _ h.console) rfl rfl rfl
  exact ⟨next, hstep, hnext, hregisters .a (by decide)⟩

/-- Without input the first instruction fails. -/
theorem step_getc_nil (h : At 0 [] output engine) :
    ∃ final, Engine.Step engine (.failed Script.endOfInput) final ∧
      final.session.console = ⟨[], output, none⟩ := by
  have hexecute : ∀ session : Session Script, session.console = ⟨[], output, none⟩ →
      execute .getc [] session = .error Script.endOfInput session := by
    rintro ⟨machine, console⟩ rfl
    rfl
  have hfails := hexecute (engine.onLast getc.opcode).session h.console
  have hdecode := h.decodes getc rfl
  exact ⟨_, .fails hdecode (by decide) h.allows (execute_error hfails) hfails, h.console⟩

/-- The accumulator goes to the output. -/
theorem step_putc (h : At 1 input output engine)
    (ha : engine.machine.register .a = byte.toInt8) :
    ∃ next, Engine.Step engine .running next ∧ At 2 input (output.push byte) next ∧
      next.machine.register .a = byte.toInt8 := by
  have hexecute : ∀ session : Session Script, session.console = ⟨input, output, none⟩ →
      session.machine.register .a = byte.toInt8 →
      execute .putc [] session =
        .ok () ⟨session.machine, ⟨input, output.push byte, none⟩⟩ := by
    rintro ⟨machine, console⟩ rfl haccumulator
    have hbyte : byte = (machine.register .a).toUInt8 := by
      rw [show machine.register .a = byte.toInt8 from haccumulator, UInt8.toUInt8_toInt8]
    rw [hbyte]
    rfl
  obtain ⟨next, hstep, hnext, hregisters, -⟩ :=
    h.step putc rfl (by decide) (hexecute _ h.console ha)
      rfl rfl rfl
  exact ⟨next, hstep, hnext, (hregisters .a (by decide)).trans ha⟩

/-- A byte read as a signed value differs from a full stop by nothing exactly if it is
one. -/
theorem sub_toInt_eq_zero_iff (byte : UInt8) :
    (46 : Int8).toInt - byte.toInt8.toInt = 0 ↔ byte = stop := by
  rw [Int.sub_eq_zero, Int8.toInt_inj]
  constructor
  · intro h
    rw [← UInt8.toUInt8_toInt8 byte, ← h]
    rfl
  · rintro rfl
    rfl

/-- The comparison finds out whether the accumulator holds a full stop. -/
theorem step_cmp (h : At 2 input output engine)
    (ha : engine.machine.register .a = byte.toInt8) :
    ∃ next, Engine.Step engine .running next ∧ At 4 input output next ∧
      next.machine.flag .zero = decide (byte = stop) := by
  have hexecute : ∀ session : Session Script, session.console = ⟨input, output, none⟩ →
      execute .cmp [.immediate 46] session =
        .ok () ⟨session.machine.describe
          ((46 : Int8).toInt - (session.machine.register .a).toInt), ⟨input, output, none⟩⟩ := by
    rintro ⟨machine, console⟩ rfl
    rfl
  obtain ⟨next, hstep, hnext, -, hflags⟩ :=
    h.step cmp rfl (by decide)
      (hexecute _ h.console) rfl rfl rfl
  refine ⟨next, hstep, hnext, (hflags .zero).trans ?_⟩
  have hzero : (46 : Int8).toInt - (engine.machine.register .a).toInt = 0 ↔ byte = stop := by
    rw [ha]
    exact sub_toInt_eq_zero_iff byte
  exact decide_eq_decide.mpr hzero

/-- The jump leads back to the start, unless the comparison has found a full stop. -/
theorem step_jnz (h : At 4 input output engine)
    (hzero : engine.machine.flag .zero = decide (byte = stop)) :
    ∃ next, Engine.Step engine .running next ∧
      At (if byte = stop then 6 else 0) input output next := by
  have hexecute := execute_jump_eq .jnz jnz.operands (engine.onLast jnz.opcode).session
  have htaken : Jump.jnz.taken (engine.onLast jnz.opcode).session.machine =
      !decide (byte = stop) := congrArg not hzero
  rw [htaken] at hexecute
  by_cases hbyte : byte = stop
  · rw [if_neg (by simp [hbyte])] at hexecute
    obtain ⟨next, hstep, hnext, -, -⟩ :=
      h.step jnz rfl (by decide) hexecute rfl rfl h.console
    rw [if_pos hbyte]
    exact ⟨next, hstep, hnext⟩
  · rw [if_pos (by simp [hbyte])] at hexecute
    rw [if_neg hbyte]
    have hip : (0 : UInt8) ≠ engine.lastAddress jnz.opcode := by
      rw [Engine.lastAddress, h.ip]
      decide
    exact ⟨_, .jumps (h.decodes jnz rfl) (by decide) h.allows hexecute hip,
      h.memory, rfl, h.console, h.limit⟩

/-- Behind the loop the run halts. -/
theorem step_halt (h : At 6 input output engine) :
    ∃ final, Engine.Step engine .halted final ∧ final.session.console = ⟨input, output, none⟩ ∧
      final.budget = engine.budget := by
  have hdecode := h.decodes halt rfl
  exact ⟨_, .halts hdecode rfl, h.console, rfl⟩

/-! ## Rounds and runs -/

/-- **A round.**  Four instructions take a byte, write it, and lead back to the start or, if
the byte is a full stop, behind the loop. -/
theorem steps_round (h : At 0 (byte :: input) output engine) :
    ∃ next, Engine.Steps 4 engine next ∧
      At (if byte = stop then 6 else 0) input (output.push byte) next := by
  obtain ⟨taken, hgetc, htaken, ha⟩ := step_getc h
  obtain ⟨written, hputc, hwritten, ha⟩ := step_putc htaken ha
  obtain ⟨compared, hcmp, hcompared, hzero⟩ := step_cmp hwritten ha
  obtain ⟨next, hjnz, hnext⟩ := step_jnz hcompared hzero
  exact ⟨next, .succ hgetc (.succ hputc (.succ hcmp (.succ hjnz (.zero next)))), hnext⟩

/-- **Rounds.**  Bytes that are no full stops are copied one after the other. -/
theorem steps_copy {front rest : List UInt8} (hfront : stop ∉ front)
    (h : At 0 (front ++ rest) output engine) :
    ∃ next, Engine.Steps (4 * front.length) engine next ∧
      At 0 rest (output ++ front) next := by
  induction front generalizing engine output with
  | nil => exact ⟨engine, .zero engine, by simpa using h⟩
  | cons byte front ih =>
      obtain ⟨middle, hround, hmiddle⟩ := steps_round h
      rw [if_neg (List.ne_of_not_mem_cons hfront).symm] at hmiddle
      obtain ⟨next, hrounds, hnext⟩ := ih (List.not_mem_of_not_mem_cons hfront) hmiddle
      have hcount : 4 + 4 * front.length = 4 * (byte :: front).length := by
        rw [List.length_cons]
        omega
      refine ⟨next, hcount ▸ hround.trans hrounds, ?_⟩
      simpa using hnext

/-- **Up to a full stop.**  Four instructions are executed for each byte up to and with the
first full stop, and then the run halts. -/
theorem halts_at_stop {front rest : List UInt8} (hfront : stop ∉ front)
    (hstart : At 0 (front ++ stop :: rest) #[] engine)
    (hused : engine.budget.used ≤ Budget.maxCount) :
    ∃ last final, Engine.Steps (4 * (front.length + 1)) engine last ∧
      Engine.Step last .halted final ∧
      final.session.console = ⟨rest, (front ++ [stop]).toArray, none⟩ ∧
      final.budget.used =
        min (engine.budget.used + 4 * (front.length + 1)) Budget.maxCount := by
  obtain ⟨found, hcopy, hfound⟩ := steps_copy hfront hstart
  obtain ⟨last, hround, hlast⟩ := steps_round hfound
  rw [if_pos rfl] at hlast
  obtain ⟨final, hhalt, hconsole, hbudget⟩ := step_halt hlast
  have hsteps := hcopy.trans hround
  refine ⟨last, final, hsteps, hhalt, ?_, ?_⟩
  · rw [hconsole]
    simp
  · rw [hbudget]
    exact Engine.counted_of_steps hsteps hused

/-- **Without a full stop.**  All of the input is written, and then the run fails for want
of more. -/
theorem fails_without_stop (hinput : stop ∉ input) (hstart : At 0 input #[] engine) :
    ∃ last final, Engine.Steps (4 * input.length) engine last ∧
      Engine.Step last (.failed Script.endOfInput) final ∧
      final.session.console = ⟨[], input.toArray, none⟩ := by
  rw [← List.append_nil input] at hstart
  obtain ⟨last, hsteps, hlast⟩ := steps_copy hinput hstart
  obtain ⟨final, hfails, hconsole⟩ := step_getc_nil hlast
  refine ⟨last, final, hsteps, hfails, ?_⟩
  rw [hconsole]
  simp

/-- A run of the program starts at its first instruction. -/
theorem at_load (hconsole : engine.session.console = Script.start input none)
    (hlimit : engine.budget.limit = none) : At 0 input #[] (engine.load image) :=
  ⟨rfl, rfl, hconsole, hlimit⟩

/-- A text comes apart at the first full stop in it. -/
theorem eq_append_of_first {n : Nat} (hstop : input[n]? = some stop)
    (hfirst : ∀ k, k < n → input[k]? ≠ some stop) :
    stop ∉ input.take n ∧ (input.take n).length = n ∧
      input.take n ++ [stop] = input.take (n + 1) ∧
      input.take n ++ stop :: input.drop (n + 1) = input := by
  obtain ⟨hn, hbyte⟩ := List.getElem?_eq_some_iff.mp hstop
  refine ⟨?_, ?_, ?_, ?_⟩
  · intro hmem
    obtain ⟨k, hk, hearlier⟩ := List.mem_take_iff_getElem.mp hmem
    have hlt : k < n := Nat.lt_of_lt_of_le hk (Nat.min_le_left _ _)
    exact hfirst k hlt (List.getElem?_eq_some_iff.mpr ⟨by omega, hearlier⟩)
  · rw [List.length_take, Nat.min_eq_left (Nat.le_of_lt hn)]
  · rw [List.take_add_one, hstop]
    rfl
  · rw [← hbyte, ← List.drop_eq_getElem_cons hn, List.take_append_drop]

/-- **Copying up to a full stop.**  The text of the program is assembled to its image.  Run
it on an engine without a limit and on a console with any input, which takes any amount of
output.  If the first full stop of the input is at some place, the run executes four
instructions for each byte up to and with this one and then halts; these bytes are taken
and no more, and they are what is written.  If the input has none, the run fails for want
of input when all of it is written. -/
theorem copies_to_stop (engine : Engine Script) (input : List UInt8)
    (hconsole : engine.session.console = Script.start input none)
    (hlimit : engine.budget.limit = none) :
    assembleImage source = .ok image ∧
    (∀ n, input[n]? = some stop → (∀ k, k < n → input[k]? ≠ some stop) →
      ∀ patience, 4 * (n + 1) < patience →
        (engine.runImage image patience).verdict = .halted ∧
        (∃ last, Engine.Steps (4 * (n + 1)) (engine.load image) last ∧
          Engine.Step last .halted (engine.runImage image patience).engine) ∧
        (engine.runImage image patience).engine.budget.used =
          min (4 * (n + 1)) Budget.maxCount ∧
        (engine.runImage image patience).engine.session.console =
          ⟨input.drop (n + 1), (input.take (n + 1)).toArray, none⟩) ∧
    (stop ∉ input → ∀ patience, 4 * input.length < patience →
      (engine.runImage image patience).verdict = .failed Script.endOfInput ∧
      (engine.runImage image patience).engine.session.console =
        ⟨[], input.toArray, none⟩) := by
  have hload := at_load hconsole hlimit
  refine ⟨assembleImage_source, ?_, ?_⟩
  · intro n hstop hfirst patience hpatience
    obtain ⟨hfront, hlength, htaken, hsplit⟩ := eq_append_of_first hstop hfirst
    rw [← hsplit] at hload
    obtain ⟨last, final, hsteps, hhalt, hleft, hused⟩ :=
      halts_at_stop hfront hload (Nat.zero_le _)
    rw [hlength] at hsteps hused
    rw [htaken] at hleft
    obtain ⟨hverdict, hengine⟩ :=
      Engine.runImage_of_steps hlimit hsteps hhalt Verdict.noConfusion hpatience
    rw [hengine]
    refine ⟨hverdict, ⟨last, hsteps, hhalt⟩, ?_, hleft⟩
    rw [hused]
    exact congrArg (min · Budget.maxCount) (Nat.zero_add _)
  · intro hinput patience hpatience
    obtain ⟨last, final, hsteps, hfails, hleft⟩ := fails_without_stop hinput hload
    obtain ⟨hverdict, hengine⟩ :=
      Engine.runImage_of_steps hlimit hsteps hfails Verdict.noConfusion hpatience
    rw [hengine]
    exact ⟨hverdict, hleft⟩

/-- An input with bytes beyond the signed range, with a full stop and without one. -/
theorem copies_to_stop_signed :
    let stopped := Engine.start (Script.start [200, 46, 174] none) ⟨true, none⟩
    let starved := Engine.start (Script.start [174, 200] none) ⟨false, none⟩
    (stopped.runImage image 9).verdict = .halted ∧
      (stopped.runImage image 9).engine.session.console = ⟨[174], #[200, 46], none⟩ ∧
      (starved.runImage image 9).verdict = .failed Script.endOfInput ∧
      (starved.runImage image 9).engine.session.console = ⟨[], #[174, 200], none⟩ := by
  intro stopped starved
  obtain ⟨-, hstops, -⟩ := copies_to_stop stopped [200, 46, 174] rfl rfl
  obtain ⟨hhalted, -, -, hconsole⟩ := hstops 1 rfl (by decide) 9 (by decide)
  obtain ⟨-, -, hstarves⟩ := copies_to_stop starved [174, 200] rfl rfl
  obtain ⟨hfailed, hempty⟩ := hstarves (by decide) 9 (by decide)
  exact ⟨hhalted, hconsole, hfailed, hempty⟩

end Echo

end ByteMachine
