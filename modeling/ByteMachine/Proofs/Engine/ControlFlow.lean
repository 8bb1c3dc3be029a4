import ByteMachine.Proofs.Engine.Repetition
import Mathlib.Data.List.Chain

/-!
# Control flow and its trace

A traced run notes two kinds of events: that an instruction has been decoded, and that an
operation has moved the instruction pointer.  Read in order they tell the way of the run
through the program.  An instruction is noted before it is known whether it is a halt and
before the budget is asked for it, and it is counted after that; so what is noted and what
is counted differ by one instruction if the run ends at a halt or at its limit, and agree
otherwise.

* `Visit` — what the events tell of one instruction, and where the next one starts;
* `Engine.Visits` — a visit tells what happens at an engine;
* `Engine.Course` — the visits of a run and the way it ends, by steps;
* `Engine.events_of_step`, `Engine.exists_course` — the events of a step, and those of a
  run, are those of its visits;
* `Engine.Course.exists_charged`, `Engine.Course.isChain` — the instructions that are
  counted, and the addresses that lead from one visit to the next;
* `Engine.trace_tells_course` — all of this for a run.
-/

namespace ByteMachine

/-! ## Visits and endings -/

/-- What a trace tells of one instruction: the address of its first byte, the instruction
itself, and the address to which its operation moves the instruction pointer, if it does. -/
structure Visit where
  address : UInt8
  instruction : Instruction
  target : Option UInt8
deriving DecidableEq, Repr

namespace Visit

/-- The events that tell of a visit. -/
def events (visit : Visit) : List Event :=
  .decoded visit.address visit.instruction :: (visit.target.map Event.jumped).toList

/-- The address at which the instruction behind this one starts: the one to which the
operation moves the instruction pointer or, if it does not, the one behind the last byte. -/
def next (visit : Visit) : UInt8 :=
  visit.target.getD (visit.address + UInt8.ofNat visit.instruction.length)

end Visit

/-- The ways in which a run ends, by their causes: a console may fail in the words of any
other fault, so the verdict alone does not tell. -/
inductive Ending where
  /-- The run has not ended yet. -/
  | unfinished
  /-- The last instruction is a halt. -/
  | halted
  /-- The limit does not allow the last instruction. -/
  | refused (limit : Nat)
  /-- What comes next is no instruction. -/
  | undecodable (fault : Fault)
  /-- The last instruction is allowed and fails. -/
  | failed (fault : Fault)
deriving DecidableEq, Repr

namespace Ending

/-- How a run stands after its ending. -/
def verdict : Ending → Verdict
  | unfinished => .running
  | halted => .halted
  | refused limit => .failed (.stepLimitExceeded limit)
  | undecodable fault => .failed fault
  | failed fault => .failed fault

/-- The number of instructions that are decoded at the end and not counted. -/
def uncharged : Ending → Nat
  | halted | refused _ => 1
  | unfinished | undecodable _ | failed _ => 0

end Ending

namespace Engine

variable {σ : Type}

/-- An event of a traced run is noted. -/
theorem toList_note {engine : Engine σ} (htrace : engine.settings.trace = true)
    (events : Array Event) (event : Event) :
    (engine.note events event).toList = events.toList ++ [event] := by
  rw [note, if_pos htrace, Array.toList_push]

variable [Console σ]

/-- The operation of an instruction is allowed, succeeds and moves the instruction pointer,
which has been on the last byte, to a target. -/
def MovesTo (engine : Engine σ) (instruction : Instruction) (target : UInt8) : Prop :=
  engine.budget.Allows ∧ ∃ session,
    execute instruction.operation instruction.operands
      (engine.onLast instruction.opcode).session = .ok () session ∧
    session.machine.ip ≠ engine.lastAddress instruction.opcode ∧
    session.machine.ip = target

/-- A visit tells what happens at an engine: the instruction that it names decodes at its
address, and its target is where the operation moves the instruction pointer. -/
structure Visits (engine : Engine σ) (visit : Visit) : Prop where
  address : visit.address = engine.machine.ip
  decodes : engine.Decodes visit.instruction
  target : ∀ target, visit.target = some target ↔ engine.MovesTo visit.instruction target

/-- The visits of a run, in order, and the way in which it ends. -/
inductive Course : Engine σ → List Visit → Ending → Engine σ → Prop
  | unfinished (engine : Engine σ) : Course engine [] .unfinished engine
  | undecodable {engine final : Engine σ} {fault : Fault}
      (hdecode : ∀ instruction, ¬ engine.Decodes instruction)
      (hstep : Step engine (.failed fault) final) :
      Course engine [] (.undecodable fault) final
  | halted {engine final : Engine σ} {visit : Visit} (hvisit : engine.Visits visit)
      (hstep : Step engine .halted final) : Course engine [visit] .halted final
  | refused {engine final : Engine σ} {visit : Visit} {limit : Nat}
      (hvisit : engine.Visits visit) (hallows : ¬ engine.budget.Allows)
      (hstep : Step engine (.failed (.stepLimitExceeded limit)) final) :
      Course engine [visit] (.refused limit) final
  | failed {engine final : Engine σ} {visit : Visit} {fault : Fault}
      (hvisit : engine.Visits visit) (hallows : engine.budget.Allows)
      (hstep : Step engine (.failed fault) final) : Course engine [visit] (.failed fault) final
  | completed {engine next final : Engine σ} {visit : Visit} {rest : List Visit}
      {ending : Ending} (hvisit : engine.Visits visit) (hstep : Step engine .running next)
      (hrest : Course next rest ending final) : Course engine (visit :: rest) ending final

/-! ## Single steps -/

/-- An operation that does not leave the instruction pointer elsewhere has no target. -/
theorem visits_of_not_moves {engine : Engine σ} {instruction : Instruction}
    (hdecode : engine.Decodes instruction)
    (hmoves : ∀ target, ¬ engine.MovesTo instruction target) :
    engine.Visits ⟨engine.machine.ip, instruction, none⟩ := by
  refine ⟨rfl, hdecode, fun target => ?_⟩
  constructor
  · intro h
    cases h
  · intro h
    exact absurd h (hmoves target)

/-- A halt moves the instruction pointer nowhere. -/
theorem not_movesTo_of_halt {engine : Engine σ} {instruction : Instruction}
    (hhalt : instruction.operation = .halt) (target : UInt8) :
    ¬ engine.MovesTo instruction target := by
  rintro ⟨-, session, hexecute, hip, -⟩
  rw [hhalt] at hexecute
  cases hexecute
  exact hip (ip_onLast _ _)

/-- An operation that fails moves the instruction pointer nowhere. -/
theorem not_movesTo_of_error {engine : Engine σ} {instruction : Instruction} {fault : Fault}
    {session : Session σ}
    (hexecute : execute instruction.operation instruction.operands
      (engine.onLast instruction.opcode).session = .error fault session) (target : UInt8) :
    ¬ engine.MovesTo instruction target := by
  rintro ⟨-, other, hother, -, -⟩
  rw [hexecute] at hother
  cases hother

/-- An operation that leaves the instruction pointer on the last byte has moved it
nowhere. -/
theorem not_movesTo_of_ip_eq {engine : Engine σ} {instruction : Instruction}
    {session : Session σ}
    (hexecute : execute instruction.operation instruction.operands
      (engine.onLast instruction.opcode).session = .ok () session)
    (hip : session.machine.ip = engine.lastAddress instruction.opcode) (target : UInt8) :
    ¬ engine.MovesTo instruction target := by
  rintro ⟨-, other, hother, hmoved, -⟩
  rw [hexecute] at hother
  cases hother
  exact hmoved hip

/-- An operation that moves the instruction pointer has its new place as its target. -/
theorem visits_of_ip_ne {engine : Engine σ} {instruction : Instruction} {session : Session σ}
    (hdecode : engine.Decodes instruction) (hallows : engine.budget.Allows)
    (hexecute : execute instruction.operation instruction.operands
      (engine.onLast instruction.opcode).session = .ok () session)
    (hip : session.machine.ip ≠ engine.lastAddress instruction.opcode) :
    engine.Visits ⟨engine.machine.ip, instruction, some session.machine.ip⟩ := by
  refine ⟨rfl, hdecode, fun target => ?_⟩
  constructor
  · intro h
    exact ⟨hallows, session, hexecute, hip, Option.some.inj h⟩
  · rintro ⟨-, other, hother, -, rfl⟩
    rw [hexecute] at hother
    cases hother
    rfl

/-- **The next address.**  A step that leaves the run running leads to the address that the
visit names as the next one. -/
theorem ip_of_visits {engine next : Engine σ} {visit : Visit} (hvisit : engine.Visits visit)
    (hstep : Step engine .running next) : next.machine.ip = visit.next := by
  obtain ⟨address, instruction, target⟩ := visit
  obtain ⟨haddress, hdecode, htarget⟩ := hvisit
  dsimp only at haddress hdecode htarget
  cases hstep with
  | @fallsThrough other session hother hhalt hallows hexecute hip =>
      obtain rfl := eq_of_decodes hdecode hother
      have hnone : target = none := by
        cases htargeted : target with
        | none => rfl
        | some place =>
            exact absurd ((htarget place).mp htargeted) (not_movesTo_of_ip_eq hexecute hip place)
      have hlength : engine.lastAddress instruction.opcode + 1 =
          engine.machine.ip + UInt8.ofNat instruction.length := by
        rw [lastAddress, Instruction.length, Nat.add_comm, UInt8.ofNat_add, UInt8.add_assoc]
        rfl
      rw [Visit.next, hnone, haddress]
      exact (Machine.ip_jumpTo _ _).trans hlength
  | @jumps other session hother hhalt hallows hexecute hip =>
      obtain rfl := eq_of_decodes hdecode hother
      have hsome : target = some session.machine.ip :=
        (htarget _).mpr ⟨hallows, session, hexecute, hip, rfl⟩
      rw [Visit.next, hsome]
      rfl

/-- Steps do not change the settings. -/
theorem settings_of_step {engine next : Engine σ} {verdict : Verdict}
    (h : Step engine verdict next) : next.settings = engine.settings := by
  cases h <;> rfl

/-- Not even several of them. -/
theorem settings_of_steps {count : Nat} {engine final : Engine σ}
    (h : Steps count engine final) : final.settings = engine.settings := by
  induction h with
  | zero engine => rfl
  | succ hstep hrest ih => exact ih.trans (settings_of_step hstep)

/-- **Events of a step.**  The events that a traced step notes are those of a visit, if
there is an instruction, and none otherwise.  If the step ends the run, the visit is the
last one. -/
theorem events_of_step {engine next : Engine σ} {verdict : Verdict}
    (h : Step engine verdict next) (htrace : engine.settings.trace = true)
    (events : Array Event) :
    (verdict = .running ∧ ∃ visit, engine.Visits visit ∧
        (engine.turn events).events.toList = events.toList ++ visit.events) ∨
      (verdict ≠ .running ∧ ∃ visits ending, Course engine visits ending next ∧
        ending.verdict = verdict ∧
        (engine.turn events).events.toList = events.toList ++ visits.flatMap Visit.events) := by
  have hstep := h
  cases h with
  | unknown hopcode =>
      refine .inr ⟨Verdict.noConfusion, [], _,
        .undecodable (not_decodes_of_unknown hopcode) hstep, rfl, ?_⟩
      rw [turn_of_unknown hopcode, List.flatMap_nil, List.append_nil]
  | badSymbol hopcode hindex =>
      refine .inr ⟨Verdict.noConfusion, [], _,
        .undecodable (not_decodes_of_badSymbol hopcode hindex) hstep, rfl, ?_⟩
      rw [turn_of_badSymbol hopcode hindex, List.flatMap_nil, List.append_nil]
  | @halts instruction hdecode hhalt =>
      have hvisit := visits_of_not_moves hdecode (not_movesTo_of_halt hhalt)
      refine .inr ⟨Verdict.noConfusion, [_], .halted, .halted hvisit hstep, rfl, ?_⟩
      rw [turn_of_halt hdecode hhalt, toList_note htrace]
      rfl
  | @refused instruction limit hdecode hhalt hlimit hused =>
      have hrefused : ¬ engine.budget.Allows := fun hallows =>
        Nat.not_lt_of_ge hused (hallows limit hlimit)
      have hvisit := visits_of_not_moves hdecode fun _ hmoves => hrefused hmoves.1
      have hlast : (engine.onLast instruction.opcode).budget.limit = some limit := hlimit
      refine .inr ⟨Verdict.noConfusion, [_], .refused limit,
        .refused hvisit hrefused hstep, rfl, ?_⟩
      rw [turn_of_ne_halt hdecode hhalt, perform_of_limit hlast hused, toList_note htrace]
      rfl
  | @fails instruction fault session hdecode hhalt hallows hfailure hexecute =>
      have hvisit := visits_of_not_moves hdecode (not_movesTo_of_error hexecute)
      have hlast : (engine.onLast instruction.opcode).budget.Allows := hallows
      refine .inr ⟨Verdict.noConfusion, [_], .failed fault,
        .failed hvisit hallows hstep, rfl, ?_⟩
      rw [turn_of_ne_halt hdecode hhalt, perform_of_error hlast hexecute, toList_note htrace]
      rfl
  | @fallsThrough instruction session hdecode hhalt hallows hexecute hip =>
      have hvisit := visits_of_not_moves hdecode (not_movesTo_of_ip_eq hexecute hip)
      have hlast : (engine.onLast instruction.opcode).budget.Allows := hallows
      refine .inl ⟨rfl, _, hvisit, ?_⟩
      rw [turn_of_ne_halt hdecode hhalt,
        perform_of_ip_eq hlast hexecute (hip.trans (ip_onLast _ _).symm), toList_note htrace]
      rfl
  | @jumps instruction session hdecode hhalt hallows hexecute hip =>
      have hvisit := visits_of_ip_ne hdecode hallows hexecute hip
      have hlast : (engine.onLast instruction.opcode).budget.Allows := hallows
      have htraced : (engine.onLast instruction.opcode).settings.trace = true := htrace
      refine .inl ⟨rfl, _, hvisit, ?_⟩
      rw [turn_of_ne_halt hdecode hhalt,
        perform_of_ip_ne hlast hexecute (fun h => hip (h.trans (ip_onLast _ _))),
        toList_note htraced, toList_note htrace, List.append_assoc]
      rfl

/-! ## Runs -/

/-- **Events of a run.**  A traced run has a course, and the events that it notes are those
of the visits on this course. -/
theorem exists_course (turns : Nat) {engine : Engine σ} (htrace : engine.settings.trace = true)
    (events : Array Event) :
    ∃ visits ending, Course engine visits ending (engine.runFor turns events).engine ∧
      ending.verdict = (engine.runFor turns events).verdict ∧
      (engine.runFor turns events).events.toList =
        events.toList ++ visits.flatMap Visit.events := by
  induction turns generalizing engine events with
  | zero => exact ⟨[], .unfinished, .unfinished engine, rfl, (List.append_nil _).symm⟩
  | succ turns ih =>
      have hstep := step_turn engine events
      rcases events_of_step hstep htrace events with
        ⟨hrunning, visit, hvisit, hevents⟩ | ⟨hended, visits, ending, hcourse, hverdict, hevents⟩
      · rw [runFor_succ_of_running hrunning]
        rw [hrunning] at hstep
        have hnext : (engine.turn events).engine.settings.trace = true := by
          rw [settings_of_step hstep]
          exact htrace
        obtain ⟨rest, ending, hcourse, hverdict, hmore⟩ := ih hnext (engine.turn events).events
        refine ⟨visit :: rest, ending, .completed hvisit hstep hcourse, hverdict, ?_⟩
        rw [hmore, hevents, List.flatMap_cons, List.append_assoc]
      · rw [runFor_succ_of_ended hended]
        exact ⟨visits, ending, hcourse, hverdict, hevents⟩

/-- An instruction that is allowed and fails is counted. -/
theorem budget_of_failed {engine final : Engine σ} {instruction : Instruction} {fault : Fault}
    (hdecode : engine.Decodes instruction) (hallows : engine.budget.Allows)
    (hstep : Step engine (.failed fault) final) :
    final.budget = engine.budget.count := by
  cases hstep with
  | unknown hopcode => exact absurd hdecode (not_decodes_of_unknown hopcode instruction)
  | badSymbol hopcode hindex =>
      exact absurd hdecode (not_decodes_of_badSymbol hopcode hindex instruction)
  | refused hother hhalt hlimit hused => exact absurd (hallows _ hlimit) (Nat.not_lt_of_ge hused)
  | fails hother hhalt _ hfailure hexecute => rfl

namespace Course

variable {engine final : Engine σ} {visits : List Visit} {ending : Ending}

/-- A budget of which nothing more is used. -/
private theorem used_eq_min {budget next : Budget} (h : next = budget)
    (hused : budget.used ≤ Budget.maxCount) :
    next.used = min (budget.used + 0) Budget.maxCount := by
  rw [h, Nat.add_zero, Nat.min_eq_left hused]

/-- **Counting.**  All instructions of a course are counted, apart from a halt at its end and
from one that is refused there; the count stops at its largest number. -/
theorem exists_charged (h : Course engine visits ending final)
    (hused : engine.budget.used ≤ Budget.maxCount) :
    ∃ charged, visits.length = charged + ending.uncharged ∧
      final.budget.used = min (engine.budget.used + charged) Budget.maxCount := by
  induction h with
  | unfinished engine => exact ⟨0, rfl, used_eq_min rfl hused⟩
  | undecodable hdecode hstep =>
      refine ⟨0, rfl, ?_⟩
      cases hstep with
      | unknown hopcode => exact used_eq_min rfl hused
      | badSymbol hopcode hindex => exact used_eq_min rfl hused
      | refused hother hhalt hlimit hover => exact absurd hother (hdecode _)
      | fails hother hhalt _ hfailure hexecute => exact absurd hother (hdecode _)
  | halted hvisit hstep =>
      refine ⟨0, rfl, ?_⟩
      cases hstep with
      | halts hdecode hhalt => exact used_eq_min rfl hused
  | refused hvisit hallows hstep =>
      refine ⟨0, rfl, ?_⟩
      cases hstep with
      | refused hother hhalt hlimit hover => exact used_eq_min rfl hused
      | fails hother hhalt hallowed hfailure hexecute => exact absurd hallowed hallows
  | failed hvisit hallows hstep =>
      refine ⟨1, rfl, ?_⟩
      rw [budget_of_failed hvisit.decodes hallows hstep]
      rfl
  | @completed engine next final visit rest ending hvisit hstep hrest ih =>
      obtain ⟨-, hbudget⟩ := budget_of_step hstep
      have hcount : next.budget.used = min (engine.budget.used + 1) Budget.maxCount := by
        rw [hbudget]
        rfl
      obtain ⟨charged, hlength, hfinal⟩ := ih (by omega)
      refine ⟨charged + 1, ?_, ?_⟩
      · rw [List.length_cons, hlength]
        omega
      · rw [hfinal, hcount, min_min_add_one]

/-- The first visit is where the instruction pointer is. -/
theorem address_of_head (h : Course engine visits ending final) {visit : Visit}
    (hhead : visit ∈ visits.head?) : visit.address = engine.machine.ip := by
  cases h with
  | unfinished => cases hhead
  | undecodable => cases hhead
  | halted hvisit hstep =>
      cases hhead
      exact hvisit.address
  | refused hvisit hallows hstep =>
      cases hhead
      exact hvisit.address
  | failed hvisit hallows hstep =>
      cases hhead
      exact hvisit.address
  | completed hvisit hstep hrest =>
      cases hhead
      exact hvisit.address

/-- **From visit to visit.**  Every visit is where the one before it leads. -/
theorem isChain (h : Course engine visits ending final) :
    visits.IsChain fun visit next => next.address = visit.next := by
  induction h with
  | unfinished | undecodable => exact .nil
  | halted | refused | failed => exact .singleton _
  | completed hvisit hstep hrest ih =>
      refine ih.cons fun next hnext => ?_
      rw [hrest.address_of_head hnext, ip_of_visits hvisit hstep]

end Course

/-- **A trace tells the course of its run.**  A run that is traced, from any engine, passes
through visits, and its events are those of the visits in their order: one for each
instruction that is decoded, with the address of its first byte, and behind it one for the
instruction pointer exactly if the operation moves it.  The visits are as many as the
instructions that are counted, and one more if the run ends at a halt or at its limit; the
count is that of the budget, as long as this does not stop at its largest number.  Every
visit but the first is where the one before it leads: the target of its operation or, if it
has none, the address behind its instruction. -/
theorem trace_tells_course (engine : Engine σ) (htrace : engine.settings.trace = true)
    (hused : engine.budget.used ≤ Budget.maxCount) (patience : Nat) :
    ∃ visits ending charged,
      Course engine visits ending (engine.run patience).engine ∧
      ending.verdict = (engine.run patience).verdict ∧
      (engine.run patience).events.toList = visits.flatMap Visit.events ∧
      visits.length = charged + ending.uncharged ∧
      (engine.run patience).engine.budget.used =
        min (engine.budget.used + charged) Budget.maxCount ∧
      visits.IsChain fun visit next => next.address = visit.next := by
  obtain ⟨visits, ending, hcourse, hverdict, hevents⟩ :=
    exists_course (engine.turnsNeeded patience) htrace #[]
  obtain ⟨charged, hlength, hcount⟩ := hcourse.exists_charged hused
  exact ⟨visits, ending, charged, hcourse, hverdict, hevents, hlength, hcount, hcourse.isChain⟩

/-- A program that jumps over its first halt. -/
theorem trace_tells_course_jump :
    let engine := (start (Script.start [] none) ⟨true, none⟩).load
      ⟨[74, 111, 83, 5, 0, 2, 0], by decide⟩
    (engine.run 9).events.map Event.text =
        #["  0: mov 111", "  2: jmp 5", "     ip -> 5", "  5: putc", "  6: halt"] ∧
      ∃ visits, Course engine visits .halted (engine.run 9).engine ∧
        (engine.run 9).events.toList = visits.flatMap Visit.events ∧
        visits.length = (engine.run 9).engine.budget.used + 1 ∧
        visits.IsChain fun visit next => next.address = visit.next := by
  intro engine
  obtain ⟨visits, ending, charged, hcourse, hverdict, hevents, hlength, hcount, hchain⟩ :=
    @trace_tells_course Script _ engine rfl (by decide) 9
  have hhalted : (engine.run 9).verdict = .halted := by decide +kernel
  have hused : (engine.run 9).engine.budget.used = 3 := by decide +kernel
  have hstart : engine.budget.used = 0 := rfl
  obtain rfl : ending = .halted := by
    rw [hhalted] at hverdict
    cases ending with
    | halted => rfl
    | unfinished | refused | undecodable | failed => cases hverdict
  rw [hused, hstart] at hcount
  have hlarge : 3 < Budget.maxCount := by decide
  refine ⟨by decide +kernel, visits, hcourse, hevents, ?_, hchain⟩
  rw [hlength, hused]
  generalize Budget.maxCount = greatest at hcount hlarge
  have hcharged : charged = 3 := by omega
  rw [hcharged]
  rfl

end Engine

end ByteMachine
