import ByteMachine.Proofs.Engine.Repetition

/-!
# The loop of a run, byte by byte

A run is one loop that takes a byte in each pass.  Some passes only put the byte into a
buffer, and these are not charged to the step budget; the others execute the instruction
that the buffer has become, or end the run.  What keeps the loop from going on for ever is
a pair of numbers: the part of the limit that is left, which every instruction makes
smaller, and the bytes that the buffer may still grow by, which is at most two because no
instruction is longer than three bytes.

* `Fetching`, `Fetching.pass` — the state of the loop, and one pass through it;
* `Passes` — passes in a row, and how many of them executed an instruction;
* `exists_passes_of_turn`, `exists_passes_of_runFor` — turns and runs are passes of this
  loop;
* `Passes.count_le`, `Passes.used_eq` — the two numbers;
* `Engine.limited_run_ends` — a run with a limit ends.
-/

namespace ByteMachine

variable {σ : Type}

/-! ## The loop -/

/-- An engine that is fetching an instruction. -/
structure Fetching (σ : Type) where
  engine : Engine σ
  /-- The address of the first byte of the instruction. -/
  start : UInt8
  /-- The bytes that have been fetched. -/
  buffer : List UInt8
  /-- The events so far, in order. -/
  events : Array Event

/-- What a pass through the loop comes to. -/
inductive Pass (σ : Type) where
  /-- The bytes are no whole instruction yet. -/
  | fetched (next : Fetching σ)
  /-- An instruction has been executed. -/
  | executed (next : Fetching σ)
  /-- The run has ended. -/
  | ended (progress : Progress σ)

namespace Fetching

/-- An engine that starts to fetch an instruction. -/
def begin (engine : Engine σ) (events : Array Event) : Fetching σ :=
  { engine, start := engine.machine.ip, buffer := [], events }

/-- The bytes fetched before and the byte at the instruction pointer. -/
def bytes (state : Fetching σ) : List UInt8 :=
  state.buffer ++ [(state.engine.machine.read state.engine.machine.ip).toUInt8]

/-- The byte at the instruction pointer goes into the buffer. -/
def push (state : Fetching σ) : Fetching σ :=
  { state with
    engine := state.engine.withMachine state.engine.machine.advance
    buffer := state.bytes }

end Fetching

/-- A run that goes on after an instruction starts to fetch the next one. -/
def Pass.ofProgress : Progress σ → Pass σ
  | ⟨.running, engine, events⟩ => .executed (.begin engine events)
  | progress => .ended progress

namespace Fetching

variable [Console σ]

/-- What becomes of an instruction whose last byte is at the instruction pointer. -/
def complete (state : Fetching σ) (instruction : Instruction) : Progress σ :=
  let events := state.engine.note state.events (.decoded state.start instruction)
  if instruction.operation = .halt then ⟨.halted, state.engine, events⟩
  else state.engine.perform instruction events

/-- One pass through the loop. -/
def pass (state : Fetching σ) : Pass σ :=
  match Instruction.decode state.bytes with
  | .ok none => .fetched state.push
  | .ok (some instruction) => .ofProgress (state.complete instruction)
  | .error fault =>
    .ended ⟨.failed (fault.relocate state.start), state.engine, state.events⟩

/-- Fetch the rest of an instruction and execute it. -/
def finish (state : Fetching σ) : Progress σ :=
  match fetch state.start state.engine.machine state.buffer with
  | (.error fault, machine) =>
    ⟨.failed fault, state.engine.withMachine machine, state.events⟩
  | (.ok instruction, machine) =>
    { state with engine := state.engine.withMachine machine }.complete instruction

/-- A turn starts to fetch an instruction and finishes it. -/
theorem finish_begin (engine : Engine σ) (events : Array Event) :
    (begin engine events).finish = engine.turn events := rfl

/-- Bytes that are no whole instruction yet leave as much to be finished. -/
theorem finish_push {state : Fetching σ} (h : Instruction.decode state.bytes = .ok none) :
    state.push.finish = state.finish := by
  rw [finish, finish, fetch_of_none h]
  rfl

/-- Bytes that decode are finished by the instruction. -/
theorem finish_of_some {state : Fetching σ} {instruction : Instruction}
    (h : Instruction.decode state.bytes = .ok (some instruction)) :
    state.finish = state.complete instruction := by
  rw [finish, fetch_of_some h]
  rfl

/-- Bytes that fail to decode end the run. -/
theorem finish_of_error {state : Fetching σ} {fault : Fault}
    (h : Instruction.decode state.bytes = .error fault) :
    state.finish =
      ⟨.failed (fault.relocate state.start), state.engine, state.events⟩ := by
  rw [finish, fetch_of_error h]
  rfl

end Fetching

/-! ## Single passes -/

/-- A pass that executes an instruction leaves the run running. -/
theorem Pass.ofProgress_eq_executed {progress : Progress σ} {next : Fetching σ}
    (h : Pass.ofProgress progress = .executed next) :
    progress.verdict = .running ∧ next = .begin progress.engine progress.events := by
  obtain ⟨verdict, engine, events⟩ := progress
  cases verdict with
  | running =>
      cases h
      exact ⟨rfl, rfl⟩
  | halted => cases h
  | failed fault => cases h

/-- A pass ends the run in the way in which the instruction does. -/
theorem Pass.ofProgress_eq_ended {progress final : Progress σ}
    (h : Pass.ofProgress progress = .ended final) : progress = final := by
  obtain ⟨verdict, engine, events⟩ := progress
  cases verdict with
  | running => cases h
  | halted => exact Pass.ended.inj h
  | failed fault => exact Pass.ended.inj h

/-- A run that goes on after an instruction is not at its end. -/
theorem Pass.ofProgress_of_running {progress : Progress σ} (h : progress.verdict = .running) :
    Pass.ofProgress progress = .executed (.begin progress.engine progress.events) := by
  obtain ⟨verdict, engine, events⟩ := progress
  cases h
  rfl

/-- A run that does not go on is at its end. -/
theorem Pass.ofProgress_of_ended {progress : Progress σ} (h : progress.verdict ≠ .running) :
    Pass.ofProgress progress = .ended progress := by
  obtain ⟨verdict, engine, events⟩ := progress
  cases verdict with
  | running => exact absurd rfl h
  | halted => rfl
  | failed fault => rfl

/-- What performing an instruction takes from the budget: it is allowed and counted, or the
run ends and nothing is taken. -/
theorem Engine.budget_perform [Console σ] (engine : Engine σ) (instruction : Instruction)
    (events : Array Event) :
    (engine.budget.Allows ∧
        (engine.perform instruction events).engine.budget = engine.budget.count) ∨
      ((engine.perform instruction events).verdict ≠ .running ∧
        (engine.perform instruction events).engine.budget = engine.budget) := by
  by_cases hallows : engine.budget.Allows
  · left
    refine ⟨hallows, ?_⟩
    cases hexecute : execute instruction.operation instruction.operands engine.session with
    | error fault session => rw [perform_of_error hallows hexecute]
    | ok answer session =>
        by_cases hip : session.machine.ip = engine.machine.ip
        · rw [perform_of_ip_eq hallows hexecute hip]
        · rw [perform_of_ip_ne hallows hexecute hip]
  · obtain ⟨limit, hlimit, hused⟩ := Budget.exists_limit_of_not_allows hallows
    right
    rw [perform_of_limit hlimit hused]
    exact ⟨Verdict.noConfusion, rfl⟩

namespace Fetching

variable [Console σ] {state next : Fetching σ}

/-- What completing an instruction takes from the budget. -/
theorem budget_complete (state : Fetching σ) (instruction : Instruction) :
    (state.engine.budget.Allows ∧
        (state.complete instruction).engine.budget = state.engine.budget.count) ∨
      ((state.complete instruction).verdict ≠ .running ∧
        (state.complete instruction).engine.budget = state.engine.budget) := by
  unfold complete
  split
  · exact .inr ⟨Verdict.noConfusion, rfl⟩
  · exact Engine.budget_perform _ _ _

/-- A pass that only fetches puts a byte into the buffer. -/
theorem pass_eq_fetched (h : state.pass = .fetched next) :
    Instruction.decode state.bytes = .ok none ∧ next = state.push := by
  unfold pass at h
  split at h
  case h_1 hdecode =>
    cases h
    exact ⟨hdecode, rfl⟩
  case h_2 instruction hdecode =>
    unfold Pass.ofProgress at h
    split at h <;> cases h
  case h_3 => cases h

/-- A pass that executes an instruction has fetched a whole one. -/
theorem pass_eq_executed (h : state.pass = .executed next) :
    ∃ instruction, Instruction.decode state.bytes = .ok (some instruction) ∧
      (state.complete instruction).verdict = .running ∧
      next = begin (state.complete instruction).engine (state.complete instruction).events := by
  unfold pass at h
  split at h
  case h_1 => cases h
  case h_2 instruction hdecode =>
    obtain ⟨hrunning, hnext⟩ := Pass.ofProgress_eq_executed h
    exact ⟨instruction, hdecode, hrunning, hnext⟩
  case h_3 => cases h

/-- **Fetching.**  A pass that only fetches leaves the budget alone, and the buffer grows
by a byte and holds two at most. -/
theorem length_of_fetched (h : state.pass = .fetched next) :
    next.engine.budget = state.engine.budget ∧
      next.buffer.length = state.buffer.length + 1 ∧ next.buffer.length ≤ 2 := by
  obtain ⟨hdecode, rfl⟩ := pass_eq_fetched h
  have hshort : state.bytes.length < 3 := Instruction.length_lt_of_decode_eq_none hdecode
  have hgrown : state.bytes.length = state.buffer.length + 1 := List.length_append
  exact ⟨rfl, hgrown, Nat.le_of_lt_succ hshort⟩

/-- **Executing.**  A pass that executes an instruction is allowed and counted, and the
buffer is empty after it. -/
theorem budget_of_executed (h : state.pass = .executed next) :
    state.engine.budget.Allows ∧ next.engine.budget = state.engine.budget.count ∧
      next.buffer = [] := by
  obtain ⟨instruction, -, hrunning, rfl⟩ := pass_eq_executed h
  rcases budget_complete state instruction with ⟨hallows, hbudget⟩ | ⟨hended, -⟩
  · exact ⟨hallows, hbudget, rfl⟩
  · exact absurd hrunning hended

end Fetching

/-! ## Passes in a row -/

variable [Console σ]

/-- A number of passes that do not end the run, of which so many execute an
instruction. -/
inductive Passes : Nat → Nat → Fetching σ → Fetching σ → Prop
  | zero (state : Fetching σ) : Passes 0 0 state state
  | fetched {count executed : Nat} {state next last : Fetching σ}
      (hpass : state.pass = .fetched next) (hrest : Passes count executed next last) :
      Passes (count + 1) executed state last
  | executed {count executed : Nat} {state next last : Fetching σ}
      (hpass : state.pass = .executed next) (hrest : Passes count executed next last) :
      Passes (count + 1) (executed + 1) state last

namespace Passes

variable {count executed : Nat} {state last : Fetching σ}

/-- Passes in a row are passes. -/
theorem trans {more executedMore : Nat} {middle : Fetching σ}
    (h : Passes count executed state middle) (hmore : Passes more executedMore middle last) :
    Passes (count + more) (executed + executedMore) state last := by
  induction h with
  | zero state =>
      rw [Nat.zero_add, Nat.zero_add]
      exact hmore
  | fetched hpass hrest ih =>
      rw [Nat.add_right_comm]
      exact .fetched hpass (ih hmore)
  | @executed count executed state next last hpass hrest ih =>
      rw [Nat.add_right_comm count, Nat.add_right_comm executed]
      exact .executed hpass (ih hmore)

/-- **The buffer.**  There are no more than three passes for each instruction that is
executed, and for the one that is being fetched as many as there are bytes in the
buffer, of which there are two at most. -/
theorem count_le (h : Passes count executed state last) (hbuffer : state.buffer.length ≤ 2) :
    count + state.buffer.length ≤ 3 * executed + last.buffer.length ∧
      last.buffer.length ≤ 2 := by
  induction h with
  | zero state => exact ⟨by omega, hbuffer⟩
  | fetched hpass hrest ih =>
      obtain ⟨-, hgrown, hshort⟩ := Fetching.length_of_fetched hpass
      obtain ⟨hcount, hlast⟩ := ih hshort
      exact ⟨by omega, hlast⟩
  | executed hpass hrest ih =>
      obtain ⟨-, -, hempty⟩ := Fetching.budget_of_executed hpass
      rw [hempty] at ih
      obtain ⟨hcount, hlast⟩ := ih (Nat.zero_le 2)
      rw [List.length_nil] at hcount
      exact ⟨by omega, hlast⟩

/-- **The budget.**  The instructions that are executed are counted, and they are no more
than the limit has left. -/
theorem used_eq {limit : Nat} (h : Passes count executed state last)
    (hlimit : state.engine.budget.limit = some limit) (hrange : limit ≤ Budget.maxCount) :
    last.engine.budget.limit = some limit ∧
      last.engine.budget.used = state.engine.budget.used + executed ∧
      executed ≤ limit - state.engine.budget.used := by
  induction h with
  | zero state => exact ⟨hlimit, rfl, Nat.zero_le _⟩
  | fetched hpass hrest ih =>
      obtain ⟨hbudget, -, -⟩ := Fetching.length_of_fetched hpass
      rw [hbudget] at ih
      exact ih hlimit
  | @executed count executed state next last hpass hrest ih =>
      obtain ⟨hallows, hbudget, -⟩ := Fetching.budget_of_executed hpass
      have hused : state.engine.budget.used < limit := hallows limit hlimit
      -- The count is below a limit of 64 bits, so it does not stop at the largest number.
      have hcounted : next.engine.budget.used = state.engine.budget.used + 1 := by
        rw [hbudget]
        exact Nat.min_eq_left (Nat.le_trans hused hrange)
      obtain ⟨hlast, hsum, hrest⟩ := ih (by rw [hbudget]; exact hlimit)
      refine ⟨hlast, ?_, ?_⟩ <;> omega

end Passes

/-! ## Turns and runs -/

/-- Finishing an instruction takes some passes that only fetch, and one that comes to what
finishing it does. -/
theorem exists_passes_of_finish (state : Fetching σ) :
    ∃ count last, Passes count 0 state last ∧ last.pass = .ofProgress state.finish := by
  cases hdecode : Instruction.decode state.bytes with
  | error fault =>
      refine ⟨0, state, .zero state, ?_⟩
      rw [Fetching.pass, hdecode, Fetching.finish_of_error hdecode]
      rfl
  | ok decoded =>
      cases decoded with
      | none =>
          have hpass : state.pass = .fetched state.push := by rw [Fetching.pass, hdecode]
          obtain ⟨count, last, hpasses, hlast⟩ := exists_passes_of_finish state.push
          rw [Fetching.finish_push hdecode] at hlast
          exact ⟨count + 1, last, .fetched hpass hpasses, hlast⟩
      | some instruction =>
          refine ⟨0, state, .zero state, ?_⟩
          rw [Fetching.pass, hdecode, Fetching.finish_of_some hdecode]
termination_by 3 - state.buffer.length
decreasing_by
  -- A pass that only fetches leaves a longer buffer, and still one of two bytes at most.
  obtain ⟨-, hgrown, hshort⟩ := Fetching.length_of_fetched hpass
  omega

/-- **Turns are passes.**  A turn takes some passes that only fetch, and one that comes to
what the turn does. -/
theorem exists_passes_of_turn (engine : Engine σ) (events : Array Event) :
    ∃ count last, Passes count 0 (.begin engine events) last ∧
      last.pass = .ofProgress (engine.turn events) := by
  rw [← Fetching.finish_begin]
  exact exists_passes_of_finish _

/-- **Runs are passes.**  What a bounded run ends with, the loop ends with. -/
theorem exists_passes_of_runFor (turns : Nat) (engine : Engine σ) (events : Array Event)
    (h : (engine.runFor turns events).verdict ≠ .running) :
    ∃ count executed last, Passes count executed (.begin engine events) last ∧
      last.pass = .ended (engine.runFor turns events) := by
  induction turns generalizing engine events with
  | zero => exact absurd rfl h
  | succ turns ih =>
      obtain ⟨count, last, hpasses, hlast⟩ := exists_passes_of_turn engine events
      by_cases hrunning : (engine.turn events).verdict = .running
      · rw [Engine.runFor_succ_of_running hrunning] at h ⊢
        rw [Pass.ofProgress_of_running hrunning] at hlast
        obtain ⟨more, executed, final, hmore, hfinal⟩ := ih _ _ h
        exact ⟨_, _, final, hpasses.trans (.executed hlast hmore), hfinal⟩
      · rw [Engine.runFor_succ_of_ended hrunning]
        rw [Pass.ofProgress_of_ended hrunning] at hlast
        exact ⟨count, 0, last, hpasses, hlast⟩

/-! ## Limited runs -/

/-- What ends the run takes no more from the budget than the limit allows. -/
theorem Fetching.used_of_ended {state : Fetching σ} {progress : Progress σ} {limit : Nat}
    (h : state.pass = .ended progress) (hlimit : state.engine.budget.limit = some limit) :
    progress.engine.budget.used ≤ max limit state.engine.budget.used := by
  unfold pass at h
  split at h
  case h_1 => cases h
  case h_2 instruction hdecode =>
    obtain rfl := Pass.ofProgress_eq_ended h
    rcases budget_complete state instruction with ⟨hallows, hbudget⟩ | ⟨-, hbudget⟩
    · have hused : state.engine.budget.used < limit := hallows limit hlimit
      have hcounted : state.engine.budget.count.used ≤ state.engine.budget.used + 1 :=
        Nat.min_le_left _ _
      rw [hbudget]
      omega
    · rw [hbudget]
      exact Nat.le_max_right _ _
  case h_3 fault hdecode =>
    cases h
    exact Nat.le_max_right _ _

/-- A bounded run with more turns than the limit has left has ended. -/
theorem Engine.ended_of_limit {engine : Engine σ} {limit turns : Nat}
    (hlimit : engine.budget.limit = some limit) (hrange : limit ≤ Budget.maxCount)
    (hturns : limit - engine.budget.used < turns) (events : Array Event) :
    (engine.runFor turns events).verdict ≠ .running := by
  rcases runFor_cases turns engine events with ⟨-, hsteps⟩ | ⟨hended, -⟩
  · have hused := used_of_steps hsteps (Nat.zero_lt_of_lt hturns) hlimit hrange
    omega
  · exact hended

namespace Engine

/-- **Limited runs end.**  Let an engine have a step limit, which is a number of 64 bits;
its machine, its console and the number of instructions that are used may be any.  The
loop makes no more than three passes for each instruction that it executes and two for
one more, and executes no more instructions than the limit has left.  So it comes to an
end, and this is the end of the run; and with the last instruction too, no more of them
have been charged than the limit had left. -/
theorem limited_run_ends (engine : Engine σ) {limit : Nat}
    (hlimit : engine.budget.limit = some limit) (hrange : limit ≤ Budget.maxCount)
    (patience : Nat) :
    (∀ count executed last, Passes count executed (.begin engine #[]) last →
      count ≤ 3 * executed + 2 ∧ executed ≤ limit - engine.budget.used) ∧
    (∃ count executed last, Passes count executed (.begin engine #[]) last ∧
      last.pass = .ended (engine.run patience)) ∧
    (engine.run patience).verdict ≠ .running ∧
    (engine.run patience).engine.budget.used - engine.budget.used ≤
      limit - engine.budget.used := by
  have hbounds : ∀ count executed last, Passes count executed (.begin engine #[]) last →
      count ≤ 3 * executed + 2 ∧ executed ≤ limit - engine.budget.used := by
    intro count executed last hpasses
    obtain ⟨hcount, hbuffer⟩ := hpasses.count_le (Nat.zero_le 2)
    obtain ⟨-, -, hexecuted⟩ := hpasses.used_eq hlimit hrange
    exact ⟨by omega, hexecuted⟩
  have hturns : limit - engine.budget.used < engine.turnsNeeded patience := by
    rw [turnsNeeded_of_some hlimit]
    exact Nat.lt_succ_self _
  have hended : (engine.run patience).verdict ≠ .running :=
    ended_of_limit hlimit hrange hturns #[]
  obtain ⟨count, executed, last, hpasses, hlast⟩ := exists_passes_of_runFor _ _ _ hended
  refine ⟨hbounds, ⟨count, executed, last, hpasses, hlast⟩, hended, ?_⟩
  obtain ⟨-, hexecuted⟩ := hbounds count executed last hpasses
  obtain ⟨hsame, hsum, -⟩ := hpasses.used_eq hlimit hrange
  have hused : last.engine.budget.used = engine.budget.used + executed := hsum
  have htotal : (engine.run patience).engine.budget.used ≤ max limit last.engine.budget.used :=
    Fetching.used_of_ended hlast hsame
  omega

/-- A program that pushes a byte and starts again, under a limit of five. -/
theorem limited_run_ends_push :
    let engine := (start (Script.start [] none) ⟨false, some 5⟩).load
      ⟨[96, 83, 83, 0], by decide⟩
    (∃ count executed last, Passes count executed (.begin engine #[]) last ∧
      last.pass = .ended (engine.run 0) ∧ count ≤ 17) ∧
    (engine.run 0).verdict ≠ .running ∧ (engine.run 0).engine.budget.used ≤ 5 := by
  intro engine
  obtain ⟨hbounds, ⟨count, executed, last, hpasses, hlast⟩, hended, hused⟩ :=
    @limited_run_ends Script _ engine 5 rfl (by decide) 0
  obtain ⟨hcount, hexecuted⟩ := hbounds count executed last hpasses
  have hstart : engine.budget.used = 0 := rfl
  rw [hstart] at hexecuted hused
  exact ⟨⟨count, executed, last, hpasses, hlast, by omega⟩, hended, hused⟩

end Engine

end ByteMachine
