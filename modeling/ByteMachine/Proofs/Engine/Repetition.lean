import ByteMachine.Proofs.Engine.Step

/-!
# Runs as repetitions of steps

A run repeats steps as long as they leave it running.  The engine counts turns, so
that a run without a limit can be given up; with a limit the count is never what
ends a run.

* `Engine.runFor_cases`, `Engine.runFor_of_steps` — a bounded run is a repetition of
  steps and the other way round;
* `Engine.exists_last_turn` — the turn that ends a run, with the events before it;
* `Engine.used_of_steps` — every step uses up a part of the limit;
* `Engine.counted_of_steps` — every step is counted;
* `Engine.run_refines` — what a run does, in terms of steps, and how it can fail.
-/

namespace ByteMachine

/-- A fault of a run, apart from those of the console. -/
def Fault.OfRun : Fault → Prop
  | .invalidInstruction _ _ | .invalidRegisterIndex _ | .unimplemented _
  | .divisionByZero | .expectedRegister _ | .stepLimitExceeded _ => True
  | _ => False

/-- A console in some state fails with a fault. -/
def ConsoleFails (σ : Type) [Console σ] (fault : Fault) : Prop :=
  ∃ console next : σ, Console.getByte console = .error fault next ∨
    ∃ byte, Console.putByte byte console = .error fault next

namespace Engine

variable {σ : Type}

theorem turnsNeeded_of_some {engine : Engine σ} {limit : Nat}
    (h : engine.budget.limit = some limit) (patience : Nat) :
    engine.turnsNeeded patience = limit - engine.budget.used + 1 := by
  rw [turnsNeeded, h]

theorem turnsNeeded_of_none {engine : Engine σ} (h : engine.budget.limit = none)
    (patience : Nat) : engine.turnsNeeded patience = patience := by
  rw [turnsNeeded, h]

variable [Console σ]

/-- A number of steps that all leave the run running. -/
inductive Steps : Nat → Engine σ → Engine σ → Prop
  | zero (engine : Engine σ) : Steps 0 engine engine
  | succ {count : Nat} {engine middle final : Engine σ}
      (hstep : Step engine .running middle) (hrest : Steps count middle final) :
      Steps (count + 1) engine final

/-- Steps in a row are steps. -/
theorem Steps.trans {count more : Nat} {engine middle final : Engine σ}
    (h : Steps count engine middle) (hmore : Steps more middle final) :
    Steps (count + more) engine final := by
  induction h with
  | zero engine =>
      rw [Nat.zero_add]
      exact hmore
  | succ hstep hrest ih =>
      rw [Nat.add_right_comm]
      exact .succ hstep (ih hmore)

/-- Steps that leave the run running, and a last one that ends it. -/
def Ends (engine : Engine σ) (verdict : Verdict) (final : Engine σ) : Prop :=
  verdict ≠ .running ∧ ∃ count middle, Steps count engine middle ∧ Step middle verdict final

/-! ## Bounded runs -/

/-- A turn that leaves the run running is followed by the other turns. -/
theorem runFor_succ_of_running {turns : Nat} {engine : Engine σ}
    {events : Array Event} (h : (engine.turn events).verdict = .running) :
    engine.runFor (turns + 1) events =
      (engine.turn events).engine.runFor turns (engine.turn events).events := by
  rw [runFor]
  split
  case h_1 hturn => rw [hturn]
  case h_2 hother =>
    refine absurd ?_ (hother (engine.turn events).engine (engine.turn events).events)
    rw [← h]

/-- A turn that ends the run is the last one. -/
theorem runFor_succ_of_ended {turns : Nat} {engine : Engine σ}
    {events : Array Event} (h : (engine.turn events).verdict ≠ .running) :
    engine.runFor (turns + 1) events = engine.turn events := by
  rw [runFor]
  split
  case h_1 hturn => exact absurd (by rw [hturn]) h
  case h_2 => rfl

/-- **Bounded runs are steps.**  A run of at most so many turns makes so many steps
and is still running, or it ends with an earlier one. -/
theorem runFor_cases (turns : Nat) (engine : Engine σ) (events : Array Event) :
    ((engine.runFor turns events).verdict = .running ∧
        Steps turns engine (engine.runFor turns events).engine) ∨
      ((engine.runFor turns events).verdict ≠ .running ∧
        ∃ count middle, count < turns ∧ Steps count engine middle ∧
          Step middle (engine.runFor turns events).verdict
            (engine.runFor turns events).engine) := by
  induction turns generalizing engine events with
  | zero => exact .inl ⟨rfl, .zero engine⟩
  | succ turns ih =>
      have hturn := step_turn engine events
      by_cases hrunning : (engine.turn events).verdict = .running
      · rw [hrunning] at hturn
        rw [runFor_succ_of_running hrunning]
        rcases ih (engine.turn events).engine (engine.turn events).events with
          ⟨hverdict, hsteps⟩ | ⟨hverdict, count, middle, hcount, hsteps, hlast⟩
        · exact .inl ⟨hverdict, .succ hturn hsteps⟩
        · exact .inr ⟨hverdict, count + 1, middle, Nat.succ_lt_succ hcount,
            .succ hturn hsteps, hlast⟩
      · rw [runFor_succ_of_ended hrunning]
        exact .inr ⟨hrunning, 0, engine, Nat.succ_pos turns, .zero engine, hturn⟩

/-- **The last turn.**  A bounded run that has ended is a turn, behind steps that leave it
running; the events before that turn are its own. -/
theorem exists_last_turn {turns : Nat} {engine : Engine σ} {events : Array Event}
    (h : (engine.runFor turns events).verdict ≠ .running) :
    ∃ count last before, Steps count engine last ∧
      engine.runFor turns events = last.turn before := by
  induction turns generalizing engine events with
  | zero => exact absurd rfl h
  | succ turns ih =>
      by_cases hrunning : (engine.turn events).verdict = .running
      · have hstep := step_turn engine events
        rw [hrunning] at hstep
        rw [runFor_succ_of_running hrunning] at h ⊢
        obtain ⟨count, last, before, hsteps, hlast⟩ := ih h
        exact ⟨count + 1, last, before, .succ hstep hsteps, hlast⟩
      · rw [runFor_succ_of_ended hrunning]
        exact ⟨0, engine, events, .zero engine, rfl⟩

/-- **Steps are bounded runs.**  Steps of which the last one ends the run are what a
run of more turns does. -/
theorem runFor_of_steps {count turns : Nat} {engine middle final : Engine σ}
    {verdict : Verdict} (hsteps : Steps count engine middle)
    (hlast : Step middle verdict final) (hverdict : verdict ≠ .running)
    (hcount : count < turns) (events : Array Event) :
    (engine.runFor turns events).verdict = verdict ∧
      (engine.runFor turns events).engine = final := by
  induction hsteps generalizing turns events with
  | zero engine =>
      obtain ⟨turns, rfl⟩ := Nat.exists_eq_add_one.mpr hcount
      obtain ⟨rfl, rfl⟩ := turn_of_step hlast events
      rw [runFor_succ_of_ended hverdict]
      exact ⟨rfl, rfl⟩
  | @succ count engine next middle hstep hrest ih =>
      obtain ⟨turns, rfl⟩ := Nat.exists_eq_add_one.mpr (Nat.zero_lt_of_lt hcount)
      obtain ⟨hrunning, rfl⟩ := turn_of_step hstep events
      rw [runFor_succ_of_running hrunning]
      exact ih hlast (Nat.lt_of_succ_lt_succ hcount) _

/-! ## Limits -/

/-- A step that leaves the run running counts as one and keeps the limit. -/
theorem budget_of_step {engine next : Engine σ} (h : Step engine .running next) :
    engine.budget.Allows ∧ next.budget = engine.budget.count := by
  cases h with
  | fallsThrough hdecode hhalt hallows hexecute hip => exact ⟨hallows, rfl⟩
  | jumps hdecode hhalt hallows hexecute hip => exact ⟨hallows, rfl⟩

/-- **Steps use up the limit.**  After some steps that leave the run running, as many
are used as before and these, which is no more than the limit. -/
theorem used_of_steps {count limit : Nat} {engine final : Engine σ}
    (hsteps : Steps count engine final) (hcount : 0 < count)
    (hlimit : engine.budget.limit = some limit) (hrange : limit ≤ Budget.maxCount) :
    engine.budget.used + count ≤ limit := by
  induction hsteps with
  | zero => exact absurd hcount (Nat.lt_irrefl 0)
  | @succ count engine middle final hstep hrest ih =>
      obtain ⟨hallows, hbudget⟩ := budget_of_step hstep
      have hused := hallows limit hlimit
      rcases Nat.eq_zero_or_pos count with rfl | hmore
      · exact hused
      · have hnext : middle.budget.used = engine.budget.used + 1 := by
          rw [hbudget]
          exact Nat.min_eq_left (Nat.le_trans hused hrange)
        have hrest := ih hmore (by rw [hbudget]; exact hlimit)
        omega

/-- A count that stops at a greatest number does so too if it is taken in two parts. -/
theorem min_min_add_one (used more greatest : Nat) :
    min (min (used + 1) greatest + more) greatest = min (used + (more + 1)) greatest := by
  omega

/-- **Steps are counted.**  Every step counts, as long as the count does not stop at its
largest number. -/
theorem counted_of_steps {count : Nat} {engine final : Engine σ}
    (hsteps : Steps count engine final) (hused : engine.budget.used ≤ Budget.maxCount) :
    final.budget.used = min (engine.budget.used + count) Budget.maxCount := by
  induction hsteps with
  | zero engine => rw [Nat.add_zero, Nat.min_eq_left hused]
  | @succ count engine middle final hstep hrest ih =>
      have hcount : middle.budget.used = min (engine.budget.used + 1) Budget.maxCount := by
        rw [(budget_of_step hstep).2]
        rfl
      rw [ih (hcount ▸ Nat.min_le_right _ _), hcount, min_min_add_one]

/-! ## Faults -/

/-- A step fails in the ways of runs, or the console does. -/
theorem fault_of_step {engine final : Engine σ} {fault : Fault}
    (h : Step engine (.failed fault) final) : fault.OfRun ∨ ConsoleFails σ fault := by
  cases h with
  | unknown hopcode => exact .inl trivial
  | badSymbol hopcode hindex => exact .inl trivial
  | refused hdecode hhalt hlimit hused => exact .inl trivial
  | fails hdecode hhalt hallows hfailure hexecute =>
      cases hfailure with
      | operation hfault =>
          left
          cases fault <;> trivial
      | input hinput => exact .inr ⟨_, _, .inl hinput⟩
      | output houtput => exact .inr ⟨_, _, .inr ⟨_, houtput⟩⟩

/-! ## Runs -/

/-- A run that has ended has made steps, the last of which ended it. -/
theorem ends_of_run {engine : Engine σ} {patience : Nat}
    (h : (engine.run patience).verdict ≠ .running) :
    Ends engine (engine.run patience).verdict (engine.run patience).engine := by
  rcases runFor_cases (engine.turnsNeeded patience) engine #[] with
    ⟨hrunning, -⟩ | ⟨-, count, middle, -, hsteps, hlast⟩
  · exact absurd hrunning h
  · exact ⟨h, count, middle, hsteps, hlast⟩

/-- Steps behind a load, and a last one, are what the run of an image without a limit
does. -/
theorem runImage_of_steps {count patience : Nat} {engine last final : Engine σ} {image : Image}
    {verdict : Verdict} (hfree : engine.budget.limit = none)
    (hsteps : Steps count (engine.load image) last) (hlast : Step last verdict final)
    (hverdict : verdict ≠ .running) (hpatience : count < patience) :
    (engine.runImage image patience).verdict = verdict ∧
      (engine.runImage image patience).engine = final := by
  have hload : (engine.load image).budget.limit = none := hfree
  rw [runImage, run, turnsNeeded_of_none hload]
  exact runFor_of_steps hsteps hlast hverdict hpatience #[]

/-- **Runs repeat steps.**  Let the limit, if there is one, be a number of 64 bits.
A run that has not ended has no limit, and its patience was used up by steps.  A run
that has ended repeats steps until one of them ends it.  Whatever steps end in, runs
end in, given enough patience.  A run that fails does so in the ways of runs, or with
a fault of the console. -/
theorem run_refines (engine : Engine σ)
    (hrange : ∀ limit, engine.budget.limit = some limit → limit ≤ Budget.maxCount) :
    (∀ patience, (engine.run patience).verdict = .running →
      engine.budget.limit = none ∧ Steps patience engine (engine.run patience).engine) ∧
    (∀ patience, (engine.run patience).verdict ≠ .running →
      Ends engine (engine.run patience).verdict (engine.run patience).engine) ∧
    (∀ verdict final, Ends engine verdict final →
      ∃ enough, ∀ patience, enough ≤ patience →
        (engine.run patience).verdict = verdict ∧ (engine.run patience).engine = final) ∧
    ∀ fault final, Ends engine (.failed fault) final →
      fault.OfRun ∨ ConsoleFails σ fault := by
  refine ⟨fun patience hrunning => ?_, fun patience hended => ?_, ?_, ?_⟩
  · rcases runFor_cases (engine.turnsNeeded patience) engine #[] with
      ⟨-, hsteps⟩ | ⟨hended, -⟩
    · cases hlimit : engine.budget.limit with
      | none =>
          rw [turnsNeeded_of_none hlimit] at hsteps
          rw [run, turnsNeeded_of_none hlimit]
          exact ⟨rfl, hsteps⟩
      | some limit =>
          rw [turnsNeeded_of_some hlimit] at hsteps
          have hused := used_of_steps hsteps (Nat.succ_pos _) hlimit (hrange limit hlimit)
          omega
    · exact absurd hrunning hended
  · rcases runFor_cases (engine.turnsNeeded patience) engine #[] with
      ⟨hrunning, -⟩ | ⟨-, count, middle, -, hsteps, hlast⟩
    · exact absurd hrunning hended
    · exact ⟨hended, count, middle, hsteps, hlast⟩
  · rintro verdict final ⟨hverdict, count, middle, hsteps, hlast⟩
    refine ⟨count + 1, fun patience hpatience => ?_⟩
    refine runFor_of_steps hsteps hlast hverdict ?_ #[]
    cases hlimit : engine.budget.limit with
    | none =>
        rw [turnsNeeded_of_none hlimit]
        exact hpatience
    | some limit =>
        rw [turnsNeeded_of_some hlimit]
        rcases Nat.eq_zero_or_pos count with rfl | hcount
        · exact Nat.succ_pos _
        · have hused := used_of_steps hsteps hcount hlimit (hrange limit hlimit)
          omega
  · rintro fault final ⟨-, count, middle, -, hlast⟩
    exact fault_of_step hlast

/-- An engine that jumps in place runs into its limit. -/
theorem run_refines_loop :
    let engine := (start (Script.start [] none) ⟨false, some 3⟩).load ⟨[83, 0], by decide⟩
    Ends engine (.failed (.stepLimitExceeded 3)) (engine.run 0).engine ∧
      Fault.OfRun (.stepLimitExceeded 3) := by
  intro engine
  have hverdict : (engine.run 0).verdict = .failed (.stepLimitExceeded 3) := by
    decide +kernel
  have hrange : ∀ limit, engine.budget.limit = some limit → limit ≤ Budget.maxCount := by
    rintro limit hlimit
    obtain rfl := Option.some.inj hlimit
    decide
  obtain ⟨-, hended, -, -⟩ := run_refines engine hrange
  have hends := hended 0 (by rw [hverdict]; exact Verdict.noConfusion)
  rw [hverdict] at hends
  exact ⟨hends, trivial⟩

end Engine

end ByteMachine
