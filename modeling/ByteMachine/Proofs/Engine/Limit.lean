import ByteMachine.Proofs.Engine.Repetition

/-!
# Limits cut runs

A step limit decides when a run is cut off and nothing else.  Take the same engine
once without a limit and once with one.  As long as the limit allows it, both make
the same steps; at the first instruction that counts and is not allowed the limited
run ends, with the instruction fetched and not executed.

* `Engine.Charges` — an instruction that counts comes next;
* `Engine.EndsAfter` — a run ends after so many instructions that count;
* `Engine.steps_withBudget` — the same steps under a limit;
* `Engine.exists_charges_of_exceeds` — a run that needs more than a number of
  instructions is at one more after that number of steps;
* `Engine.limit_cuts_run` — runs with a limit in terms of runs without one.
-/

namespace ByteMachine

namespace Engine

variable {σ : Type}

/-! ## Instructions that count -/

/-- The same engine with another budget. -/
def withBudget (engine : Engine σ) (budget : Budget) : Engine σ :=
  { engine with budget }

/-- The same engine, with as much used, under another limit or under none. -/
def withLimit (engine : Engine σ) (limit : Option Nat) : Engine σ :=
  engine.withBudget ⟨engine.budget.used, limit⟩

/-- The bytes at the instruction pointer are an instruction and no halt, so the
budget is asked for it. -/
def Charges (engine : Engine σ) : Prop :=
  ∃ instruction, engine.Decodes instruction ∧ instruction.operation ≠ .halt

theorem not_charges_of_halt {engine : Engine σ} {instruction : Instruction}
    (hdecode : engine.Decodes instruction) (hhalt : instruction.operation = .halt) :
    ¬ engine.Charges := by
  rintro ⟨other, hother, hne⟩
  obtain rfl := eq_of_decodes hdecode hother
  exact hne hhalt

variable [Console σ]

/-- A run that makes steps, and ends with one more.  The instructions of the steps
count, and that of the last step counts unless it is a halt or does not decode. -/
inductive EndsAfter (engine : Engine σ) : Nat → Verdict → Engine σ → Prop
  /-- The last instruction counts. -/
  | charged {count : Nat} {last final : Engine σ} {verdict : Verdict}
      (hsteps : Steps count engine last) (hlast : Step last verdict final)
      (hverdict : verdict ≠ .running) (hcharges : last.Charges) :
      EndsAfter engine (count + 1) verdict final
  /-- The last instruction does not count. -/
  | uncharged {count : Nat} {last final : Engine σ} {verdict : Verdict}
      (hsteps : Steps count engine last) (hlast : Step last verdict final)
      (hverdict : verdict ≠ .running) (hcharges : ¬ last.Charges) :
      EndsAfter engine count verdict final

/-- A run that ends does so after some number of instructions that count. -/
theorem exists_endsAfter_of_ends {engine final : Engine σ} {verdict : Verdict}
    (h : Ends engine verdict final) : ∃ charged, engine.EndsAfter charged verdict final := by
  obtain ⟨hverdict, count, last, hsteps, hlast⟩ := h
  by_cases hcharges : last.Charges
  · exact ⟨count + 1, .charged hsteps hlast hverdict hcharges⟩
  · exact ⟨count, .uncharged hsteps hlast hverdict hcharges⟩

/-- A step that leaves the run running is one of an instruction that counts. -/
theorem charges_of_running {engine next : Engine σ} (h : Step engine .running next) :
    engine.Charges := by
  cases h with
  | fallsThrough hdecode hhalt hallows hexecute hip => exact ⟨_, hdecode, hhalt⟩
  | jumps hdecode hhalt hallows hexecute hip => exact ⟨_, hdecode, hhalt⟩

/-! ## Steps under another budget -/

/-- An instruction that counts does under a budget that allows it what it does
without a limit. -/
theorem step_withBudget_of_charges {engine next : Engine σ} {verdict : Verdict}
    (h : Step engine verdict next) (hfree : engine.budget.limit = none)
    (hcharges : engine.Charges) {budget : Budget} (hallows : budget.Allows) :
    Step (engine.withBudget budget) verdict (next.withBudget budget.count) := by
  cases h with
  | unknown hopcode =>
      obtain ⟨instruction, hdecode, -⟩ := hcharges
      exact absurd hdecode (not_decodes_of_unknown hopcode instruction)
  | badSymbol hopcode hindex =>
      obtain ⟨instruction, hdecode, -⟩ := hcharges
      exact absurd hdecode (not_decodes_of_badSymbol hopcode hindex instruction)
  | halts hdecode hhalt => exact absurd hcharges (not_charges_of_halt hdecode hhalt)
  | refused hdecode hhalt hlimit hused =>
      rw [hfree] at hlimit
      cases hlimit
  | fails hdecode hhalt _ hfailure hexecute =>
      exact .fails hdecode hhalt hallows hfailure hexecute
  | fallsThrough hdecode hhalt _ hexecute hip =>
      exact .fallsThrough hdecode hhalt hallows hexecute hip
  | jumps hdecode hhalt _ hexecute hip => exact .jumps hdecode hhalt hallows hexecute hip

/-- What is no instruction that counts does the same under every budget, and leaves
the budget alone. -/
theorem step_withBudget_of_not_charges {engine next : Engine σ} {verdict : Verdict}
    (h : Step engine verdict next) (hcharges : ¬ engine.Charges) (budget : Budget) :
    Step (engine.withBudget budget) verdict (next.withBudget budget) := by
  cases h with
  | unknown hopcode => exact .unknown hopcode
  | badSymbol hopcode hindex => exact .badSymbol hopcode hindex
  | halts hdecode hhalt => exact .halts hdecode hhalt
  | refused hdecode hhalt hlimit hused => exact absurd ⟨_, hdecode, hhalt⟩ hcharges
  | fails hdecode hhalt _ hfailure hexecute => exact absurd ⟨_, hdecode, hhalt⟩ hcharges
  | fallsThrough hdecode hhalt _ hexecute hip => exact absurd ⟨_, hdecode, hhalt⟩ hcharges
  | jumps hdecode hhalt _ hexecute hip => exact absurd ⟨_, hdecode, hhalt⟩ hcharges

private theorem allows_of_lt {used limit : Nat} (h : used < limit) :
    Budget.Allows ⟨used, some limit⟩ := by
  intro other hother
  obtain rfl := Option.some.inj hother
  exact h

private theorem count_of_lt {used limit : Nat} (h : used < limit)
    (hrange : limit ≤ Budget.maxCount) :
    Budget.count ⟨used, some limit⟩ = ⟨used + 1, some limit⟩ := by
  have hmin : min (used + 1) Budget.maxCount = used + 1 := by omega
  rw [Budget.count, hmin]

/-- **The same steps under a limit.**  Steps without a limit are steps under every
limit that allows as many, and each of them uses up one. -/
theorem steps_withBudget {count used limit : Nat} {engine final : Engine σ}
    (hsteps : Steps count engine final) (hfree : engine.budget.limit = none)
    (hfits : used + count ≤ limit) (hrange : limit ≤ Budget.maxCount) :
    Steps count (engine.withBudget ⟨used, some limit⟩)
      (final.withBudget ⟨used + count, some limit⟩) := by
  induction hsteps generalizing used with
  | zero engine => exact .zero _
  | @succ count engine middle final hstep hrest ih =>
      have hlt : used < limit := by omega
      have hfirst := step_withBudget_of_charges hstep hfree (charges_of_running hstep)
        (allows_of_lt hlt)
      rw [count_of_lt hlt hrange] at hfirst
      have hnext : middle.budget.limit = none := by
        rw [(budget_of_step hstep).2]
        exact hfree
      have hsum : used + 1 + count = used + (count + 1) := by omega
      have hmore := ih hnext (Nat.le_trans (Nat.le_of_eq hsum) hfits)
      rw [hsum] at hmore
      exact .succ hfirst hmore

/-- Steps without a limit lead to an engine without a limit. -/
theorem limit_of_steps {count : Nat} {engine final : Engine σ}
    (hsteps : Steps count engine final) : final.budget.limit = engine.budget.limit := by
  induction hsteps with
  | zero engine => rfl
  | succ hstep hrest ih =>
      rw [ih, (budget_of_step hstep).2]
      rfl

/-! ## Reaching the limit -/

/-- Steps come apart at every number of them, and an instruction that counts is next
there if it is not the last one. -/
theorem exists_charges_of_steps {count enough : Nat} {engine final : Engine σ}
    (hsteps : Steps count engine final) (hlt : enough < count) :
    ∃ boundary, Steps enough engine boundary ∧ boundary.Charges := by
  induction hsteps generalizing enough with
  | zero engine => exact absurd hlt (Nat.not_lt_zero enough)
  | succ hstep hrest ih =>
      cases enough with
      | zero => exact ⟨_, .zero _, charges_of_running hstep⟩
      | succ enough =>
          obtain ⟨boundary, hfront, hcharges⟩ := ih (Nat.lt_of_succ_lt_succ hlt)
          exact ⟨boundary, .succ hstep hfront, hcharges⟩

/-- **Runs that need more.**  A run without a limit that ends after more instructions
than a number, or not at all, is at one more instruction after that number. -/
theorem exists_charges_of_exceeds {engine : Engine σ} (hfree : engine.budget.limit = none)
    {enough : Nat}
    (hexceeds : (∃ charged verdict final,
        engine.EndsAfter charged verdict final ∧ enough < charged) ∨
      ∀ patience, (engine.run patience).verdict = .running) :
    ∃ boundary, Steps enough engine boundary ∧ boundary.Charges := by
  rcases hexceeds with ⟨charged, verdict, final, hends, hlt⟩ | hnever
  · cases hends with
    | @charged count last final verdict hsteps hlast hverdict hcharges =>
        rcases Nat.lt_or_ge enough count with hless | hmore
        · exact exists_charges_of_steps hsteps hless
        · obtain rfl : enough = count := by omega
          exact ⟨last, hsteps, hcharges⟩
    | uncharged hsteps hlast hverdict hcharges => exact exists_charges_of_steps hsteps hlt
  · -- One turn more than needed: the last of these steps shows that an instruction was next.
    have hrunning := hnever (enough + 1)
    rw [run, turnsNeeded_of_none hfree] at hrunning
    rcases runFor_cases (enough + 1) engine #[] with ⟨-, hsteps⟩ | ⟨hended, -⟩
    · exact exists_charges_of_steps hsteps (Nat.lt_succ_self enough)
    · exact absurd hrunning hended

/-! ## Runs under a limit -/

/-- Steps that the limit allows, and a last one, are the run under the limit. -/
private theorem run_of_steps {count limit : Nat} {engine last final : Engine σ}
    {verdict : Verdict} (hsteps : Steps count engine last) (hlast : Step last verdict final)
    (hverdict : verdict ≠ .running) (hlimit : engine.budget.limit = some limit)
    (hfits : engine.budget.used + count ≤ limit) (patience : Nat) :
    (engine.run patience).verdict = verdict ∧ (engine.run patience).engine = final := by
  rw [run, turnsNeeded_of_some hlimit]
  exact runFor_of_steps hsteps hlast hverdict (by omega) #[]

/-- A run that ends within the limit ends so under it. -/
private theorem run_of_endsAfter {engine final : Engine σ} {charged used limit : Nat}
    {verdict : Verdict} (hends : engine.EndsAfter charged verdict final)
    (hfree : engine.budget.limit = none) (hfits : used + charged ≤ limit)
    (hrange : limit ≤ Budget.maxCount) (patience : Nat) :
    ((engine.withBudget ⟨used, some limit⟩).run patience).verdict = verdict ∧
      ((engine.withBudget ⟨used, some limit⟩).run patience).engine =
        final.withBudget ⟨used + charged, some limit⟩ := by
  cases hends with
  | @charged count last _ _ hsteps hlast hverdict hcharges =>
      -- The last instruction takes one more from the limit, so the steps leave some of it.
      have hlt : used + count < limit := by omega
      have hlimited := steps_withBudget hsteps hfree (Nat.le_of_lt hlt) hrange
      have hend := step_withBudget_of_charges hlast ((limit_of_steps hsteps).trans hfree)
        hcharges (allows_of_lt hlt)
      rw [count_of_lt hlt hrange] at hend
      exact run_of_steps hlimited hend hverdict rfl (Nat.le_of_lt hlt) patience
  | uncharged hsteps hlast hverdict hcharges =>
      have hlimited := steps_withBudget hsteps hfree hfits hrange
      have hend := step_withBudget_of_not_charges hlast hcharges ⟨used + charged, some limit⟩
      exact run_of_steps hlimited hend hverdict rfl hfits patience

/-- **Limits cut runs.**  Let as much be used as the limit allows or less.  If the run
without a limit ends after a number of instructions that count, and the limit allows
as many, then the run under the limit ends in the same way with the same machine and
the same console.  If it ends after more of them, or never, then the run under the
limit makes the steps that the limit allows, fetches one more instruction and fails
with the whole limit used.  Every run without a limit that ends is of the first kind
or of the second. -/
theorem limit_cuts_run (engine : Engine σ) {limit : Nat} (hused : engine.budget.used ≤ limit)
    (hrange : limit ≤ Budget.maxCount) (patience : Nat) :
    (∀ charged verdict final,
      (engine.withLimit none).EndsAfter charged verdict final →
      engine.budget.used + charged ≤ limit →
        ((engine.withLimit (some limit)).run patience).verdict = verdict ∧
        ((engine.withLimit (some limit)).run patience).engine =
          final.withBudget ⟨engine.budget.used + charged, some limit⟩) ∧
    ((∃ charged verdict final, (engine.withLimit none).EndsAfter charged verdict final ∧
        limit < engine.budget.used + charged) ∨
      (∀ patience, ((engine.withLimit none).run patience).verdict = .running) →
        ∃ boundary instruction,
          Steps (limit - engine.budget.used) (engine.withLimit none) boundary ∧
          boundary.Decodes instruction ∧
          ((engine.withLimit (some limit)).run patience).verdict =
            .failed (.stepLimitExceeded limit) ∧
          ((engine.withLimit (some limit)).run patience).engine =
            (boundary.onLast instruction.opcode).withBudget ⟨limit, some limit⟩) ∧
    ∀ patience, ((engine.withLimit none).run patience).verdict ≠ .running →
      ∃ charged, (engine.withLimit none).EndsAfter charged
        ((engine.withLimit none).run patience).verdict
        ((engine.withLimit none).run patience).engine := by
  refine ⟨?_, ?_, ?_⟩
  · intro charged verdict final hends hfits
    exact run_of_endsAfter hends rfl hfits hrange patience
  · intro hexceeds
    have hmore : (∃ charged verdict final,
        (engine.withLimit none).EndsAfter charged verdict final ∧
          limit - engine.budget.used < charged) ∨
        ∀ patience, ((engine.withLimit none).run patience).verdict = .running := by
      rcases hexceeds with ⟨charged, verdict, final, hends, hlt⟩ | hnever
      · exact .inl ⟨charged, verdict, final, hends, by omega⟩
      · exact .inr hnever
    obtain ⟨boundary, hsteps, instruction, hdecode, hhalt⟩ :=
      exists_charges_of_exceeds rfl hmore
    have hall : engine.budget.used + (limit - engine.budget.used) = limit := by omega
    have hlimited := steps_withBudget hsteps rfl (Nat.le_of_eq hall) hrange
    rw [hall] at hlimited
    have hend : Step (boundary.withBudget ⟨limit, some limit⟩)
        (.failed (.stepLimitExceeded limit))
        ((boundary.onLast instruction.opcode).withBudget ⟨limit, some limit⟩) :=
      .refused hdecode hhalt rfl (Nat.le_refl limit)
    obtain ⟨hverdict, hengine⟩ :=
      run_of_steps hlimited hend Verdict.noConfusion rfl (Nat.le_of_eq hall) patience
    exact ⟨boundary, instruction, hsteps, hdecode, hverdict, hengine⟩
  · intro patience hended
    exact exists_endsAfter_of_ends (ends_of_run hended)

/-- A run of two instructions and a halt, under a limit of two and under a limit of
one. -/
theorem limit_cuts_run_halt :
    let engine := (start (Script.start [] none) ⟨false, none⟩).load
      ⟨[77, 65, 1, 97, 1, 0], by decide⟩
    (∃ final, (engine.withLimit none).EndsAfter 2 .halted final ∧
      ((engine.withLimit (some 2)).run 0).verdict = .halted ∧
      ((engine.withLimit (some 2)).run 0).engine = final.withBudget ⟨2, some 2⟩) ∧
    ∃ boundary instruction, Steps 1 (engine.withLimit none) boundary ∧
      boundary.Decodes instruction ∧
      ((engine.withLimit (some 1)).run 0).verdict = .failed (.stepLimitExceeded 1) ∧
      ((engine.withLimit (some 1)).run 0).engine =
        (boundary.onLast instruction.opcode).withBudget ⟨1, some 1⟩ := by
  intro engine
  let last := ((engine.withLimit none).runFor 2 #[]).engine
  have hsteps : Steps 2 (engine.withLimit none) last := by
    rcases runFor_cases 2 (engine.withLimit none) #[] with ⟨-, hsteps⟩ | ⟨hended, -⟩
    · exact hsteps
    · exact absurd (by decide +kernel) hended
  have hhalt : last.Decodes ⟨⟨0, by decide⟩, []⟩ := by
    unfold Decodes
    decide +kernel
  have hlast := Step.halts hhalt rfl
  have hends := EndsAfter.uncharged hsteps hlast Verdict.noConfusion
    (not_charges_of_halt hhalt rfl)
  obtain ⟨hwithin, -, -⟩ := @limit_cuts_run Script _ engine 2 (by decide) (by decide) 0
  obtain ⟨-, hbeyond, -⟩ := @limit_cuts_run Script _ engine 1 (by decide) (by decide) 0
  exact ⟨⟨_, hends, hwithin 2 _ _ hends (by decide)⟩,
    hbeyond (.inl ⟨2, .halted, _, hends, by decide⟩)⟩

end Engine

end ByteMachine
