import ByteMachine.Proofs.Engine.Repetition

/-!
# Runs that start afresh

An engine that has been used holds a machine, a count of executed instructions and
settings.  To load an image clears the machine and the count; and of the settings, a run
asks for nothing but whether its events are noted.  So what the run of an image comes to
is decided by the image, the console and the limit.

* `Engine.withSettings` — the same engine under other settings;
* `Engine.step_withSettings` — a step is the same under all settings;
* `Engine.runFor_withSettings` — and so is a run, apart from the events that it notes;
* `Engine.load_eq_withSettings` — engines into which the same image is loaded differ in
  their settings at most, if their consoles and their limits agree;
* `Engine.runImage_eq` — what is left of earlier runs does not matter, and whether the run
  is traced does not either.
-/

namespace ByteMachine

namespace Engine

variable {σ : Type}

/-- The same engine under other settings.  The limit in its budget stays. -/
def withSettings (engine : Engine σ) (settings : Settings) : Engine σ :=
  { engine with settings }

/-- **Loading forgets.**  Engines with the same console and the same limit differ in their
settings at most, once the same image is loaded. -/
theorem load_eq_withSettings {first second : Engine σ}
    (hconsole : first.session.console = second.session.console)
    (hlimit : first.budget.limit = second.budget.limit) (image : Image) :
    second.load image = (first.load image).withSettings second.settings := by
  have hsession : (second.load image).session = (first.load image).session :=
    congrArg (Session.mk (Machine.cleared.load image)) hconsole.symm
  have hbudget : (second.load image).budget = (first.load image).budget :=
    congrArg Budget.start hlimit.symm
  calc second.load image
      = ⟨(second.load image).session, second.settings, (second.load image).budget⟩ := rfl
    _ = ⟨(first.load image).session, second.settings, (first.load image).budget⟩ := by
        rw [hsession, hbudget]

variable [Console σ]

/-- **Steps under other settings.**  No step asks for the settings. -/
theorem step_withSettings {engine next : Engine σ} {verdict : Verdict}
    (h : Step engine verdict next) (settings : Settings) :
    Step (engine.withSettings settings) verdict (next.withSettings settings) := by
  cases h with
  | unknown hopcode => exact .unknown hopcode
  | badSymbol hopcode hindex => exact .badSymbol hopcode hindex
  | halts hdecode hhalt => exact .halts hdecode hhalt
  | refused hdecode hhalt hlimit hused => exact .refused hdecode hhalt hlimit hused
  | fails hdecode hhalt hallows hfailure hexecute =>
      exact .fails hdecode hhalt hallows hfailure hexecute
  | fallsThrough hdecode hhalt hallows hexecute hip =>
      exact .fallsThrough hdecode hhalt hallows hexecute hip
  | jumps hdecode hhalt hallows hexecute hip => exact .jumps hdecode hhalt hallows hexecute hip

/-- A turn under other settings differs in the events that it notes. -/
theorem turn_withSettings (engine : Engine σ) (settings : Settings)
    (events noted : Array Event) :
    ((engine.withSettings settings).turn noted).verdict = (engine.turn events).verdict ∧
      ((engine.withSettings settings).turn noted).engine =
        (engine.turn events).engine.withSettings settings :=
  turn_of_step (step_withSettings (step_turn engine events) settings) noted

/-- **Runs under other settings.**  A bounded run under other settings differs in the events
that it notes. -/
theorem runFor_withSettings (turns : Nat) (engine : Engine σ) (settings : Settings)
    (events noted : Array Event) :
    ((engine.withSettings settings).runFor turns noted).verdict =
        (engine.runFor turns events).verdict ∧
      ((engine.withSettings settings).runFor turns noted).engine =
        (engine.runFor turns events).engine.withSettings settings := by
  induction turns generalizing engine events noted with
  | zero => exact ⟨rfl, rfl⟩
  | succ turns ih =>
      obtain ⟨hverdict, hengine⟩ := turn_withSettings engine settings events noted
      by_cases hrunning : (engine.turn events).verdict = .running
      · have hboth : ((engine.withSettings settings).turn noted).verdict = .running :=
          hverdict.trans hrunning
        rw [runFor_succ_of_running hrunning, runFor_succ_of_running hboth, hengine]
        exact ih _ _ _
      · have hboth : ((engine.withSettings settings).turn noted).verdict ≠ .running :=
          fun h => hrunning (hverdict.symm.trans h)
        rw [runFor_succ_of_ended hrunning, runFor_succ_of_ended hboth]
        exact ⟨hverdict, hengine⟩

/-- **Nothing left over, nothing traced.**  Take two engines whose consoles are in the same
state and whose limits are the same; their machines, the instructions that they have
counted and their settings may be any, and so may be the runs that have led to them.  The
run of an image comes to the same on both: after every patience both are still running or
both have ended in the same way, and the machines, the consoles and the counts are equal. -/
theorem runImage_eq {first second : Engine σ}
    (hconsole : first.session.console = second.session.console)
    (hlimit : first.budget.limit = second.budget.limit) (image : Image) (patience : Nat) :
    (first.runImage image patience).verdict = (second.runImage image patience).verdict ∧
      (first.runImage image patience).engine.machine =
        (second.runImage image patience).engine.machine ∧
      (first.runImage image patience).engine.session.console =
        (second.runImage image patience).engine.session.console ∧
      (first.runImage image patience).engine.budget.used =
        (second.runImage image patience).engine.budget.used := by
  obtain ⟨hverdict, hengine⟩ := runFor_withSettings
    ((first.load image).turnsNeeded patience) (first.load image) second.settings #[] #[]
  have hsecond : second.runImage image patience =
      ((first.load image).withSettings second.settings).runFor
        ((first.load image).turnsNeeded patience) #[] := by
    rw [runImage, load_eq_withSettings hconsole hlimit]
    rfl
  rw [hsecond, hverdict, hengine]
  exact ⟨rfl, rfl, rfl, rfl⟩

/-- An engine that has failed after two instructions, and a new one that is traced: both
run a program that puts its stack pointer, which the earlier run has moved. -/
theorem runImage_eq_after_failure :
    let settings : Settings := ⟨false, some 9⟩
    let used := ((start (Script.start [] none) settings).runImage
      ⟨[96, 96, 102], by decide⟩ 0).engine
    let fresh := start (Script.start [] none) ⟨true, some 9⟩
    used.machine ≠ fresh.machine ∧ used.budget.used ≠ fresh.budget.used ∧
      used.session.console = fresh.session.console ∧
      used.budget.limit = fresh.budget.limit ∧
      (used.runImage ⟨[4, 6, 0], by decide⟩ 0).verdict =
        (fresh.runImage ⟨[4, 6, 0], by decide⟩ 0).verdict ∧
      (used.runImage ⟨[4, 6, 0], by decide⟩ 0).engine.session.console =
        (fresh.runImage ⟨[4, 6, 0], by decide⟩ 0).engine.session.console := by
  intro settings used fresh
  have hconsole : used.session.console = fresh.session.console := by decide +kernel
  have hlimit : used.budget.limit = fresh.budget.limit := by decide +kernel
  obtain ⟨hverdict, -, hsame, -⟩ := runImage_eq hconsole hlimit ⟨[4, 6, 0], by decide⟩ 0
  exact ⟨by decide +kernel, by decide +kernel, hconsole, hlimit, hverdict, hsame⟩

end Engine

end ByteMachine
