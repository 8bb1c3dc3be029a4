import ByteMachine.Proofs.Engine.Trace

/-!
# Comparisons and the jumps behind them

A comparison takes the difference of two values as an exact number, so that the flag for
zero says afterwards whether they are equal and the flag for the sign whether the first
one is less.  Nothing but another comparison or a test changes these flags, and the flag
for overflow is false in every run, so a jump finds them as they were set.

The jump for greater-or-equal reads the sign and decides the signed order.  The jumps for
less and for less-or-equal read the flag for zero where the sign would have to be read:
both of them jump on equal values, and on no others.

* `Machine.Compares` — the flags that a comparison leaves;
* `Machine.Decides` — the condition of each jump, in terms of the two values;
* `Machine.Orders`, `Machine.Decides.orders_iff` — the conditions that the jumps are named
  for, and when they are the same;
* `Engine.LastCompared` — the last comparison in a run;
* `Engine.decides_of_lastCompared` — jumps behind a comparison.
-/

namespace ByteMachine

/-! ## Flags and jumps -/

namespace Machine

/-- The flags are those of a comparison of `x` with `y`. -/
structure Compares (machine : Machine) (x y : Int8) : Prop where
  zero : machine.flag .zero = (x.toInt - y.toInt == 0)
  sign : machine.flag .sign = decide (x.toInt - y.toInt < 0)
  overflow : machine.flag .overflow = false

/-- What the jumps decide about two values. -/
structure Decides (machine : Machine) (x y : Int8) : Prop where
  jz : Jump.jz.taken machine = true ↔ x = y
  jnz : Jump.jnz.taken machine = true ↔ x ≠ y
  jl : Jump.jl.taken machine = true ↔ x = y
  jle : Jump.jle.taken machine = true ↔ x = y
  jge : Jump.jge.taken machine = true ↔ y ≤ x

/-- What the jumps would decide about two values if they implemented the signed order. -/
structure Orders (machine : Machine) (x y : Int8) : Prop where
  jz : Jump.jz.taken machine = true ↔ x = y
  jnz : Jump.jnz.taken machine = true ↔ x ≠ y
  jl : Jump.jl.taken machine = true ↔ x < y
  jle : Jump.jle.taken machine = true ↔ x ≤ y
  jge : Jump.jge.taken machine = true ↔ y ≤ x

variable {machine : Machine} {x y : Int8}

/-- After a comparison the flag for zero stands for equality. -/
theorem Compares.zero_iff (h : machine.Compares x y) :
    machine.flag .zero = true ↔ x = y := by
  have hdifference : x.toInt - y.toInt = 0 ↔ x.toInt = y.toInt := Int.sub_eq_zero
  rw [h.zero, beq_iff_eq, hdifference]
  exact Int8.toInt_inj

/-- After a comparison the flag for the sign stands for the signed order. -/
theorem Compares.sign_iff (h : machine.Compares x y) :
    machine.flag .sign = true ↔ x < y := by
  -- The difference is not brought back into eight bits, so its sign is never lost.
  have hdifference : x.toInt - y.toInt < 0 ↔ x.toInt < y.toInt := by omega
  rw [h.sign, decide_eq_true_iff, hdifference]
  exact Int8.lt_iff_toInt_lt.symm

/-- **Jumps after comparisons.**  The flags of a comparison decide whether the values are
equal and whether the first one is not less than the second one. -/
theorem Compares.decides (h : machine.Compares x y) : machine.Decides x y where
  jz := h.zero_iff
  jnz := by
    rw [Jump.taken, Bool.not_eq_true', ← Bool.not_eq_true]
    exact not_congr h.zero_iff
  jl := by
    rw [Jump.taken, h.overflow, Bool.bne_false]
    exact h.zero_iff
  jle := by
    rw [Jump.taken, h.overflow, Bool.bne_false, Bool.or_self]
    exact h.zero_iff
  jge := by
    rw [Jump.taken, h.overflow, beq_iff_eq, ← Bool.not_eq_true, h.sign_iff]
    exact Int8.not_lt

/-- **The signed order.**  The jumps implement the signed order where the first value is
the greater one, and nowhere else. -/
theorem Decides.orders_iff (h : machine.Decides x y) : machine.Orders x y ↔ y < x := by
  constructor
  · intro horders
    have hless : x = y ↔ x < y := h.jl.symm.trans horders.jl
    have hne : x ≠ y := fun heq => Int8.ne_of_lt (hless.mp heq) heq
    have hge : y ≤ x := Int8.not_lt.mp fun hlt => hne (hless.mpr hlt)
    exact Int8.lt_of_le_of_ne hge hne.symm
  · intro hlt
    have hne : ¬ x = y := fun heq => Int8.ne_of_lt hlt heq.symm
    exact
      { jz := h.jz
        jnz := h.jnz
        jl := h.jl.trans (iff_of_false hne (Int8.not_lt.mpr (Int8.le_of_lt hlt)))
        jle := h.jle.trans (iff_of_false hne (Int8.not_le.mpr hlt))
        jge := h.jge }

end Machine

/-! ## Comparisons in a run -/

namespace Engine

variable {σ : Type} [Console σ]

/-- An engine that has been loaded and has run since, where the last comparison compared
`x` with `y`, and no test has been made since then. -/
inductive LastCompared (final : Engine σ) (x y : Int8) : Prop
  | intro {engine current next : Engine σ} {image : Image} {before after : List Instruction}
      {instruction : Instruction} (hbefore : Trace (engine.load image) before current)
      (hdecode : current.Decodes instruction) (hcmp : instruction.operation = .cmp)
      (hx : (current.onLast instruction.opcode).machine.value
        (operandAt instruction.operands 0) = x)
      (hy : (current.onLast instruction.opcode).machine.value
        (operandAt instruction.operands 1) = y)
      (hstep : Step current .running next) (hafter : Trace next after final)
      (hquiet : ∀ other ∈ after, other.operation ≠ .cmp ∧ other.operation ≠ .test) :
      LastCompared final x y

/-- A flag is kept by instructions that are no comparisons and no tests. -/
theorem flag_of_trace {engine final : Engine σ} {instructions : List Instruction}
    (h : Trace engine instructions final)
    (hquiet : ∀ other ∈ instructions, other.operation ≠ .cmp ∧ other.operation ≠ .test)
    (f : Flag) : final.machine.flag f = engine.machine.flag f := by
  have hagrees : final.machine.AgreesAt engine.machine (.flag f) := by
    refine agreesAt_of_trace h Location.noConfusion fun other hother machine htouched => ?_
    obtain ⟨hcmp, htest⟩ := hquiet other hother
    rcases flag_mem_touched htouched with hoperation | hoperation
    · exact htest hoperation
    · exact hcmp hoperation
  exact hagrees

/-- **The last comparison.**  An instruction that is executed next finds its flags. -/
theorem LastCompared.compares {final : Engine σ} {x y : Int8} (h : final.LastCompared x y)
    (opcode : Opcode) : (final.onLast opcode).machine.Compares x y := by
  obtain ⟨hbefore, hdecode, hcmp, rfl, rfl, hstep, hafter, hquiet⟩ := h
  obtain ⟨machine, address, heffect, hnext⟩ := machine_of_completed hdecode hstep
  have hwhole := hbefore.trans (.completed hdecode hstep hafter)
  rw [hcmp] at heffect
  cases heffect with
  | cmp =>
      have hflags := flag_of_trace hafter hquiet
      rw [hnext] at hflags
      exact ⟨hflags .zero, hflags .sign, hwhole.reserved (.inr rfl)⟩

/-- **Jumps behind a comparison.**  Let an engine be loaded and run, and let the last
comparison in the run, with no test behind it, have compared two values.  An instruction
that is executed next then finds the jump for zero taken exactly if they are equal, the
one for not zero exactly if they are not, the one for greater-or-equal exactly if the
first value is not less than the second one, and the ones for less and less-or-equal
exactly if the values are equal. -/
theorem decides_of_lastCompared {final : Engine σ} {x y : Int8}
    (h : final.LastCompared x y) (opcode : Opcode) :
    (final.onLast opcode).machine.Decides x y :=
  (h.compares opcode).decides

/-- A comparison of 5 with 0, and a move behind it. -/
theorem decides_of_lastCompared_mov :
    let engine := (start (Script.start [] none) ⟨false, none⟩).load
      ⟨[79, 5, 74, 1, 91, 0], by decide⟩
    let next := (engine.turn #[]).engine
    let final := (next.turn #[]).engine
    final.LastCompared 5 0 ∧ ∀ opcode, (final.onLast opcode).machine.Decides 5 0 := by
  intro engine next final
  have hcmp : engine.Decodes ⟨⟨79, by decide⟩, [.immediate 5]⟩ := by decide +kernel
  have hmov : next.Decodes ⟨⟨74, by decide⟩, [.immediate 1]⟩ := by decide +kernel
  have hstep : Step engine .running next :=
    (step_iff_turn #[]).mpr ⟨by decide +kernel, rfl⟩
  have hafter : Step next .running final :=
    (step_iff_turn #[]).mpr ⟨by decide +kernel, rfl⟩
  have hcompared : final.LastCompared 5 0 :=
    .intro (.nil engine) hcmp rfl rfl rfl hstep (.completed hmov hafter (.nil final))
      (by decide)
  exact ⟨hcompared, decides_of_lastCompared hcompared⟩

/-- **Less is not less.**  The jumps behind a comparison do not implement the signed
order: they do not where -1 has been compared with 0. -/
theorem not_orders_of_lastCompared :
    ¬ ∀ (final : Engine Script) (x y : Int8), final.LastCompared x y →
      ∀ opcode, (final.onLast opcode).machine.Orders x y := by
  intro horders
  let engine := (start (Script.start [] none) ⟨false, none⟩).load
    ⟨[79, 255, 89, 7, 5, 110, 0, 5, 121, 0], by decide⟩
  let next := (engine.turn #[]).engine
  have hcmp : engine.Decodes ⟨⟨79, by decide⟩, [.immediate (-1)]⟩ := by decide +kernel
  have hstep : Step engine .running next :=
    (step_iff_turn #[]).mpr ⟨by decide +kernel, rfl⟩
  have hcompared : next.LastCompared (-1) 0 :=
    .intro (.nil engine) hcmp rfl rfl rfl hstep (.nil next) (by decide)
  let jl : Opcode := ⟨89, by decide⟩
  have hgreater : (0 : Int8) < -1 :=
    (hcompared.compares jl).decides.orders_iff.mp (horders next (-1) 0 hcompared jl)
  exact absurd hgreater (by decide)

end Engine

end ByteMachine
