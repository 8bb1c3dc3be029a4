import ByteMachine.Proofs.Machine.Effect

/-!
# What operations touch

A machine consists of locations: its registers, its flags and its memory cells.  An
operation touches few of them, and leaves all the others as they were.

* `Location`, `Machine.AgreesAt` — the locations of a machine;
* `Operation.result?` — the register that an operation has as its destination;
* `Operation.touched` — the locations that an operation may change;
* `Effect.frame` — it changes no others;
* `sb_mem_touched_iff`, `reserved_not_mem_touched`, `flag_mem_touched` — which operations
  touch the stack base and the flags.
-/

namespace ByteMachine

/-- A register, a flag or a memory cell. -/
inductive Location where
  | register (r : Register)
  | flag (f : Flag)
  | cell (address : UInt8)
deriving DecidableEq, Repr

/-! ## Destinations and touched locations -/

/-- The register that is named in a place, if it is a register that is named there. -/
def registerAt? (operands : List Operand) (place : Nat) : Option Register :=
  match operandAt operands place with
  | .symbol (.register r) => some r
  | _ => none

/-- The register that an operation has as its destination. -/
def Operation.result? (operation : Operation) (operands : List Operand) : Option Register :=
  match operation with
  | .getc | .pop => registerAt? operands 0
  | .binary _ | .load | .mov => registerAt? operands 1
  | _ => none

/-- The register that an operation has as its destination, as a location. -/
def Operation.resultLocation (operation : Operation) (operands : List Operand) : List Location :=
  ((operation.result? operands).map .register).toList

/-- The locations that an operation may change. -/
def Operation.touched (machine : Machine) (operands : List Operand)
    (operation : Operation) : List Location :=
  match operation with
  | .halt | .putc | .call | .ret => []
  | .unary _ => [.register .a]
  | .getc | .binary _ | .load | .mov => operation.resultLocation operands
  | .store => [.cell (machine.value (operandAt operands 0)).toUInt8]
  | .test | .cmp => [.flag .zero, .flag .parity, .flag .sign]
  | .jump _ => [.register .ip]
  | .push => [.register .sp, .cell (machine.register .sp - 1).toUInt8]
  | .pop => .register .sp :: operation.resultLocation operands

/-- A register that is an operand is named in its place. -/
theorem registerAt?_of_operandAt {operands : List Operand} {place : Nat} {r : Register}
    (h : operandAt operands place = .symbol (.register r)) :
    registerAt? operands place = some r := by
  rw [registerAt?, h]

/-! ## Agreement -/

namespace Machine

/-- Two machines agree at a location. -/
def AgreesAt (machine other : Machine) : Location → Prop
  | .register r => machine.register r = other.register r
  | .flag f => machine.flag f = other.flag f
  | .cell address => machine.read address = other.read address

variable {machine : Machine} {location : Location}

theorem AgreesAt.refl (machine : Machine) (location : Location) :
    machine.AgreesAt machine location := by
  cases location <;> rfl

theorem AgreesAt.trans {middle other : Machine} (h : machine.AgreesAt middle location)
    (hother : middle.AgreesAt other location) : machine.AgreesAt other location := by
  cases location with
  | register r => exact Eq.trans h hother
  | flag f => exact Eq.trans h hother
  | cell address => exact Eq.trans h hother

/-- Writing a register leaves the other locations alone. -/
theorem agreesAt_setRegister {r : Register} (h : location ≠ .register r) (value : Int8) :
    (machine.setRegister r value).AgreesAt machine location := by
  cases location with
  | register s => exact Registers.get_set_of_ne _ _ fun hs => h (congrArg Location.register hs)
  | flag f => rfl
  | cell address => rfl

/-- Writing a flag leaves the other locations alone. -/
theorem agreesAt_setFlag {f : Flag} (h : location ≠ .flag f) (value : Bool) :
    (machine.setFlag f value).AgreesAt machine location := by
  cases location with
  | register r => rfl
  | flag g => exact Flags.get_set_of_ne _ _ fun hg => h (congrArg Location.flag hg)
  | cell address => rfl

/-- Writing a cell leaves the other locations alone. -/
theorem agreesAt_write {address : UInt8} (h : location ≠ .cell address) (value : Int8) :
    (machine.write address value).AgreesAt machine location := by
  cases location with
  | register r => rfl
  | flag f => rfl
  | cell other => exact Memory.read_write_of_ne _ _ fun ho => h (congrArg Location.cell ho)

/-- Describing a value leaves all locations but three flags alone. -/
theorem agreesAt_describe (hzero : location ≠ .flag .zero) (hparity : location ≠ .flag .parity)
    (hsign : location ≠ .flag .sign) (x : Int) : (machine.describe x).AgreesAt machine location :=
  (agreesAt_setFlag hsign _).trans
    ((agreesAt_setFlag hparity _).trans (agreesAt_setFlag hzero _))

/-- Writing the destination of an operation leaves the other locations alone. -/
theorem agreesAt_of_result {operation : Operation} {operands : List Operand} {r : Register}
    (hr : operation.result? operands = some r)
    (h : location ∉ operation.resultLocation operands) (value : Int8) :
    (machine.setRegister r value).AgreesAt machine location := by
  refine agreesAt_setRegister ?_ value
  rintro rfl
  apply h
  rw [Operation.resultLocation, hr]
  exact List.mem_singleton.mpr rfl

end Machine

/-! ## Frames -/

/-- **Frames.**  An operation changes no location that it does not touch. -/
theorem Effect.frame {machine final : Machine} {operands : List Operand}
    {operation : Operation} {location : Location} (h : Effect machine operands operation final)
    (hlocation : location ∉ operation.touched machine operands) :
    final.AgreesAt machine location := by
  cases h with
  | halt | putc => exact .refl machine location
  | getc hr byte =>
      have hresult : Operation.result? .getc operands = _ := registerAt?_of_operandAt hr
      exact Machine.agreesAt_of_result hresult hlocation _
  | unary u => exact Machine.agreesAt_setRegister (List.ne_of_not_mem_cons hlocation) _
  | @binary b r result hr hvalue =>
      have hresult : (Operation.binary b).result? operands = some r :=
        registerAt?_of_operandAt hr
      exact Machine.agreesAt_of_result hresult hlocation _
  | store => exact Machine.agreesAt_write (List.ne_of_not_mem_cons hlocation) _
  | @load r hr =>
      have hresult : Operation.result? .load operands = some r := registerAt?_of_operandAt hr
      exact Machine.agreesAt_of_result hresult hlocation _
  | @mov r hr =>
      have hresult : Operation.result? .mov operands = some r := registerAt?_of_operandAt hr
      exact Machine.agreesAt_of_result hresult hlocation _
  | test | cmp =>
      simp only [Operation.touched, List.mem_cons, List.not_mem_nil, or_false, not_or] at hlocation
      obtain ⟨hzero, hparity, hsign⟩ := hlocation
      exact Machine.agreesAt_describe hzero hparity hsign _
  | jump j =>
      split
      · exact Machine.agreesAt_setRegister (List.ne_of_not_mem_cons hlocation) _
      · exact .refl machine location
  | push =>
      have hsp := List.ne_of_not_mem_cons hlocation
      have hcell := List.ne_of_not_mem_cons (List.not_mem_of_not_mem_cons hlocation)
      have hnew : (machine.decrement .sp).register .sp = machine.register .sp - 1 :=
        Registers.get_set_self machine.registers .sp _
      rw [hnew]
      exact (Machine.agreesAt_write hcell _).trans (Machine.agreesAt_setRegister hsp _)
  | @pop r hr =>
      have hresult : Operation.result? .pop operands = some r := registerAt?_of_operandAt hr
      have hsp := List.ne_of_not_mem_cons hlocation
      exact (Machine.agreesAt_of_result hresult (List.not_mem_of_not_mem_cons hlocation) _).trans
        (Machine.agreesAt_setRegister hsp _)

/-! ## Which operations touch a location -/

variable {machine : Machine} {operands : List Operand} {operation : Operation}

/-- The stack base is touched only as a destination. -/
theorem sb_mem_touched_iff :
    .register .sb ∈ operation.touched machine operands ↔
      operation.result? operands = some .sb := by
  cases operation <;> simp [Operation.touched, Operation.resultLocation, Operation.result?]

/-- Nothing touches the flags for carry and overflow. -/
theorem reserved_not_mem_touched {f : Flag} (h : f = .carry ∨ f = .overflow) :
    .flag f ∉ operation.touched machine operands := by
  rcases h with rfl | rfl <;> cases operation <;>
    simp [Operation.touched, Operation.resultLocation]

/-- The other flags are touched by comparisons. -/
theorem flag_mem_touched {f : Flag} (h : .flag f ∈ operation.touched machine operands) :
    operation = .test ∨ operation = .cmp := by
  cases operation <;> simp_all [Operation.touched, Operation.resultLocation]

end ByteMachine
