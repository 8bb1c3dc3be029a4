import ByteMachine.Machine.Execute

/-!
# What operations do

`Effect` says what an operation that succeeds does to the machine, without the console
and without the order in which the operation reads and writes.

* `Effect` — the machine after an operation;
* `execute_ok` — operations that succeed have these effects and no others;
* `execute_jump_eq` — a jump always succeeds, and writes the instruction pointer if it is
  taken.
-/

namespace ByteMachine

/-- A register is named exactly if it is the operand in its place. -/
theorem destination_eq_ok {operands : List Operand} {place : Nat} {operation : Operation}
    {r : Register} :
    destination operands place operation = .ok r ↔
      operandAt operands place = .symbol (.register r) := by
  unfold destination
  split
  case h_1 s hs => simp [hs]
  case h_2 hnone =>
    constructor
    · intro h
      cases h
    · intro h
      exact absurd h (hnone r)

/-- The machine after an operation that succeeds.  The values of the operands are those
in front of the operation. -/
inductive Effect (machine : Machine) (operands : List Operand) : Operation → Machine → Prop
  | halt : Effect machine operands .halt machine
  | getc {r : Register} (hr : operandAt operands 0 = .symbol (.register r)) (byte : UInt8) :
      Effect machine operands .getc (machine.setRegister r byte.toInt8)
  | putc : Effect machine operands .putc machine
  | unary (u : Unary) :
      Effect machine operands (.unary u)
        (machine.setRegister .a (u.result (machine.value (operandAt operands 0))))
  | binary {b : Binary} {r : Register} {result : Int8}
      (hr : operandAt operands 1 = .symbol (.register r))
      (hresult : b.result (machine.value (operandAt operands 0)) (machine.register r) =
        .ok result) :
      Effect machine operands (.binary b) (machine.setRegister r result)
  | store :
      Effect machine operands .store
        (machine.write (machine.value (operandAt operands 0)).toUInt8
          (machine.value (operandAt operands 1)))
  | load {r : Register} (hr : operandAt operands 1 = .symbol (.register r)) :
      Effect machine operands .load
        (machine.setRegister r
          (machine.read (machine.value (operandAt operands 0)).toUInt8))
  | mov {r : Register} (hr : operandAt operands 1 = .symbol (.register r)) :
      Effect machine operands .mov
        (machine.setRegister r (machine.value (operandAt operands 0)))
  | test :
      Effect machine operands .test
        (machine.describe (machine.value (operandAt operands 0)).toInt)
  | cmp :
      Effect machine operands .cmp
        (machine.describe ((machine.value (operandAt operands 0)).toInt -
          (machine.value (operandAt operands 1)).toInt))
  | jump (j : Jump) :
      Effect machine operands (.jump j)
        (if j.taken machine then
          machine.setRegister .ip (machine.value (operandAt operands 0))
        else machine)
  | push :
      Effect machine operands .push
        ((machine.decrement .sp).write ((machine.decrement .sp).register .sp).toUInt8
          (machine.value (operandAt operands 0)))
  | pop {r : Register} (hr : operandAt operands 0 = .symbol (.register r)) :
      Effect machine operands .pop
        ((machine.increment .sp).setRegister r
          (machine.read (machine.register .sp).toUInt8))

namespace Action

variable {σ α β : Type}

/-- Actions in a row succeed if the second one succeeds where the first one leads. -/
theorem exists_of_bind_eq_ok {action : Action σ α} {next : α → Action σ β}
    {session final : Session σ} {b : β} (h : (action >>= next) session = .ok b final) :
    ∃ a middle, action session = .ok a middle ∧ next a middle = .ok b final := by
  simp only [Bind.bind, EStateM.bind] at h
  cases haction : action session with
  | ok a middle =>
      rw [haction] at h
      exact ⟨a, middle, rfl, h⟩
  | error fault middle =>
      rw [haction] at h
      cases h

/-- A result that is checked is passed on, and nothing changes. -/
theorem check_eq_ok {result : Except Fault α} {session final : Session σ} {a : α}
    (h : check result session = .ok a final) : result = .ok a ∧ final = session := by
  cases result with
  | ok value =>
      cases h
      exact ⟨rfl, rfl⟩
  | error fault => cases h

/-- What needs a register in a place goes on with the register that is named there. -/
theorem exists_of_destination {operands : List Operand} {place : Nat}
    {operation : Operation} {next : Register → Action σ β} {session final : Session σ}
    {b : β}
    (h : (check (destination operands place operation) >>= next) session = .ok b final) :
    ∃ r, operandAt operands place = .symbol (.register r) ∧
      next r session = .ok b final := by
  obtain ⟨r, middle, hcheck, hnext⟩ := exists_of_bind_eq_ok h
  obtain ⟨hr, rfl⟩ := check_eq_ok hcheck
  exact ⟨r, destination_eq_ok.mp hr, hnext⟩

variable [Console σ]

/-- A byte that is given leaves the machine alone. -/
theorem machine_of_getByte {session final : Session σ} {byte : UInt8}
    (h : getByte session = .ok byte final) : final.machine = session.machine := by
  unfold getByte at h
  split at h
  case h_1 => cases h; rfl
  case h_2 => cases h

/-- A byte that is taken leaves the machine alone. -/
theorem machine_of_putByte {session final : Session σ} {byte : UInt8}
    (h : putByte byte session = .ok () final) : final.machine = session.machine := by
  unfold putByte at h
  split at h
  case h_1 => cases h; rfl
  case h_2 => cases h

end Action

variable {σ : Type} [Console σ]

/-- **Jumps.**  A jump succeeds, and writes the instruction pointer if it is taken. -/
theorem execute_jump_eq (j : Jump) (operands : List Operand) (session : Session σ) :
    execute (.jump j) operands session =
      .ok () { session with
        machine :=
          if j.taken session.machine then
            session.machine.setRegister .ip (session.machine.value (operandAt operands 0))
          else session.machine } := by
  show (if j.taken session.machine then _ else _ : Action σ Unit) session = _
  split
  · rfl
  · rfl

open ByteMachine.Action in
/-- **Effects.**  An operation that succeeds has its effect on the machine. -/
theorem execute_ok {operation : Operation} {operands : List Operand}
    {session final : Session σ} (h : execute operation operands session = .ok () final) :
    Effect session.machine operands operation final.machine := by
  cases operation with
  | halt =>
      cases h
      exact .halt
  | getc =>
      obtain ⟨r, hr, h⟩ := exists_of_destination h
      obtain ⟨byte, middle, hbyte, h⟩ := exists_of_bind_eq_ok h
      cases h
      rw [← machine_of_getByte hbyte]
      exact .getc hr byte
  | putc =>
      rw [machine_of_putByte h]
      exact .putc
  | unary u =>
      cases h
      exact .unary u
  | binary b =>
      obtain ⟨r, hr, h⟩ := exists_of_destination h
      obtain ⟨state, middle, hget, hrest⟩ := exists_of_bind_eq_ok h
      cases hget
      obtain ⟨result, middle, hcheck, hupdate⟩ := exists_of_bind_eq_ok hrest
      obtain ⟨hresult, rfl⟩ := check_eq_ok hcheck
      cases hupdate
      exact .binary hr hresult
  | store =>
      cases h
      exact .store
  | load =>
      obtain ⟨r, hr, h⟩ := exists_of_destination h
      cases h
      exact .load hr
  | mov =>
      obtain ⟨r, hr, h⟩ := exists_of_destination h
      cases h
      exact .mov hr
  | test =>
      cases h
      exact .test
  | cmp =>
      cases h
      exact .cmp
  | jump j =>
      rw [execute_jump_eq] at h
      cases h
      exact .jump j
  | push =>
      cases h
      exact .push
  | pop =>
      obtain ⟨r, hr, h⟩ := exists_of_destination h
      cases h
      exact .pop hr
  | call | ret => cases h

end ByteMachine
