import ByteMachine.Machine.Execute

/-!
# Operations that fail

An operation that fails leaves the machine as it was.  The console may have changed
if it is the console that has failed, and nothing else has changed otherwise.

* `Failure` — how an operation can fail;
* `execute_error` — operations fail in no other way.

An operation first reads what it needs, and may fail at that; only when nothing can
fail any more does it write.  `Query` and `Total` are these two phases.
-/

namespace ByteMachine

/-- A fault of an operation itself. -/
def Fault.OfOperation : Fault → Prop
  | .unimplemented _ | .divisionByZero | .expectedRegister _ => True
  | _ => False

namespace Action

variable {σ α β : Type}

/-! ## Actions that read and actions that write -/

/-- An action that changes nothing, and fails in the ways of operations only. -/
def Query (action : Action σ α) : Prop :=
  ∀ session, (∃ a, action session = .ok a session) ∨
    ∃ fault, action session = .error fault session ∧ fault.OfOperation

/-- An action that never fails. -/
def Total (action : Action σ α) : Prop :=
  ∀ session fault final, action session ≠ .error fault final

/-- Actions in a row never fail if none of them does. -/
theorem Total.bind {action : Action σ α} {next : α → Action σ β} (haction : Total action)
    (hnext : ∀ a, Total (next a)) : Total (action >>= next) := by
  intro session fault final h
  cases hfirst : action session with
  | ok a middle =>
      simp only [Bind.bind, EStateM.bind, hfirst] at h
      exact hnext a middle fault final h
  | error cause middle => exact haction session cause middle hfirst

theorem total_pure (a : α) : Total (pure a : Action σ α) := by
  intro session fault final h
  cases h

theorem total_update (change : Machine → Machine) :
    Total (update change : Action σ Unit) := by
  intro session fault final h
  cases h

theorem query_get : Query (get : Action σ (Session σ)) :=
  fun session => .inl ⟨session, rfl⟩

theorem query_valueAt (operands : List Operand) (place : Nat) :
    Query (valueAt operands place : Action σ Int8) :=
  fun session => .inl ⟨session.machine.value (operandAt operands place), rfl⟩

/-- Failing with a fault of an operation changes nothing. -/
theorem query_throw {fault : Fault} (h : fault.OfOperation) :
    Query (throw fault : Action σ α) :=
  fun _ => .inr ⟨fault, rfl, h⟩

/-- Passing on a result changes nothing. -/
theorem query_check {result : Except Fault α}
    (h : ∀ fault, result = .error fault → fault.OfOperation) :
    Query (check result : Action σ α) := by
  cases result with
  | ok a => exact fun session => .inl ⟨a, rfl⟩
  | error fault => exact query_throw (h fault rfl)

theorem query_destination (operands : List Operand) (place : Nat) (operation : Operation) :
    Query (check (destination operands place operation) : Action σ Register) := by
  refine query_check ?_
  intro fault h
  unfold destination at h
  split at h
  · cases h
  · obtain rfl := Except.error.inj h
    trivial

theorem query_result (b : Binary) (source destination : Int8) :
    Query (check (b.result source destination) : Action σ Int8) := by
  refine query_check ?_
  intro fault h
  have hdivision : fault = .divisionByZero := by
    cases b with
    | div | mod =>
        dsimp only [Binary.result] at h
        split at h
        · exact (Except.error.inj h).symm
        · cases h
    | _ => cases h
  rw [hdivision]
  trivial

end Action

/-! ## Failures -/

variable {σ : Type} [Console σ]

/-- A failure with the session that it leaves behind. -/
inductive Failure (session : Session σ) : Fault → Session σ → Prop
  /-- The operation fails and changes nothing. -/
  | operation {fault : Fault} (hfault : fault.OfOperation) : Failure session fault session
  /-- The console fails to give a byte. -/
  | input {fault : Fault} {console : σ}
      (hinput : Console.getByte session.console = .error fault console) :
      Failure session fault { session with console }
  /-- The console fails to take a byte. -/
  | output {byte : UInt8} {fault : Fault} {console : σ}
      (houtput : Console.putByte byte session.console = .error fault console) :
      Failure session fault { session with console }

/-- A failure leaves the machine as it was. -/
theorem Failure.machine_eq {session final : Session σ} {fault : Fault}
    (h : Failure session fault final) : final.machine = session.machine := by
  cases h <;> rfl

namespace Action

variable {α β : Type}

/-- An action that fails in the ways of operations only. -/
def Clean (action : Action σ α) : Prop :=
  ∀ session fault final, action session = .error fault final → Failure session fault final

/-- What follows a query may fail. -/
theorem Query.bind {action : Action σ α} {next : α → Action σ β} (hquery : Query action)
    (hnext : ∀ a, Clean (next a)) : Clean (action >>= next) := by
  intro session fault final h
  rcases hquery session with ⟨a, ha⟩ | ⟨cause, hcause, hfault⟩
  · simp only [Bind.bind, EStateM.bind, ha] at h
    exact hnext a session fault final h
  · simp only [Bind.bind, EStateM.bind, hcause, EStateM.Result.error.injEq] at h
    obtain ⟨rfl, rfl⟩ := h
    exact .operation hfault

/-- What follows an action that may have changed something must not fail. -/
theorem Clean.bind {action : Action σ α} {next : α → Action σ β} (hclean : Clean action)
    (hnext : ∀ a, Total (next a)) : Clean (action >>= next) := by
  intro session fault final h
  cases haction : action session with
  | ok a middle =>
      simp only [Bind.bind, EStateM.bind, haction] at h
      exact absurd h (hnext a middle fault final)
  | error cause middle =>
      simp only [Bind.bind, EStateM.bind, haction, EStateM.Result.error.injEq] at h
      obtain ⟨rfl, rfl⟩ := h
      exact hclean session _ _ haction

theorem Total.clean {action : Action σ α} (h : Total action) : Clean action :=
  fun session fault final hfail => absurd hfail (h session fault final)

theorem Query.clean {action : Action σ α} (h : Query action) : Clean action := by
  intro session fault final hfail
  rcases h session with ⟨a, ha⟩ | ⟨cause, hcause, hfault⟩
  · rw [ha] at hfail
    cases hfail
  · rw [hcause, EStateM.Result.error.injEq] at hfail
    obtain ⟨rfl, rfl⟩ := hfail
    exact .operation hfault

theorem clean_getByte : Clean (getByte : Action σ UInt8) := by
  intro session fault final h
  unfold getByte at h
  split at h
  case h_1 => cases h
  case h_2 cause console hinput =>
    obtain ⟨rfl, rfl⟩ := EStateM.Result.error.inj h
    exact .input hinput

theorem clean_putByte (byte : UInt8) : Clean (putByte byte : Action σ Unit) := by
  intro session fault final h
  unfold putByte at h
  split at h
  case h_1 => cases h
  case h_2 cause console houtput =>
    obtain ⟨rfl, rfl⟩ := EStateM.Result.error.inj h
    exact .output houtput

end Action

open ByteMachine.Action in
/-- **Failures change nothing.**  An operation that fails leaves the machine as it
was, and either the operation is to blame or the console. -/
theorem execute_error {operation : Operation} {operands : List Operand}
    {session final : Session σ} {fault : Fault}
    (h : execute operation operands session = .error fault final) :
    Failure session fault final := by
  suffices Clean (execute operation operands : Action σ Unit) from this session fault final h
  cases operation with
  | halt => exact (total_pure ()).clean
  | getc =>
      exact (query_destination operands 0 _).bind fun r =>
        clean_getByte.bind fun byte => total_update _
  | putc => exact (query_valueAt operands 0).bind fun value => clean_putByte _
  | unary u => exact (query_valueAt operands 0).bind fun x => (total_update _).clean
  | binary b =>
      exact (query_valueAt operands 0).bind fun source =>
        (query_destination operands 1 _).bind fun r =>
          query_get.bind fun state => (query_result b source _).bind fun result =>
            (total_update _).clean
  | store =>
      exact (query_valueAt operands 0).bind fun address =>
        (query_valueAt operands 1).bind fun value => (total_update _).clean
  | load =>
      exact (query_valueAt operands 0).bind fun address =>
        (query_destination operands 1 _).bind fun r => (total_update _).clean
  | mov =>
      exact (query_valueAt operands 0).bind fun value =>
        (query_destination operands 1 _).bind fun r => (total_update _).clean
  | test => exact (query_valueAt operands 0).bind fun x => (total_update _).clean
  | cmp =>
      exact (query_valueAt operands 0).bind fun x =>
        (query_valueAt operands 1).bind fun y => (total_update _).clean
  | jump j =>
      refine (query_valueAt operands 0).bind fun target => query_get.bind fun state => ?_
      split
      · exact (total_update _).clean
      · exact (total_pure ()).clean
  | push =>
      exact (query_valueAt operands 0).bind fun value =>
        ((total_update _).bind fun _ => total_update _).clean
  | pop =>
      exact (query_destination operands 0 _).bind fun r => query_get.bind fun state =>
        ((total_update _).bind fun _ => total_update _).clean
  | call | ret =>
      refine (query_throw ?_).clean
      trivial

end ByteMachine
