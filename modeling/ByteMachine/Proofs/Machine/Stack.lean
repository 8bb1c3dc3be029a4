import ByteMachine.Machine.Execute
import Mathlib.Data.List.Infix
import Mathlib.Data.List.Induction

/-!
# The stack

Pushes and pops keep a stack below the cell to which the stack pointer points at the
start.  The stack pointer is the start less the depth, and a push writes the cell of its
own depth, so a sequence of pushes and pops writes nothing but the cells of the depths
that it reaches.  This holds for every sequence that does not pop more than it has pushed,
and so also for what stands between a push and its pop, seen from the cell which the push
has written: nothing there writes this cell again, as long as the addresses of 256 depths
in a row are different.

* `depth`, `Grounded`, `Balanced`, `Fits` — sequences of pushes and pops;
* `register_sp_runAll` — the stack pointer is the start less the depth;
* `read_runAll` — only cells of depths that are reached are written;
* `register_runAll_enclosed` — a push, a balanced sequence and a pop deliver the value;
* `exists_matching_push` — every pop has a push;
* `stack_lifo` — every pop delivers what its push has saved.
-/

namespace ByteMachine

/-! ## Sequences of pushes and pops -/

/-- A push with its operand, or a pop with its destination, which is not the stack pointer.
What is left out is the accumulator. -/
inductive StackCommand where
  | push (operand : Option Operand)
  | pop (r : Option Register) (hr : r ≠ some .sp)
deriving DecidableEq

namespace StackCommand

/-- The operation of a command. -/
def operation : StackCommand → Operation
  | push _ => .push
  | pop _ _ => .pop

/-- The operands of a command. -/
def operands : StackCommand → List Operand
  | push operand => operand.toList
  | pop r _ => (r.map fun r => .symbol (.register r)).toList

/-- The cells that a command adds to the stack. -/
def change : StackCommand → Int
  | push _ => 1
  | pop _ _ => -1

/-- The machine after a command. -/
def apply (machine : Machine) : StackCommand → Machine
  | push operand =>
      (machine.decrement .sp).write (machine.register .sp - 1).toUInt8
        (machine.value (operand.getD .accumulator))
  | pop r _ =>
      (machine.increment .sp).setRegister (r.getD .a)
        (machine.read (machine.register .sp).toUInt8)

end StackCommand

open StackCommand

/-- The number of pushes in a sequence less the number of pops. -/
def depth : List StackCommand → Int
  | [] => 0
  | command :: commands => command.change + depth commands

/-- At no point of a sequence the pops outnumber the pushes. -/
def Grounded (commands : List StackCommand) : Prop :=
  ∀ prior, prior <+: commands → 0 ≤ depth prior

/-- Every push in a sequence has a pop and every pop a push. -/
structure Balanced (commands : List StackCommand) : Prop where
  grounded : Grounded commands
  depth_eq : depth commands = 0

/-- A sequence needs no more cells than there are. -/
structure Fits (commands : List StackCommand) : Prop where
  grounded : Grounded commands
  bounded : ∀ prior, prior <+: commands → depth prior ≤ memorySize

instance (commands : List StackCommand) : Decidable (Fits commands) :=
  decidable_of_iff
    (∀ prior ∈ commands.inits, 0 ≤ depth prior ∧ depth prior ≤ (memorySize : Int)) <| by
      simp only [List.mem_inits]
      exact ⟨fun h => ⟨fun prior hprior => (h prior hprior).1,
        fun prior hprior => (h prior hprior).2⟩,
        fun h prior hprior => ⟨h.grounded prior hprior, h.bounded prior hprior⟩⟩

/-- A sequence reaches a depth at some point. -/
def Reaches (commands : List StackCommand) (d : Int) : Prop :=
  1 ≤ d ∧ ∃ prior, prior <+: commands ∧ d ≤ depth prior

/-- The cell at a depth below a stack pointer. -/
def slot (sp : Int8) (d : Int) : UInt8 :=
  (sp - Int8.ofInt d).toUInt8

/-- Execute the commands of a sequence one after another. -/
def executeAll {σ : Type} [Console σ] (commands : List StackCommand) : Action σ Unit :=
  commands.forM fun command => execute command.operation command.operands

/-- The machine after a sequence. -/
def runAll (machine : Machine) (commands : List StackCommand) : Machine :=
  commands.foldl apply machine

/-! ## Depths -/

@[simp] theorem depth_nil : depth [] = 0 := rfl

@[simp] theorem depth_cons (command : StackCommand) (commands : List StackCommand) :
    depth (command :: commands) = command.change + depth commands := rfl

@[simp] theorem depth_append (front back : List StackCommand) :
    depth (front ++ back) = depth front + depth back := by
  induction front with
  | nil => simp
  | cons command front ih => rw [List.cons_append, depth_cons, depth_cons, ih, Int.add_assoc]

theorem Grounded.of_prior {prior commands : List StackCommand} (h : Grounded commands)
    (hprior : prior <+: commands) : Grounded prior :=
  fun _ hinner => h _ (hinner.trans hprior)

theorem Reaches.of_prior {prior commands : List StackCommand} {d : Int}
    (h : Reaches prior d) (hprior : prior <+: commands) : Reaches commands d := by
  obtain ⟨hd, inner, hinner, hdepth⟩ := h
  exact ⟨hd, inner, hinner.trans hprior, hdepth⟩

theorem balanced_nil : Balanced [] where
  grounded := fun prior hprior => by simp [List.prefix_nil.mp hprior]
  depth_eq := rfl

/-- A sequence goes on without more pops than pushes as long as what it has left on the
stack is enough for what follows. -/
theorem Grounded.append {front back : List StackCommand} (hfront : Grounded front)
    (hback : ∀ prior, prior <+: back → 0 ≤ depth front + depth prior) :
    Grounded (front ++ back) := by
  intro prior hprior
  -- the sequence has been left inside `front` or inside `back`
  rcases List.prefix_or_prefix_of_prefix hprior (List.prefix_append front back) with
    hinside | ⟨inner, rfl⟩
  · exact hfront prior hinside
  · rw [depth_append]
    exact hback inner ((List.prefix_append_right_inj front).mp hprior)

theorem Balanced.append {front back : List StackCommand} (hfront : Balanced front)
    (hback : Balanced back) : Balanced (front ++ back) where
  grounded := hfront.grounded.append fun prior hprior => by
    have hnonneg := hback.grounded prior hprior
    rw [hfront.depth_eq]
    omega
  depth_eq := by rw [depth_append, hfront.depth_eq, hback.depth_eq, Int.add_zero]

/-- A push, a balanced sequence and a pop are a balanced sequence. -/
theorem Balanced.enclose {mid : List StackCommand} (h : Balanced mid)
    (operand : Option Operand) (r : Option Register) (hr : r ≠ some .sp) :
    Balanced (.push operand :: mid ++ [.pop r hr]) where
  grounded := by
    refine Grounded.append ?_ ?_
    · intro prior hprior
      rcases List.prefix_cons_iff.mp hprior with rfl | ⟨inner, rfl, hinner⟩
      · decide
      · have hnonneg := h.grounded inner hinner
        rw [depth_cons, change]
        omega
    · intro prior hprior
      rw [depth_cons, h.depth_eq, change]
      rcases List.prefix_cons_iff.mp hprior with rfl | ⟨inner, rfl, hinner⟩
      · simp
      · simp [List.prefix_nil.mp hinner, change]
  depth_eq := by simp [change, h.depth_eq]

/-- A stack that is not empty has a last push whose cell is still in use. -/
private theorem exists_last_push {front : List StackCommand} (h : Grounded front)
    (hdepth : 1 ≤ depth front) :
    ∃ start operand mid, front = start ++ .push operand :: mid ∧ Balanced mid := by
  induction hlength : front.length using Nat.strongRecOn generalizing front with
  | ind length ih =>
      rcases List.eq_nil_or_concat' front with rfl | ⟨init, command, rfl⟩
      · exact absurd hdepth (by decide)
      · have hinit := h.of_prior (List.prefix_append init [command])
        rw [List.length_append, List.length_singleton] at hlength
        cases command with
        | push operand => exact ⟨init, operand, [], rfl, balanced_nil⟩
        | pop r hr =>
            -- the pop has taken the cell of the last push of `init`, so the cell that is
            -- left is that of the last push in front of that one
            simp only [depth_append, depth_cons, depth_nil, change] at hdepth
            obtain ⟨outer, taken, inner, rfl, hinner⟩ :=
              ih init.length (by omega) hinit (by omega) rfl
            have houter := hinit.of_prior (List.prefix_append outer _)
            simp only [depth_append, depth_cons, hinner.depth_eq, change] at hdepth
            rw [List.length_append, List.length_cons] at hlength
            obtain ⟨start, operand, mid, rfl, hmid⟩ :=
              ih outer.length (by omega) houter (by omega) rfl
            refine ⟨start, operand, mid ++ (.push taken :: inner ++ [.pop r hr]), ?_,
              hmid.append (hinner.enclose taken r hr)⟩
            simp

/-- **Matching pushes.**  Every pop has a push in front of it such that what stands between
them is balanced. -/
theorem exists_matching_push {front back : List StackCommand} {r : Option Register}
    {hr : r ≠ some .sp} (h : Grounded (front ++ .pop r hr :: back)) :
    ∃ start operand mid, front = start ++ .push operand :: mid ∧ Balanced mid := by
  refine exists_last_push (h.of_prior (List.prefix_append front _)) ?_
  have hprior : front ++ [.pop r hr] <+: front ++ .pop r hr :: back :=
    ⟨back, by simp⟩
  have hnonneg := h _ hprior
  simp only [depth_append, depth_cons, depth_nil, change] at hnonneg
  omega

/-! ## Runs -/

section
variable {σ : Type} [Console σ]

/-- A command succeeds, and leaves the console alone. -/
theorem execute_command (command : StackCommand) (session : Session σ) :
    execute command.operation command.operands session =
      .ok () { session with machine := command.apply session.machine } := by
  cases command with
  | push operand => cases operand <;> rfl
  | pop r hr => cases r <;> rfl

/-- A sequence succeeds, and leaves the console alone. -/
theorem executeAll_eq (commands : List StackCommand) (session : Session σ) :
    executeAll commands session =
      .ok () { session with machine := runAll session.machine commands } := by
  induction commands generalizing session with
  | nil => rfl
  | cons command commands ih =>
      have hstep := execute_command command session
      have hrest := ih { session with machine := command.apply session.machine }
      show (execute command.operation command.operands >>= fun _ => executeAll commands)
        session = _
      simp only [Bind.bind, EStateM.bind]
      rw [hstep]
      exact hrest

end

variable (machine : Machine)

theorem runAll_append (front back : List StackCommand) :
    runAll machine (front ++ back) = runAll (runAll machine front) back :=
  List.foldl_append

/-- A command moves the stack pointer by its change of the depth. -/
theorem register_sp_apply (command : StackCommand) :
    (command.apply machine).register .sp =
      machine.register .sp - Int8.ofInt command.change := by
  cases command with
  | push operand => exact Registers.get_set_self machine.registers .sp _
  | pop r hr =>
      have hne : Register.sp ≠ r.getD .a := by
        cases r with
        | none => decide
        | some r => exact fun h => hr (congrArg some h.symm)
      have hkept : ((machine.increment .sp).setRegister (r.getD .a)
          (machine.read (machine.register .sp).toUInt8)).register .sp =
            (machine.increment .sp).register .sp := Registers.get_set_of_ne _ _ hne
      have hnew : (machine.increment .sp).register .sp = machine.register .sp + 1 :=
        Registers.get_set_self machine.registers .sp _
      rw [StackCommand.apply, hkept, hnew, change, Int8.ofInt_neg, Int8.sub_eq_add_neg]
      simp

/-- **The stack pointer.**  It is the start less the depth. -/
theorem register_sp_runAll (commands : List StackCommand) :
    (runAll machine commands).register .sp =
      machine.register .sp - Int8.ofInt (depth commands) := by
  induction commands generalizing machine with
  | nil => simp [runAll]
  | cons command commands ih =>
      have hrest := ih (command.apply machine)
      rw [register_sp_apply, Int8.sub_sub, ← Int8.ofInt_add, ← depth_cons] at hrest
      exact hrest

/-- **Cells of the stack.**  A sequence writes only cells of depths that it reaches. -/
theorem read_runAll {commands : List StackCommand} (h : Grounded commands) {address : UInt8}
    (haddress : ∀ d, Reaches commands d → address ≠ slot (machine.register .sp) d) :
    (runAll machine commands).read address = machine.read address := by
  induction commands using List.reverseRecOn with
  | nil => rfl
  | append_singleton front command ih =>
      have hfront : front <+: front ++ [command] := List.prefix_append front [command]
      have hkept := ih (h.of_prior hfront) fun d hd => haddress d (hd.of_prior hfront)
      rw [runAll_append, ← hkept]
      -- only a push writes, and its cell is that of the depth which it reaches
      cases command with
      | push operand =>
          have hground := h front hfront
          have hreaches : Reaches (front ++ [.push operand]) (depth front + 1) :=
            ⟨by omega, _, List.prefix_refl _, by simp [change]⟩
          have hne := haddress _ hreaches
          rw [slot, Int8.ofInt_add, ← Int8.sub_sub, ← register_sp_runAll] at hne
          exact Memory.read_write_of_ne _ _ hne
      | pop r hr => rfl

/-- The cell at which a stack pointer points is not among the 255 cells below it. -/
theorem slot_ne {sp : Int8} {d : Int} (hpos : 1 ≤ d) (hlt : d < memorySize) :
    sp.toUInt8 ≠ slot sp d := by
  intro heq
  have hsp : sp = sp - Int8.ofInt d := by
    have hsigned := congrArg UInt8.toInt8 heq
    rwa [slot, Int8.toInt8_toUInt8, Int8.toInt8_toUInt8] at hsigned
  have hzero : Int8.ofInt d = 0 := by grind
  have hdvd : (memorySize : Int) ∣ d :=
    Int.dvd_of_bmod_eq_zero ((Int8.ofInt_eq_iff_bmod_eq_toInt d 0).mp hzero)
  exact Int.not_le.mpr hlt (Int.le_of_dvd (by omega) hdvd)

/-- A push saves its operand in the cell at which it lets the stack pointer point. -/
theorem read_apply_push (operand : Option Operand) :
    (apply machine (.push operand)).read
        ((apply machine (.push operand)).register .sp).toUInt8 =
      machine.value (operand.getD .accumulator) := by
  rw [register_sp_apply]
  exact Memory.read_write_self machine.memory _ _

/-- A pop delivers the cell at which the stack pointer points. -/
theorem register_apply_pop (r : Option Register) (hr : r ≠ some .sp) :
    (apply machine (.pop r hr)).register (r.getD .a) =
      machine.read (machine.register .sp).toUInt8 :=
  Registers.get_set_self _ _ _

/-- What stands between a push and its pop leaves the cell that the push has written
alone. -/
theorem register_runAll_enclosed {mid : List StackCommand} (h : Balanced mid)
    (hbounded : ∀ prior, prior <+: mid → depth prior < memorySize)
    (operand : Option Operand) (r : Option Register) (hr : r ≠ some .sp) :
    (runAll machine (.push operand :: mid ++ [.pop r hr])).register (r.getD .a) =
      machine.value (operand.getD .accumulator) := by
  have hsp : (runAll (apply machine (.push operand)) mid).register .sp =
      (apply machine (.push operand)).register .sp := by
    rw [register_sp_runAll, h.depth_eq]
    exact Int8.sub_zero _
  have hkept := read_runAll (apply machine (.push operand)) h.grounded
    fun d ⟨hpos, prior, hprior, hle⟩ =>
      slot_ne hpos (Int.lt_of_le_of_lt hle (hbounded prior hprior))
  rw [runAll_append]
  calc (runAll (runAll machine (.push operand :: mid)) [.pop r hr]).register (r.getD .a)
      = (runAll (apply machine (.push operand)) mid).read
          ((runAll (apply machine (.push operand)) mid).register .sp).toUInt8 :=
        register_apply_pop _ r hr
    _ = (apply machine (.push operand)).read
          ((apply machine (.push operand)).register .sp).toUInt8 := by rw [hsp, hkept]
    _ = machine.value (operand.getD .accumulator) := read_apply_push machine operand

/-- **The stack.**  Take any machine and a sequence of pushes and pops which pops no more
than it has pushed and needs no more cells than there are.  At every point the stack pointer
is the start less the depth, and no cells but those of the depths reached so far have been
written.  Every pop has a matching push, and delivers the value that the operand of this push
had just before it. -/
theorem stack_lifo {σ : Type} [Console σ] (session : Session σ)
    {commands : List StackCommand} (h : Fits commands) :
    (∀ prior, prior <+: commands → ∃ machine,
      executeAll prior session = .ok () { session with machine } ∧
      machine.register .sp = session.machine.register .sp - Int8.ofInt (depth prior) ∧
      ∀ address, (∀ d, Reaches prior d → address ≠ slot (session.machine.register .sp) d) →
        machine.read address = session.machine.read address) ∧
    (∀ front r hr back, commands = front ++ .pop r hr :: back →
      ∃ start operand mid, front = start ++ .push operand :: mid ∧ Balanced mid) ∧
    ∀ start operand mid r hr back,
      commands = start ++ .push operand :: mid ++ .pop r hr :: back → Balanced mid →
      ∃ before after,
        executeAll start session = .ok () { session with machine := before } ∧
        executeAll (start ++ .push operand :: mid ++ [.pop r hr]) session =
          .ok () { session with machine := after } ∧
        after.register (r.getD .a) = before.value (operand.getD .accumulator) := by
  refine ⟨?pointer, ?matching, ?delivered⟩
  case pointer =>
    intro prior hprior
    exact ⟨runAll session.machine prior, executeAll_eq prior session,
      register_sp_runAll session.machine prior,
      fun _ => read_runAll session.machine (h.grounded.of_prior hprior)⟩
  case matching =>
    rintro front r hr back rfl
    exact exists_matching_push h.grounded
  case delivered =>
    rintro start operand mid r hr back rfl hmid
    refine ⟨_, _, executeAll_eq start session, executeAll_eq _ session, ?_⟩
    rw [List.append_assoc, runAll_append]
    refine register_runAll_enclosed _ hmid (fun prior hprior => ?_) operand r hr
    -- behind `start` and the push there are 255 cells left
    have hstart : 0 ≤ depth start := h.grounded start ⟨_, (List.append_assoc ..).symm⟩
    have hfits := h.bounded (start ++ .push operand :: prior) (by
      obtain ⟨rest, rfl⟩ := hprior
      exact ⟨rest ++ .pop r hr :: back, by simp⟩)
    rw [depth_append, depth_cons, change] at hfits
    omega

/-- A stack that runs over the first cell of memory into the last one. -/
def crossing : List StackCommand :=
  [.push (some (.symbol (.register .sp))), .push (some (.immediate 5)),
    .pop (some .b) (by decide), .pop none (by decide)]

/-- A machine whose stack pointer is 1, with a console that gives nothing. -/
def crossingStart : Session Script where
  machine := Machine.cleared.setRegister .sp 1
  console := .start [] none

/-- The old stack pointer is saved in cell 0 and arrives in the accumulator, although the
number 5 has been in cell 255 meanwhile. -/
theorem stack_lifo_crossing :
    Fits crossing ∧
    ∃ after, executeAll crossing crossingStart =
        .ok () { crossingStart with machine := after } ∧
      after.register .a = 1 := by
  refine ⟨by decide, ?_⟩
  obtain ⟨-, -, hdelivered⟩ := stack_lifo crossingStart (by decide : Fits crossing)
  obtain ⟨before, after, hbefore, hafter, hvalue⟩ :=
    hdelivered [] _ _ none (by decide) [] rfl
      (balanced_nil.enclose (some (.immediate 5)) (some .b) (by decide))
  cases hbefore
  exact ⟨after, hafter, hvalue⟩

end ByteMachine
