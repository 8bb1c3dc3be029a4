import ByteMachine.Engine.Run
import ByteMachine.Proofs.Instruction.Code

/-!
# Fetching whole instructions

The engine reads an instruction byte by byte and tries to decode after each byte.
What comes out depends on the byte at the instruction pointer and, if that announces
an opcode, on as many bytes behind it as the opcode's shape asks for; the
instruction pointer ends on the last one of them.

* `Machine.bytesAt` — the bytes from an address on, around the end of memory;
* `fetch_unknown`, `fetch_known` — fetching in terms of these bytes.
-/

namespace ByteMachine

/-! ## Addresses and bytes -/

namespace Machine

/-- Change the instruction pointer and nothing else. -/
def jumpTo (machine : Machine) (address : UInt8) : Machine :=
  machine.setRegister .ip address.toInt8

/-- The bytes from an address on.  The last cell is followed by the first. -/
def bytesAt (machine : Machine) (address : UInt8) (count : Nat) : List UInt8 :=
  (List.range count).map fun k => (machine.read (address + UInt8.ofNat k)).toUInt8

/-- The instruction pointer is where it was moved to. -/
@[simp] theorem ip_jumpTo (machine : Machine) (address : UInt8) :
    (machine.jumpTo address).ip = address := by
  rw [jumpTo, ip, register, setRegister, Registers.get_set_self, UInt8.toUInt8_toInt8]

@[simp] theorem read_jumpTo (machine : Machine) (address other : UInt8) :
    (machine.jumpTo address).read other = machine.read other := rfl

/-- Only the last move of the instruction pointer counts. -/
@[simp] theorem jumpTo_jumpTo (machine : Machine) (address other : UInt8) :
    (machine.jumpTo address).jumpTo other = machine.jumpTo other := rfl

/-- A move to where the instruction pointer is changes nothing. -/
@[simp] theorem jumpTo_ip (machine : Machine) : machine.jumpTo machine.ip = machine := rfl

/-- The instruction pointer advances to the next address. -/
theorem advance_eq_jumpTo (machine : Machine) :
    machine.advance = machine.jumpTo (machine.ip + 1) := rfl

@[simp] theorem length_bytesAt (machine : Machine) (address : UInt8) (count : Nat) :
    (machine.bytesAt address count).length = count := by
  rw [bytesAt, List.length_map, List.length_range]

/-- One more byte at the end. -/
theorem bytesAt_succ (machine : Machine) (address : UInt8) (count : Nat) :
    machine.bytesAt address (count + 1) =
      machine.bytesAt address count ++
        [(machine.read (address + UInt8.ofNat count)).toUInt8] := by
  rw [bytesAt, List.range_succ, List.map_append, List.map_singleton, bytesAt]

/-- The first byte, and the others. -/
theorem bytesAt_succ_eq_cons (machine : Machine) (address : UInt8) (count : Nat) :
    machine.bytesAt address (count + 1) =
      (machine.read address).toUInt8 :: machine.bytesAt (address + 1) count := by
  have hnext : ∀ k, address + UInt8.ofNat (k + 1) = address + 1 + UInt8.ofNat k := by
    intro k
    rw [UInt8.ofNat_add, UInt8.add_assoc, UInt8.add_comm (UInt8.ofNat k)]
    rfl
  rw [bytesAt, List.range_succ_eq_map, List.map_cons, List.map_map, bytesAt]
  refine congrArg₂ List.cons (by simp) (List.map_congr_left fun k _ => ?_)
  rw [Function.comp_apply, Nat.succ_eq_add_one, hnext]

end Machine

/-! ## Fetching -/

/-- Bytes that are no whole instruction yet are followed by one more. -/
theorem fetch_of_none {start : UInt8} {machine : Machine} {buffer : List UInt8}
    (h : Instruction.decode (buffer ++ [(machine.read machine.ip).toUInt8]) = .ok none) :
    fetch start machine buffer =
      fetch start machine.advance (buffer ++ [(machine.read machine.ip).toUInt8]) := by
  conv_lhs => rw [fetch]
  split <;> simp_all

/-- Bytes that decode are the instruction. -/
theorem fetch_of_some {start : UInt8} {machine : Machine} {buffer : List UInt8}
    {instruction : Instruction}
    (h : Instruction.decode (buffer ++ [(machine.read machine.ip).toUInt8]) =
      .ok (some instruction)) :
    fetch start machine buffer = (.ok instruction, machine) := by
  rw [fetch]
  split <;> simp_all

/-- Bytes that fail to decode are blamed. -/
theorem fetch_of_error {start : UInt8} {machine : Machine} {buffer : List UInt8}
    {fault : Fault}
    (h : Instruction.decode (buffer ++ [(machine.read machine.ip).toUInt8]) =
      .error fault) :
    fetch start machine buffer = (.error (fault.relocate start), machine) := by
  rw [fetch]
  split <;> simp_all

/-- **Fetching what is no opcode.**  The byte is blamed, and the machine does not
change. -/
theorem fetch_unknown {machine : Machine}
    (h : Opcode.ofByte? (machine.read machine.ip).toUInt8 = none) :
    fetch machine.ip machine [] =
      (.error (.invalidInstruction (machine.read machine.ip).toUInt8 machine.ip.toNat),
        machine) := by
  have hfetch : fetch machine.ip machine [] =
      (.error ((Fault.invalidInstruction (machine.read machine.ip).toUInt8 0).relocate
        machine.ip), machine) :=
    fetch_of_error (Instruction.decode_unknown [] h)
  exact hfetch

/-- Fetching goes on behind the bytes that have been read, up to the last byte of the
instruction. -/
private theorem fetch_behind {machine : Machine} {opcode : Opcode} {address : UInt8}
    (h : Opcode.ofByte? (machine.read address).toUInt8 = some opcode) (start : UInt8)
    {count : Nat} (hcount : count ≤ opcode.shape.operandBytes) :
    fetch start (machine.jumpTo (address + UInt8.ofNat count))
        (machine.bytesAt address count) =
      ((fun operands => ⟨opcode, operands⟩) <$> Operand.decode opcode.shape
          (machine.bytesAt (address + 1) opcode.shape.operandBytes),
        machine.jumpTo (address + UInt8.ofNat opcode.shape.operandBytes)) := by
  have hread : ∀ count, machine.bytesAt address count ++
      [((machine.jumpTo (address + UInt8.ofNat count)).read
        (machine.jumpTo (address + UInt8.ofNat count)).ip).toUInt8] =
        (machine.read address).toUInt8 :: machine.bytesAt (address + 1) count := by
    intro count
    rw [Machine.ip_jumpTo, Machine.read_jumpTo, ← Machine.bytesAt_succ,
      Machine.bytesAt_succ_eq_cons]
  induction hmissing : opcode.shape.operandBytes - count generalizing count with
  | zero =>
      obtain rfl : count = opcode.shape.operandBytes := by omega
      have hdecode := Instruction.decode_full h
        (machine.length_bytesAt (address + 1) opcode.shape.operandBytes)
      rw [← hread] at hdecode
      cases hoperands : Operand.decode opcode.shape
          (machine.bytesAt (address + 1) opcode.shape.operandBytes) with
      | ok operands =>
          rw [hoperands] at hdecode
          exact fetch_of_some hdecode
      | error fault =>
          rw [hoperands] at hdecode
          obtain ⟨index, -, rfl⟩ :=
            (Operand.decode_eq_error (Machine.length_bytesAt _ _ _)).mp hoperands
          exact fetch_of_error hdecode
  | succ missing ih =>
      have hshort : (machine.bytesAt (address + 1) count).length <
          opcode.shape.operandBytes := by
        rw [Machine.length_bytesAt]
        omega
      have hdecode := Instruction.decode_short h hshort
      rw [← hread] at hdecode
      have hnext : address + UInt8.ofNat count + 1 = address + UInt8.ofNat (count + 1) := by
        rw [UInt8.ofNat_add, UInt8.add_assoc]
        rfl
      rw [fetch_of_none hdecode, hread, ← Machine.bytesAt_succ_eq_cons,
        Machine.advance_eq_jumpTo, Machine.jumpTo_jumpTo, Machine.ip_jumpTo, hnext]
      exact ih (by omega) (by omega)

/-- **Fetching an opcode.**  The operands are read from the bytes behind it, and the
instruction pointer ends on the last one of these. -/
theorem fetch_known {machine : Machine} {opcode : Opcode}
    (h : Opcode.ofByte? (machine.read machine.ip).toUInt8 = some opcode) :
    fetch machine.ip machine [] =
      ((fun operands => ⟨opcode, operands⟩) <$> Operand.decode opcode.shape
          (machine.bytesAt (machine.ip + 1) opcode.shape.operandBytes),
        machine.jumpTo (machine.ip + UInt8.ofNat opcode.shape.operandBytes)) := by
  have hfetch := fetch_behind h machine.ip (Nat.zero_le _)
  rwa [show machine.ip + UInt8.ofNat 0 = machine.ip from UInt8.add_zero _,
    Machine.jumpTo_ip] at hfetch

end ByteMachine
