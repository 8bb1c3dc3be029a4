import ByteMachine.Object.Image
import ByteMachine.Operand

/-!
# The state of the machine

A machine has seven registers, five flags and 256 memory cells.  Registers and
cells hold signed eight-bit values.  A cell is addressed by an unsigned byte, so
a signed value that serves as an address wraps around memory, and the last cell
is followed by the first.
-/

namespace ByteMachine

/-- The contents of the registers. -/
structure Registers where
  a : Int8
  b : Int8
  c : Int8
  d : Int8
  ip : Int8
  sb : Int8
  sp : Int8
deriving DecidableEq, Repr

namespace Registers

/-- All registers hold zero. -/
def cleared : Registers := ⟨0, 0, 0, 0, 0, 0, 0⟩

/-- The value of a register. -/
def get (registers : Registers) : Register → Int8
  | .a => registers.a
  | .b => registers.b
  | .c => registers.c
  | .d => registers.d
  | .ip => registers.ip
  | .sb => registers.sb
  | .sp => registers.sp

/-- Change the value of a register. -/
def set (registers : Registers) (value : Int8) : Register → Registers
  | .a => { registers with a := value }
  | .b => { registers with b := value }
  | .c => { registers with c := value }
  | .d => { registers with d := value }
  | .ip => { registers with ip := value }
  | .sb => { registers with sb := value }
  | .sp => { registers with sp := value }

/-- A register that is written and read has the new value. -/
@[simp] theorem get_set_self (registers : Registers) (r : Register) (value : Int8) :
    (registers.set value r).get r = value := by
  cases r <;> rfl

/-- Writing a register leaves the others alone. -/
theorem get_set_of_ne (registers : Registers) {r s : Register} (value : Int8)
    (h : s ≠ r) : (registers.set value r).get s = registers.get s := by
  cases r <;> cases s <;> first | rfl | exact absurd rfl h

/-- Registers that agree one by one are equal. -/
theorem ext_get {x y : Registers} (h : ∀ r, x.get r = y.get r) : x = y := by
  have ha := h .a
  have hb := h .b
  have hc := h .c
  have hd := h .d
  have hip := h .ip
  have hsb := h .sb
  have hsp := h .sp
  cases x
  cases y
  simp only [get] at ha hb hc hd hip hsb hsp
  subst ha hb hc hd hip hsb hsp
  rfl

end Registers

/-- The contents of the flags. -/
structure Flags where
  carry : Bool
  parity : Bool
  zero : Bool
  sign : Bool
  overflow : Bool
deriving DecidableEq, Repr

namespace Flags

/-- All flags are false. -/
def cleared : Flags := ⟨false, false, false, false, false⟩

/-- The value of a flag. -/
def get (flags : Flags) : Flag → Bool
  | .carry => flags.carry
  | .parity => flags.parity
  | .zero => flags.zero
  | .sign => flags.sign
  | .overflow => flags.overflow

/-- Change the value of a flag. -/
def set (flags : Flags) (value : Bool) : Flag → Flags
  | .carry => { flags with carry := value }
  | .parity => { flags with parity := value }
  | .zero => { flags with zero := value }
  | .sign => { flags with sign := value }
  | .overflow => { flags with overflow := value }

/-- A flag that is written and read has the new value. -/
@[simp] theorem get_set_self (flags : Flags) (f : Flag) (value : Bool) :
    (flags.set value f).get f = value := by
  cases f <;> rfl

/-- Writing a flag leaves the others alone. -/
theorem get_set_of_ne (flags : Flags) {f g : Flag} (value : Bool) (h : g ≠ f) :
    (flags.set value f).get g = flags.get g := by
  cases f <;> cases g <;> first | rfl | exact absurd rfl h

/-- Flags that agree one by one are equal. -/
theorem ext_get {x y : Flags} (h : ∀ f, x.get f = y.get f) : x = y := by
  have hcarry := h .carry
  have hparity := h .parity
  have hzero := h .zero
  have hsign := h .sign
  have hoverflow := h .overflow
  cases x
  cases y
  simp only [get] at hcarry hparity hzero hsign hoverflow
  subst hcarry hparity hzero hsign hoverflow
  rfl

end Flags

/-- The contents of the memory cells. -/
structure Memory where
  cells : Vector Int8 memorySize
deriving DecidableEq

namespace Memory

/-- All cells hold zero. -/
def cleared : Memory := ⟨Vector.replicate memorySize 0⟩

/-- Every byte is the address of a cell. -/
theorem toNat_lt_memorySize (address : UInt8) : address.toNat < memorySize :=
  address.toNat_lt

/-- The value of a cell. -/
def read (memory : Memory) (address : UInt8) : Int8 :=
  have _ := toNat_lt_memorySize address
  memory.cells[address.toNat]

/-- Change the value of a cell. -/
def write (memory : Memory) (address : UInt8) (value : Int8) : Memory :=
  ⟨memory.cells.set address.toNat value (toNat_lt_memorySize address)⟩

/-- Copy an image into the first cells.  The cells behind it are left alone. -/
def load (memory : Memory) (image : Image) : Memory :=
  let bytes := image.bytes.toArray
  ⟨memory.cells.mapIdx fun position value =>
    match bytes[position]? with
    | some byte => byte.toInt8
    | none => value⟩

/-- A cell that is written and read has the new value. -/
@[simp] theorem read_write_self (memory : Memory) (address : UInt8) (value : Int8) :
    (memory.write address value).read address = value := by
  simp [read, write]

/-- Writing a cell leaves the others alone. -/
theorem read_write_of_ne (memory : Memory) {address other : UInt8} (value : Int8)
    (h : other ≠ address) :
    (memory.write address value).read other = memory.read other := by
  have hne : address.toNat ≠ other.toNat := fun heq =>
    h (UInt8.toNat_inj.mp heq.symm)
  simp [read, write, Vector.getElem_set_ne, hne]

/-- Memories that agree cell by cell are equal. -/
theorem ext_read {x y : Memory} (h : ∀ address, x.read address = y.read address) : x = y := by
  obtain ⟨cells⟩ := x
  obtain ⟨others⟩ := y
  congr 1
  apply Vector.ext
  intro position hposition
  have hsame : (UInt8.ofNat position).toNat = position := UInt8.toNat_ofNat_of_lt' hposition
  simpa [read, hsame] using h (UInt8.ofNat position)

end Memory

/-- Registers, flags and memory. -/
structure Machine where
  registers : Registers
  flags : Flags
  memory : Memory
deriving DecidableEq

namespace Machine

/-- Every register, flag and cell is cleared. -/
def cleared : Machine := ⟨.cleared, .cleared, .cleared⟩

/-- The value of a register. -/
def register (machine : Machine) (r : Register) : Int8 :=
  machine.registers.get r

/-- Change the value of a register. -/
def setRegister (machine : Machine) (r : Register) (value : Int8) : Machine :=
  { machine with registers := machine.registers.set value r }

/-- The value of a flag. -/
def flag (machine : Machine) (f : Flag) : Bool :=
  machine.flags.get f

/-- Change the value of a flag. -/
def setFlag (machine : Machine) (f : Flag) (value : Bool) : Machine :=
  { machine with flags := machine.flags.set value f }

/-- The value of a memory cell. -/
def read (machine : Machine) (address : UInt8) : Int8 :=
  machine.memory.read address

/-- Change the value of a memory cell. -/
def write (machine : Machine) (address : UInt8) (value : Int8) : Machine :=
  { machine with memory := machine.memory.write address value }

/-- The value of a symbol; a flag counts as 0 or 1. -/
def get (machine : Machine) : Symbol → Int8
  | .register r => machine.register r
  | .flag f => if machine.flag f then 1 else 0

/-- Machines with the same symbols and the same cells are equal. -/
theorem ext_get_read {x y : Machine} (hget : ∀ s, x.get s = y.get s)
    (hread : ∀ address, x.read address = y.read address) : x = y := by
  have hregisters : x.registers = y.registers := Registers.ext_get fun r => hget (.register r)
  have hflags : x.flags = y.flags := by
    apply Flags.ext_get
    intro f
    have hvalue : (if x.flag f then 1 else 0 : Int8) = if y.flag f then 1 else 0 :=
      hget (.flag f)
    show x.flag f = y.flag f
    cases hx : x.flag f <;> cases hy : y.flag f <;> simp [hx, hy] at hvalue ⊢
  have hmemory : x.memory = y.memory := Memory.ext_read hread
  obtain ⟨registers, flags, memory⟩ := x
  obtain ⟨registers', flags', memory'⟩ := y
  simp only at hregisters hflags hmemory
  rw [hregisters, hflags, hmemory]

/-- Change the value of a symbol; a flag becomes true for every value but 0. -/
def set (machine : Machine) (value : Int8) : Symbol → Machine
  | .register r => machine.setRegister r value
  | .flag f => machine.setFlag f (value != 0)

/-- The present value of an operand. -/
def value (machine : Machine) : Operand → Int8
  | .immediate v => v
  | .symbol s => machine.get s

/-- Add one to a register; the greatest value is followed by the least. -/
def increment (machine : Machine) (r : Register) : Machine :=
  machine.setRegister r (machine.register r + 1)

/-- Subtract one from a register; the least value is followed by the
greatest. -/
def decrement (machine : Machine) (r : Register) : Machine :=
  machine.setRegister r (machine.register r - 1)

/-- The address that the instruction pointer holds. -/
def ip (machine : Machine) : UInt8 :=
  (machine.register .ip).toUInt8

/-- Move the instruction pointer to the next cell. -/
def advance (machine : Machine) : Machine :=
  machine.increment .ip

/-- Copy an image into the first cells of memory. -/
def load (machine : Machine) (image : Image) : Machine :=
  { machine with memory := machine.memory.load image }

end Machine

end ByteMachine
