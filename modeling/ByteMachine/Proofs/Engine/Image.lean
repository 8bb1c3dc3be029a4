import ByteMachine.Proofs.Engine.Step

/-!
# Images in memory

An image is loaded into the first cells of memory, and a running program can change
them.  The engine reads an instruction of the image where all its bytes are still in
their cells.

* `Machine.Holds` — a cell holds the byte of an image that belongs there;
* `Machine.holds_load` — after loading, all cells of the image do;
* `Engine.toNat_lastAddress_add_one` — the address behind an instruction;
* `Engine.decodes_of_holds` — an instruction of an image decodes where it stands, if
  its cells hold its bytes.
-/

namespace ByteMachine

namespace Machine

/-- The cell at a position holds the byte which an image has at this position. -/
def Holds (machine : Machine) (image : Image) (position : Nat) : Prop :=
  image.bytes[position]? = some (machine.read (UInt8.ofNat position)).toUInt8

instance (machine : Machine) (image : Image) (position : Nat) :
    Decidable (machine.Holds image position) :=
  inferInstanceAs (Decidable (_ = _))

/-- A cell after an image is loaded: a byte of the image, or what was there before. -/
theorem read_load (machine : Machine) (image : Image) (address : UInt8) :
    (machine.load image).read address =
      (image.bytes[address.toNat]?.map UInt8.toInt8).getD (machine.read address) := by
  simp only [load, read, Memory.load, Memory.read, Vector.getElem_mapIdx,
    List.getElem?_toArray]
  cases image.bytes[address.toNat]? <;> rfl

/-- **Loading.**  After an image is loaded, the cells of the image hold its bytes. -/
theorem holds_load (machine : Machine) {image : Image} {position : Nat}
    (h : position < image.size) : (machine.load image).Holds image position := by
  have hfits : position < 256 := Nat.lt_of_lt_of_le h image.fits
  have hbyte : image.bytes[position]? = some image.bytes[position] :=
    List.getElem?_eq_getElem h
  rw [Holds, read_load, UInt8.toNat_ofNat_of_lt' hfits, hbyte]
  rfl

end Machine

namespace Engine

variable {σ : Type}

theorem toNat_lastAddress (engine : Engine σ) (opcode : Opcode) :
    (engine.lastAddress opcode).toNat =
      (engine.machine.ip.toNat + opcode.shape.operandBytes) % 256 := by
  rw [lastAddress, UInt8.toNat_add, UInt8.toNat_ofNat']
  omega

/-- The address behind an instruction: the instruction's length further on, around the
end of memory. -/
theorem toNat_lastAddress_add_one (engine : Engine σ) (instruction : Instruction) :
    (engine.lastAddress instruction.opcode + 1).toNat =
      (engine.machine.ip.toNat + instruction.length) % 256 := by
  have hone : (1 : UInt8).toNat = 1 := rfl
  rw [UInt8.toNat_add, toNat_lastAddress, hone, Instruction.length]
  omega

/-- **Instructions of an image.**  An instruction of an image decodes where it stands,
if its cells hold its bytes. -/
theorem decodes_of_holds {engine : Engine σ} {image : Image} {instruction : Instruction}
    {front back : List UInt8} (hformed : instruction.WellFormed)
    (hbytes : image.bytes = front ++ (instruction.encode ++ back))
    (hip : engine.machine.ip.toNat = front.length)
    (hholds : ∀ k, k < instruction.length →
      engine.machine.Holds image (front.length + k)) :
    engine.Decodes instruction := by
  have hlength := Instruction.length_encode hformed
  have hcode : engine.machine.bytesAt engine.machine.ip instruction.length =
      instruction.encode := by
    apply List.ext_getElem
    · rw [Machine.length_bytesAt, hlength]
    · intro k hk hk'
      have hlt : k < instruction.length := by rwa [hlength] at hk'
      have haddress : UInt8.ofNat (front.length + k) =
          engine.machine.ip + UInt8.ofNat k := by
        rw [UInt8.ofNat_add, ← hip, UInt8.ofNat_toNat]
      have hcell := hholds k hlt
      rw [Machine.Holds, hbytes, List.getElem?_append_right (Nat.le_add_right _ _),
        Nat.add_sub_cancel_left, List.getElem?_append_left hk',
        List.getElem?_eq_getElem hk', haddress] at hcell
      rw [Option.some.inj hcell]
      simp only [Machine.bytesAt, List.getElem_map, List.getElem_range]
  rw [Decodes, hcode]
  exact Instruction.decode_eq_some.mpr ⟨hformed, rfl⟩

end Engine

end ByteMachine
