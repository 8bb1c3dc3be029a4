import ByteMachine.Proofs.Instruction.Listing

/-!
# Images as rows of blocks

No byte of an image says where an instruction ends.  The image is cut all the same, and in
one way only: the first byte of a block tells how long it is, so no block that decodes is
the beginning of another one.

* `IsBlock` — bytes that decode as a whole;
* `eq_of_append_eq` — blocks do not begin with other blocks;
* `blocks_unique` — bytes have at most one cut into blocks;
* `Lists` — what it is to list a row of blocks with their offsets;
* `Undecodable` — what is wrong with bytes that do not begin with a block;
* `disassembleFrom_codeOf_append` — instructions in front of other bytes are listed first;
* `disassembleFrom_add` — bytes further behind are listed with greater offsets;
* `disassembly_splits` — the images that disassemble, their listings, and what is
  reported of the others.
-/

namespace ByteMachine

/-- Bytes that decode as a whole, to one instruction. -/
def IsBlock (block : List UInt8) : Prop :=
  ∃ instruction, Instruction.decode block = .ok (some instruction)

/-- A row of blocks is listed from a start to a finish: each block with the instruction to
which it decodes, at the offset where the block before it ends. -/
inductive Lists : Nat → List (List UInt8) → List (Nat × Instruction) → Nat → Prop
  | nil (offset : Nat) : Lists offset [] [] offset
  | cons {start finish : Nat} {block : List UInt8} {instruction : Instruction}
      {blocks : List (List UInt8)} {listing : List (Nat × Instruction)}
      (hdecode : Instruction.decode block = .ok (some instruction))
      (hrest : Lists (start + instruction.length) blocks listing finish) :
      Lists start (block :: blocks) ((start, instruction) :: listing) finish

/-- Bytes at an offset do not begin with a block, for the reason that the fault gives. -/
inductive Undecodable (offset : Nat) : List UInt8 → Fault → Prop
  /-- The first byte is no opcode. -/
  | unknown {byte : UInt8} {rest : List UInt8} (hopcode : Opcode.ofByte? byte = none) :
      Undecodable offset (byte :: rest) (.invalidInstruction byte offset)
  /-- The first byte is an opcode, and the operand bytes run past the end. -/
  | cutOff {byte : UInt8} {rest : List UInt8} {opcode : Opcode}
      (hopcode : Opcode.ofByte? byte = some opcode)
      (hshort : rest.length < opcode.shape.operandBytes) :
      Undecodable offset (byte :: rest) (.invalidInstruction byte offset)
  /-- All bytes are there, and a field of the operands should be the index of a symbol and
  is not. -/
  | badSymbol {byte : UInt8} {operandBytes rest : List UInt8} {opcode : Opcode} {index : UInt8}
      (hopcode : Opcode.ofByte? byte = some opcode)
      (hfull : operandBytes.length = opcode.shape.operandBytes)
      (hindex : (opcode.shape.symbolFields operandBytes).find? (12 ≤ ·) = some index) :
      Undecodable offset (byte :: (operandBytes ++ rest)) (.invalidRegisterIndex index)

/-- A fault of bytes that stand `count` bytes further behind. -/
def Fault.moveBehind (count : Nat) : Fault → Fault
  | .invalidInstruction opcode offset => .invalidInstruction opcode (offset + count)
  | fault => fault

/-! ## Blocks -/

/-- Blocks are the codes of instructions. -/
theorem blocks_iff {blocks : List (List UInt8)} :
    (∀ block ∈ blocks, IsBlock block) ↔
      ∃ instructions : List Instruction,
        (∀ instruction ∈ instructions, instruction.WellFormed) ∧
        blocks = instructions.map Instruction.encode := by
  constructor
  · intro h
    induction blocks with
    | nil => exact ⟨[], by simp, rfl⟩
    | cons block rest ih =>
        obtain ⟨instruction, hdecode⟩ := h block List.mem_cons_self
        obtain ⟨hformed, rfl⟩ := Instruction.decode_eq_some.mp hdecode
        obtain ⟨instructions, hrest, rfl⟩ :=
          ih fun other hother => h other (List.mem_cons_of_mem _ hother)
        exact ⟨instruction :: instructions, by simpa using ⟨hformed, hrest⟩, rfl⟩
  · rintro ⟨instructions, hformed, rfl⟩ block hblock
    obtain ⟨instruction, hinstruction, rfl⟩ := List.mem_map.mp hblock
    exact ⟨instruction, Instruction.decode_eq_some.mpr ⟨hformed instruction hinstruction, rfl⟩⟩

/-- **Blocks do not begin with other blocks.**  The first byte is the opcode, and the opcode
tells the length. -/
theorem eq_of_append_eq {block other rest more : List UInt8} (hblock : IsBlock block)
    (hother : IsBlock other) (h : block ++ rest = other ++ more) :
    block = other ∧ rest = more := by
  obtain ⟨first, hfirst⟩ := hblock
  obtain ⟨second, hsecond⟩ := hother
  obtain ⟨hformed, rfl⟩ := Instruction.decode_eq_some.mp hfirst
  obtain ⟨hformed', rfl⟩ := Instruction.decode_eq_some.mp hsecond
  have hbyte : first.opcode.byte = second.opcode.byte := by
    rw [Instruction.encode, Instruction.encode, List.cons_append, List.cons_append] at h
    exact (List.cons.inj h).1
  have hopcode : first.opcode = second.opcode := by
    have hfound := Opcode.ofByte?_byte first.opcode
    rw [hbyte, Opcode.ofByte?_byte] at hfound
    exact (Option.some.inj hfound).symm
  have hlength : first.encode.length = second.encode.length := by
    rw [Instruction.length_encode hformed, Instruction.length_encode hformed',
      Instruction.length, Instruction.length, hopcode]
  exact List.append_inj h hlength

theorem IsBlock.ne_nil {block : List UInt8} (h : IsBlock block) : block ≠ [] := by
  rintro rfl
  obtain ⟨instruction, hdecode⟩ := h
  cases hdecode

/-- **One cut only.**  Two rows of blocks with the same bytes are the same. -/
theorem blocks_unique {blocks others : List (List UInt8)}
    (hblocks : ∀ block ∈ blocks, IsBlock block) (hothers : ∀ block ∈ others, IsBlock block)
    (h : blocks.flatten = others.flatten) :
    blocks = others := by
  induction blocks generalizing others with
  | nil =>
      cases others with
      | nil => rfl
      | cons other rest =>
          have hempty := List.flatten_eq_nil_iff.mp h.symm other List.mem_cons_self
          exact absurd hempty (hothers other List.mem_cons_self).ne_nil
  | cons block rest ih =>
      cases others with
      | nil =>
          have hempty := List.flatten_eq_nil_iff.mp h block List.mem_cons_self
          exact absurd hempty (hblocks block List.mem_cons_self).ne_nil
      | cons other more =>
          rw [List.flatten_cons, List.flatten_cons] at h
          obtain ⟨rfl, hrest⟩ := eq_of_append_eq (hblocks block List.mem_cons_self)
            (hothers other List.mem_cons_self) h
          rw [ih (fun b hb => hblocks b (List.mem_cons_of_mem _ hb))
            (fun b hb => hothers b (List.mem_cons_of_mem _ hb)) hrest]

/-- The codes of instructions are listed as the instructions with their offsets. -/
theorem lists_iff {start finish : Nat} {blocks : List (List UInt8)}
    {listing : List (Nat × Instruction)} :
    Lists start blocks listing finish ↔
      ∃ instructions : List Instruction,
        (∀ instruction ∈ instructions, instruction.WellFormed) ∧
        blocks = instructions.map Instruction.encode ∧ listing = placeFrom start instructions ∧
        finish = start + (codeOf instructions).length := by
  constructor
  · intro h
    induction h with
    | nil offset => exact ⟨[], by simp, rfl, rfl, rfl⟩
    | @cons start finish block instruction blocks listing hdecode hrest ih =>
        obtain ⟨hformed, rfl⟩ := Instruction.decode_eq_some.mp hdecode
        obtain ⟨instructions, hformed', rfl, rfl, rfl⟩ := ih
        refine ⟨instruction :: instructions, by simpa using ⟨hformed, hformed'⟩, rfl, rfl, ?_⟩
        rw [codeOf_cons, List.length_append, Instruction.length_encode hformed, Nat.add_assoc]
  · rintro ⟨instructions, hformed, rfl, rfl, rfl⟩
    induction instructions generalizing start with
    | nil => exact .nil start
    | cons instruction rest ih =>
        have hfirst := hformed instruction List.mem_cons_self
        have hrest := @ih (start + instruction.length)
          fun i hi => hformed i (List.mem_cons_of_mem _ hi)
        rw [codeOf_cons, List.length_append, Instruction.length_encode hfirst, ← Nat.add_assoc]
        exact .cons (Instruction.decode_eq_some.mpr ⟨hfirst, rfl⟩) hrest

/-! ## Walking through an image -/

/-- **Instructions come first.**  The instructions in front of other bytes are listed, and
the other bytes are disassembled where the instructions end. -/
theorem disassembleFrom_codeOf_append {instructions : List Instruction}
    (h : ∀ instruction ∈ instructions, instruction.WellFormed) (offset : Nat)
    (rest : List UInt8) :
    disassembleFrom offset (codeOf instructions ++ rest) =
      (placeFrom offset instructions ++ ·) <$>
        disassembleFrom (offset + (codeOf instructions).length) rest := by
  induction instructions generalizing offset with
  | nil =>
      have hnothing : codeOf [] = [] := rfl
      rw [hnothing, List.nil_append, List.length_nil, Nat.add_zero, placeFrom]
      cases disassembleFrom offset rest <;> rfl
  | cons instruction more ih =>
      have hfirst := h instruction List.mem_cons_self
      rw [codeOf_cons, List.append_assoc, disassembleFrom_encode_append hfirst,
        ih (fun i hi => h i (List.mem_cons_of_mem _ hi)), List.length_append,
        Instruction.length_encode hfirst, ← Nat.add_assoc, placeFrom]
      cases disassembleFrom (offset + instruction.length + (codeOf more).length) rest <;> rfl

/-- The walk ends where bytes do not begin with a block. -/
theorem disassembleFrom_of_undecodable {offset : Nat} {bytes : List UInt8} {fault : Fault}
    (h : Undecodable offset bytes fault) : disassembleFrom offset bytes = .error fault := by
  cases h with
  | unknown hopcode => rw [disassembleFrom, hopcode]
  | @cutOff byte rest opcode hopcode hshort =>
      have htake : rest.take opcode.shape.operandBytes = rest :=
        List.take_of_length_le (Nat.le_of_lt hshort)
      rw [disassembleFrom, hopcode]
      simp only [htake, Instruction.decode_short hopcode hshort]
      rfl
  | @badSymbol byte operandBytes rest opcode index hopcode hfull hindex =>
      have hoperands := (Operand.decode_eq_error hfull).mpr ⟨index, hindex, rfl⟩
      rw [disassembleFrom, hopcode]
      simp only [← hfull, List.take_left, Instruction.decode_full hopcode hfull, hoperands]
      rfl

/-- Bytes either begin with the code of an instruction or do not begin with a block. -/
theorem exists_encode_or_undecodable (offset : Nat) {bytes : List UInt8} (h : bytes ≠ []) :
    (∃ (instruction : Instruction) (rest : List UInt8), instruction.WellFormed ∧
        bytes = instruction.encode ++ rest) ∨
      ∃ fault, Undecodable offset bytes fault := by
  obtain ⟨byte, rest, rfl⟩ := List.exists_cons_of_ne_nil h
  cases hopcode : Opcode.ofByte? byte with
  | none => exact .inr ⟨_, .unknown hopcode⟩
  | some opcode =>
      by_cases hshort : rest.length < opcode.shape.operandBytes
      · exact .inr ⟨_, .cutOff hopcode hshort⟩
      · obtain ⟨operandBytes, more, rfl, hfull⟩ : ∃ operandBytes more,
            rest = operandBytes ++ more ∧ operandBytes.length = opcode.shape.operandBytes :=
          ⟨_, _, (List.take_append_drop opcode.shape.operandBytes rest).symm,
            List.length_take_of_le (Nat.not_lt.mp hshort)⟩
        cases hoperands : Operand.decode opcode.shape operandBytes with
        | error fault =>
            obtain ⟨index, hindex, -⟩ := (Operand.decode_eq_error hfull).mp hoperands
            exact .inr ⟨_, .badSymbol hopcode hfull hindex⟩
        | ok operands =>
            obtain ⟨hkinds, rfl⟩ := Operand.decode_eq_ok.mp hoperands
            obtain rfl := Opcode.ofByte?_eq_some.mp hopcode
            exact .inl ⟨⟨opcode, operands⟩, more, hkinds, rfl⟩

/-- Bytes are instructions, up to their end or up to where no block begins. -/
theorem exists_codeOf_append (offset : Nat) (bytes : List UInt8) :
    ∃ (instructions : List Instruction) (rest : List UInt8),
      (∀ instruction ∈ instructions, instruction.WellFormed) ∧
      bytes = codeOf instructions ++ rest ∧
      (rest = [] ∨
        ∃ fault, Undecodable (offset + (codeOf instructions).length) rest fault) := by
  induction hlength : bytes.length using Nat.strongRecOn generalizing offset bytes with
  | ind length ih =>
      by_cases hempty : bytes = []
      · exact ⟨[], [], by simp, hempty, .inl rfl⟩
      rcases exists_encode_or_undecodable offset hempty with
        ⟨instruction, rest, hformed, rfl⟩ | ⟨fault, hfault⟩
      · have hencoded := Instruction.length_encode hformed
        have hpositive := instruction.length_pos
        rw [List.length_append, hencoded] at hlength
        obtain ⟨more, tail, hmore, rfl, hend⟩ :=
          ih rest.length (by omega) (offset + instruction.length) rest rfl
        refine ⟨instruction :: more, tail, by simpa using ⟨hformed, hmore⟩, ?_, ?_⟩
        · rw [codeOf_cons, List.append_assoc]
        · rwa [codeOf_cons, List.length_append, hencoded, ← Nat.add_assoc]
      · exact ⟨[], bytes, by simp, rfl, .inr ⟨fault, hfault⟩⟩

/-- **The first fault.**  The walk fails exactly where, behind instructions, no block
begins. -/
theorem disassembleFrom_eq_error {offset : Nat} {bytes : List UInt8} {fault : Fault} :
    disassembleFrom offset bytes = .error fault ↔
      ∃ (instructions : List Instruction) (rest : List UInt8),
        (∀ instruction ∈ instructions, instruction.WellFormed) ∧
        bytes = codeOf instructions ++ rest ∧
        Undecodable (offset + (codeOf instructions).length) rest fault := by
  constructor
  · intro h
    obtain ⟨instructions, rest, hformed, rfl, hend⟩ := exists_codeOf_append offset bytes
    rw [disassembleFrom_codeOf_append hformed, map_eq_error] at h
    rcases hend with rfl | ⟨other, hother⟩
    · rw [disassembleFrom] at h
      cases h
    · rw [disassembleFrom_of_undecodable hother] at h
      obtain rfl := Except.error.inj h
      exact ⟨instructions, rest, hformed, rfl, hother⟩
  · rintro ⟨instructions, rest, hformed, rfl, hfault⟩
    rw [disassembleFrom_codeOf_append hformed, disassembleFrom_of_undecodable hfault]
    rfl

/-- What does not begin with a block further behind does not do so where it stands. -/
theorem Undecodable.add {offset : Nat} {bytes : List UInt8} {fault : Fault}
    (h : Undecodable offset bytes fault) (count : Nat) :
    Undecodable (offset + count) bytes (fault.moveBehind count) := by
  cases h with
  | unknown hopcode => exact .unknown hopcode
  | cutOff hopcode hshort => exact .cutOff hopcode hshort
  | badSymbol hopcode hfull hindex => exact .badSymbol hopcode hfull hindex

/-- Instructions further behind have greater offsets. -/
theorem placeFrom_add (offset count : Nat) (instructions : List Instruction) :
    placeFrom (offset + count) instructions =
      (placeFrom offset instructions).map fun entry => (entry.1 + count, entry.2) := by
  induction instructions generalizing offset with
  | nil => rfl
  | cons instruction rest ih =>
      rw [placeFrom, placeFrom, List.map_cons, Nat.add_right_comm, ih]

/-- **Further behind.**  Bytes that stand further behind are disassembled in the same way,
with greater offsets. -/
theorem disassembleFrom_add (offset count : Nat) (bytes : List UInt8) :
    disassembleFrom (offset + count) bytes =
      (List.map fun entry => (entry.1 + count, entry.2)) <$>
        (disassembleFrom offset bytes).mapError (Fault.moveBehind count) := by
  cases h : disassembleFrom offset bytes with
  | ok listing =>
      obtain ⟨instructions, hformed, rfl, rfl⟩ := disassembleFrom_eq_ok.mp h
      exact disassembleFrom_eq_ok.mpr ⟨instructions, hformed, rfl, (placeFrom_add ..).symm⟩
  | error fault =>
      obtain ⟨instructions, rest, hformed, rfl, hfault⟩ := disassembleFrom_eq_error.mp h
      refine disassembleFrom_eq_error.mpr ⟨instructions, rest, hformed, rfl, ?_⟩
      rw [Nat.add_right_comm]
      exact hfault.add count

/-- The code of instructions is the row of their codes. -/
theorem flatten_map_encode (instructions : List Instruction) :
    (instructions.map Instruction.encode).flatten = codeOf instructions :=
  List.flatMap_def.symm

/-- **Disassembly is the one split of an image into instructions.**  An image disassembles
exactly if it is a row of blocks; there is no other row of blocks with these bytes; and the
listing holds what each block decodes to, from offset zero to the end of the image, where
each offset is that of the block before and the length of that block.  The image is refused
exactly if, behind a row of blocks, there are bytes that do not begin with a block, and the
fault says why at the offset where these bytes stand; a wrong number of operand bytes is
never reported.  Whatever follows an image that disassembles is listed behind it, as it
would be alone but for the offsets. -/
theorem disassembly_splits (bytes : List UInt8) :
    ((∃ listing, disassemble bytes = .ok listing) ↔
      ∃ blocks : List (List UInt8), (∀ block ∈ blocks, IsBlock block) ∧
        bytes = blocks.flatten) ∧
    (∀ blocks others : List (List UInt8), (∀ block ∈ blocks, IsBlock block) →
      (∀ block ∈ others, IsBlock block) → bytes = blocks.flatten → bytes = others.flatten →
        blocks = others) ∧
    (∀ listing, disassemble bytes = .ok listing ↔
      ∃ blocks : List (List UInt8), bytes = blocks.flatten ∧
        Lists 0 blocks listing bytes.length) ∧
    (∀ fault, disassemble bytes = .error fault ↔
      ∃ (blocks : List (List UInt8)) (rest : List UInt8), (∀ block ∈ blocks, IsBlock block) ∧
        bytes = blocks.flatten ++ rest ∧ Undecodable blocks.flatten.length rest fault) ∧
    (∀ name expected actual,
      disassemble bytes ≠ .error (.operandCountMismatch name expected actual)) ∧
    ∀ listing, disassemble bytes = .ok listing → ∀ more,
      disassemble (bytes ++ more) =
        (fun behind => listing ++
            behind.map fun entry => (entry.1 + bytes.length, entry.2)) <$>
          (disassemble more).mapError (Fault.moveBehind bytes.length) := by
  refine ⟨?_, ?_, fun listing => ?_, fun fault => ?_, ?_, ?_⟩
  · constructor
    · rintro ⟨listing, h⟩
      obtain ⟨instructions, hformed, rfl, -⟩ := disassemble_eq_ok.mp h
      exact ⟨_, blocks_iff.mpr ⟨instructions, hformed, rfl⟩,
        (flatten_map_encode instructions).symm⟩
    · rintro ⟨blocks, hblocks, rfl⟩
      obtain ⟨instructions, hformed, rfl⟩ := blocks_iff.mp hblocks
      exact ⟨_, disassemble_eq_ok.mpr
        ⟨instructions, hformed, flatten_map_encode instructions, rfl⟩⟩
  · intro blocks others hblocks hothers h hsame
    exact blocks_unique hblocks hothers (h.symm.trans hsame)
  · rw [disassemble_eq_ok]
    constructor
    · rintro ⟨instructions, hformed, rfl, rfl⟩
      exact ⟨_, (flatten_map_encode instructions).symm,
        lists_iff.mpr ⟨instructions, hformed, rfl, rfl, (Nat.zero_add _).symm⟩⟩
    · rintro ⟨blocks, rfl, h⟩
      obtain ⟨instructions, hformed, rfl, rfl, -⟩ := lists_iff.mp h
      exact ⟨instructions, hformed, flatten_map_encode instructions, rfl⟩
  · rw [disassemble, disassembleFrom_eq_error]
    simp only [Nat.zero_add]
    constructor
    · rintro ⟨instructions, rest, hformed, rfl, h⟩
      rw [← flatten_map_encode] at h ⊢
      exact ⟨_, rest, blocks_iff.mpr ⟨instructions, hformed, rfl⟩, rfl, h⟩
    · rintro ⟨blocks, rest, hblocks, rfl, h⟩
      obtain ⟨instructions, hformed, rfl⟩ := blocks_iff.mp hblocks
      rw [flatten_map_encode] at h ⊢
      exact ⟨instructions, rest, hformed, rfl, h⟩
  · intro name expected actual h
    obtain ⟨instructions, rest, -, -, hfault⟩ := disassembleFrom_eq_error.mp h
    cases hfault
  · intro listing h more
    obtain ⟨instructions, hformed, rfl, rfl⟩ := disassemble_eq_ok.mp h
    rw [disassemble, disassembleFrom_codeOf_append hformed, disassembleFrom_add, disassemble]
    cases disassembleFrom 0 more <;> rfl

/-- Two instructions, the second one of three bytes, and behind them a pair of symbols of
which the high half is none: the fault names this half, behind all three. -/
theorem disassembly_splits_badSymbol :
    (∃ listing, disassemble [0, 77, 200, 1] = .ok listing ∧
      ∃ blocks : List (List UInt8), [0, 77, 200, 1] = blocks.flatten ∧
        Lists 0 blocks listing 4) ∧
    disassemble ([0, 77, 200, 1] ++ [29, 0xDC]) = .error (.invalidRegisterIndex 13) ∧
    disassemble ([0, 77, 200, 1] ++ [0, 29]) = .error (.invalidInstruction 29 5) := by
  have hlisted : disassemble [0, 77, 200, 1] = .ok
      [(0, ⟨⟨0, by decide⟩, []⟩),
        (1, ⟨⟨77, by decide⟩, [.immediate (-56), .symbol (.register .b)]⟩)] := by
    decide +kernel
  obtain ⟨-, -, hlisting, -, -, happend⟩ := disassembly_splits [0, 77, 200, 1]
  refine ⟨⟨_, hlisted, (hlisting _).mp hlisted⟩, ?_, ?_⟩
  · rw [happend _ hlisted]
    decide +kernel
  · rw [happend _ hlisted]
    decide +kernel

end ByteMachine
