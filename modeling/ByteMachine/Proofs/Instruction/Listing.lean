import ByteMachine.Instruction.Disassembly
import ByteMachine.Proofs.Instruction.Code

/-!
# Listings of images

An image disassembles exactly if it is the code of a sequence of instructions.
The listing then holds these instructions, each at the offset where its bytes
start.

* `placeFrom` — a sequence of instructions with their offsets;
* `disassembleFrom_eq_ok`, `disassemble_eq_ok` — the images that disassemble, and
  their listings;
* `getElem?_placeFrom_offset` — the offset of an instruction is the number of the
  bytes before it;
* `lookup_placeFrom` — the entry at an offset is the instruction whose code starts
  there.
-/

namespace ByteMachine

/-- The bytes of a sequence of instructions. -/
def codeOf (instructions : List Instruction) : List UInt8 :=
  instructions.flatMap Instruction.encode

/-- A sequence of instructions with their offsets, the first one at `offset`. -/
def placeFrom (offset : Nat) : List Instruction → List (Nat × Instruction)
  | [] => []
  | instruction :: rest =>
      (offset, instruction) :: placeFrom (offset + instruction.length) rest

theorem codeOf_cons (instruction : Instruction) (rest : List Instruction) :
    codeOf (instruction :: rest) = instruction.encode ++ codeOf rest := by
  simp [codeOf]

theorem codeOf_append (front back : List Instruction) :
    codeOf (front ++ back) = codeOf front ++ codeOf back :=
  List.flatMap_append

/-- One instruction at the start of an image is listed first. -/
theorem disassembleFrom_encode_append {instruction : Instruction}
    (h : instruction.WellFormed) (offset : Nat) (rest : List UInt8) :
    disassembleFrom offset (instruction.encode ++ rest) =
      (fun more => (offset, instruction) :: more) <$>
        disassembleFrom (offset + instruction.length) rest := by
  have hlength := Operand.length_encode h
  have hdecode := Instruction.decode_eq_some.mpr ⟨h, rfl⟩
  rw [Instruction.encode] at hdecode
  rw [Instruction.encode, List.cons_append, disassembleFrom, Opcode.ofByte?_byte]
  simp only [← hlength, List.take_left, List.drop_left, hdecode]
  rw [Instruction.length, ← hlength, Nat.add_assoc]
  cases disassembleFrom (offset + (1 + (Operand.encode instruction.operands).length)) rest <;>
    rfl

/-- An image that disassembles is the code of what is listed. -/
private theorem exists_of_disassembleFrom {offset : Nat} {bytes : List UInt8}
    {listing : List (Nat × Instruction)}
    (h : disassembleFrom offset bytes = .ok listing) :
    ∃ instructions : List Instruction,
      (∀ instruction ∈ instructions, instruction.WellFormed) ∧
      bytes = codeOf instructions ∧ listing = placeFrom offset instructions := by
  fun_induction disassembleFrom offset bytes generalizing listing with
  | case1 offset =>
      obtain rfl := Except.ok.inj h
      exact ⟨[], by simp, rfl, rfl⟩
  | case2 => cases h
  | case3 offset byte rest opcode hopcode length =>
      rename_i ih
      obtain ⟨decoded, hdecode, h⟩ := bind_eq_ok.mp h
      cases decoded with
      | none => cases h
      | some instruction =>
          obtain ⟨more, hmore, h⟩ := bind_eq_ok.mp h
          obtain rfl := pure_eq_ok.mp h
          obtain ⟨instructions, hformed, hbytes, rfl⟩ := ih hmore
          obtain ⟨hfirst, hcode⟩ := Instruction.decode_eq_some.mp hdecode
          obtain rfl : opcode = instruction.opcode := by
            rw [Instruction.encode, List.cons.injEq] at hcode
            rw [hcode.1, Opcode.ofByte?_byte] at hopcode
            exact (Option.some.inj hopcode).symm
          refine ⟨instruction :: instructions, ?_, ?_, ?_⟩
          · simpa using ⟨hfirst, hformed⟩
          · rw [codeOf_cons, ← hcode, ← hbytes, List.cons_append, List.take_append_drop]
          · rw [placeFrom, Instruction.length, Nat.add_assoc]

/-- **Images that disassemble.**  An image disassembles exactly if it is the code
of a sequence of instructions, and the listing holds these in order. -/
theorem disassembleFrom_eq_ok {offset : Nat} {bytes : List UInt8}
    {listing : List (Nat × Instruction)} :
    disassembleFrom offset bytes = .ok listing ↔
      ∃ instructions : List Instruction,
        (∀ instruction ∈ instructions, instruction.WellFormed) ∧
        bytes = codeOf instructions ∧ listing = placeFrom offset instructions := by
  constructor
  · exact exists_of_disassembleFrom
  · rintro ⟨instructions, hformed, rfl, rfl⟩
    induction instructions generalizing offset with
    | nil =>
        rw [codeOf, List.flatMap_nil, disassembleFrom]
        rfl
    | cons instruction rest ih =>
        have hfirst := hformed instruction List.mem_cons_self
        have hrest : disassembleFrom (offset + instruction.length) (codeOf rest) =
            .ok (placeFrom (offset + instruction.length) rest) :=
          ih (fun i hi => hformed i (List.mem_cons_of_mem _ hi))
        rw [codeOf_cons, disassembleFrom_encode_append hfirst, hrest]
        rfl

/-- The same for an image that starts at offset zero. -/
theorem disassemble_eq_ok {bytes : List UInt8} {listing : List (Nat × Instruction)} :
    disassemble bytes = .ok listing ↔
      ∃ instructions : List Instruction,
        (∀ instruction ∈ instructions, instruction.WellFormed) ∧
        bytes = codeOf instructions ∧ listing = placeFrom 0 instructions :=
  disassembleFrom_eq_ok

/-! ## Offsets -/

/-- A listing holds the instructions in order. -/
@[simp] theorem map_snd_placeFrom (offset : Nat) (instructions : List Instruction) :
    (placeFrom offset instructions).map Prod.snd = instructions := by
  induction instructions generalizing offset with
  | nil => rfl
  | cons instruction rest ih => rw [placeFrom, List.map_cons, ih]

/-- **Offsets are positions.**  The entry behind some instructions stands where
their code ends, and behind the last entry the image ends. -/
theorem getElem?_placeFrom_offset {instructions : List Instruction} (offset : Nat)
    (hformed : ∀ instruction ∈ instructions, instruction.WellFormed) {n : Nat}
    (hn : n ≤ instructions.length) :
    (((placeFrom offset instructions)[n]?).map Prod.fst).getD
        (offset + (codeOf instructions).length) =
      offset + (codeOf (instructions.take n)).length := by
  induction instructions generalizing offset n with
  | nil =>
      obtain rfl : n = 0 := Nat.le_zero.mp hn
      rfl
  | cons instruction rest ih =>
      have hlength := Instruction.length_encode (hformed instruction List.mem_cons_self)
      cases n with
      | zero => rfl
      | succ n =>
          have hrest := ih (offset + instruction.length)
            (fun i hi => hformed i (List.mem_cons_of_mem _ hi)) (Nat.le_of_succ_le_succ hn)
          rw [placeFrom, List.getElem?_cons_succ, codeOf_cons, List.take_succ_cons,
            codeOf_cons, List.length_append, List.length_append, hlength,
            ← Nat.add_assoc, ← Nat.add_assoc]
          exact hrest

/-- An instruction has at least the byte of its opcode. -/
theorem Instruction.length_pos (instruction : Instruction) : 0 < instruction.length :=
  Nat.lt_of_lt_of_le Nat.zero_lt_one (Nat.le_add_right 1 _)

/-- **Entries at offsets.**  A listing has an instruction at an offset exactly if the
code of the instructions before it ends there. -/
theorem lookup_placeFrom {instructions : List Instruction} {start offset : Nat}
    (hformed : ∀ instruction ∈ instructions, instruction.WellFormed)
    {instruction : Instruction} :
    (placeFrom start instructions).lookup offset = some instruction ↔
      ∃ front back, instructions = front ++ instruction :: back ∧
        offset = start + (codeOf front).length := by
  induction instructions generalizing start with
  | nil => simp [placeFrom]
  | cons first rest ih =>
      have hlength := Instruction.length_encode (hformed first List.mem_cons_self)
      have hpositive := first.length_pos
      have hrest := @ih (start + first.length)
        (fun i hi => hformed i (List.mem_cons_of_mem _ hi))
      rw [placeFrom, List.lookup_cons]
      constructor
      · intro h
        by_cases hoffset : offset = start
        · subst hoffset
          rw [beq_self_eq_true] at h
          obtain rfl := Option.some.inj h
          exact ⟨[], rest, rfl, rfl⟩
        · rw [beq_eq_false_iff_ne.mpr hoffset] at h
          obtain ⟨front, back, rfl, rfl⟩ := hrest.mp h
          refine ⟨first :: front, back, rfl, ?_⟩
          rw [codeOf_cons, List.length_append, hlength, Nat.add_assoc]
      · rintro ⟨front, back, hsplit, rfl⟩
        cases front with
        | nil =>
            obtain ⟨rfl, -⟩ := List.cons.inj hsplit
            rw [show start + (codeOf []).length = start from rfl, beq_self_eq_true]
        | cons other front =>
            obtain ⟨rfl, hback⟩ := List.cons.inj hsplit
            -- Code in front takes room, so the entry of `first` is passed by.
            have hbehind : start + (codeOf (first :: front)).length =
                start + first.length + (codeOf front).length := by
              rw [codeOf_cons, List.length_append, hlength, Nat.add_assoc]
            have hne : start + (codeOf (first :: front)).length ≠ start := by omega
            rw [beq_eq_false_iff_ne.mpr hne]
            exact hrest.mpr ⟨front, back, hback, hbehind⟩

end ByteMachine
