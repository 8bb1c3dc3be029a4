import ByteMachine.Proofs.Assembly.Statement
import ByteMachine.Proofs.Engine.Image

/-!
# Jumps to labels

The engine takes an instruction that leaves the instruction pointer on its last byte for
one that does not jump.  A jump to the address of its own last byte would be lost that
way.  No label stands there: a label stands at the start of a line, and the two bytes of
a jump belong to one line.

* `addressOf` — the address of a line, by the sizes of the lines in front of it;
* `addressOf_ne_inside` — no line starts inside the code of another one;
* `exists_code_of_line` — the code of a line stands in the image at the line's address;
* `Engine.turn_of_jump` — a turn with a jump to any address;
* `jump_lands` — a jump to a label arrives at the label.
-/

namespace ByteMachine

/-! ## Addresses of lines -/

/-- The number of bytes that a statement takes in the image. -/
def Statement.size (statement : Statement) : Nat :=
  match statement.encode with
  | .ok elements => objectSize elements
  | .error _ => 0

theorem Statement.size_of_encode {statement : Statement} {elements : List Element}
    (h : statement.encode = .ok elements) : statement.size = objectSize elements := by
  rw [size, h]

/-- The address of a line: the number of bytes of the lines in front of it. -/
def addressOf : List Statement → Nat → Nat
  | [], _ => 0
  | _ :: _, 0 => 0
  | statement :: program, line + 1 => statement.size + addressOf program line

/-- A later line does not stand in front of an earlier one. -/
theorem addressOf_mono {program : List Statement} {line other : Nat} (h : line ≤ other) :
    addressOf program line ≤ addressOf program other := by
  induction program generalizing line other with
  | nil => exact Nat.le_refl 0
  | cons statement program ih =>
      cases line with
      | zero => exact Nat.zero_le _
      | succ line =>
          cases other with
          | zero => omega
          | succ other => exact Nat.add_le_add_left (ih (Nat.le_of_succ_le_succ h)) _

/-- The next line stands behind the code of the line. -/
theorem addressOf_succ {program : List Statement} {line : Nat} {statement : Statement}
    (h : program[line]? = some statement) :
    addressOf program (line + 1) = addressOf program line + statement.size := by
  induction program generalizing line with
  | nil => cases h
  | cons first program ih =>
      cases line with
      | zero =>
          obtain rfl := Option.some.inj h
          cases program <;> exact Nat.add_comm _ _
      | succ line =>
          rw [addressOf, addressOf, ih h, Nat.add_assoc]

/-- **Lines do not overlap.**  No line starts inside the code of another one. -/
theorem addressOf_ne_inside {program : List Statement} {line offset : Nat}
    {statement : Statement} (hline : program[line]? = some statement)
    (hpositive : 0 < offset) (hinside : offset < statement.size) (other : Nat) :
    addressOf program other ≠ addressOf program line + offset := by
  rcases Nat.lt_or_ge line other with hbehind | hbefore
  · have hnext : addressOf program (line + 1) ≤ addressOf program other :=
      addressOf_mono hbehind
    rw [addressOf_succ hline] at hnext
    omega
  · have hfront : addressOf program other ≤ addressOf program line :=
      addressOf_mono hbefore
    omega

/-- The address of a line is the size of the object code in front of it. -/
theorem addressOf_eq_objectSize {program : List Statement} {parts : List (List Element)}
    (h : List.Forall₂ (fun statement part => statement.encode = .ok part) program parts)
    (line : Nat) : addressOf program line = objectSize (parts.take line).flatten := by
  induction h generalizing line with
  | nil =>
      rw [List.take_nil]
      rfl
  | @cons statement part program parts hpart hrest ih =>
      cases line with
      | zero => rfl
      | succ line =>
          rw [addressOf, ih, Statement.size_of_encode hpart, List.take_succ_cons,
            List.flatten_cons, objectSize_append]

/-- **The code of a line.**  It stands in the image at the address of the line. -/
theorem exists_code_of_line {program : List Statement} {parts : List (List Element)}
    {table : LabelTable} {bytes : List UInt8}
    (hencode : List.Forall₂ (fun statement part => statement.encode = .ok part) program parts)
    (hresolve : resolve table parts.flatten = .ok bytes) {line : Nat} {statement : Statement}
    (hline : program[line]? = some statement) :
    ∃ part front own back, statement.encode = .ok part ∧ resolve table part = .ok own ∧
      bytes = front ++ (own ++ back) ∧ front.length = addressOf program line := by
  induction hencode generalizing line bytes with
  | nil => simp at hline
  | @cons first part program parts hpart hrest ih =>
      rw [List.flatten_cons] at hresolve
      obtain ⟨head, tail, hhead, htail, rfl⟩ := resolve_append.mp hresolve
      cases line with
      | zero =>
          obtain rfl := Option.some.inj hline
          exact ⟨part, [], head, tail, hpart, hhead, rfl, rfl⟩
      | succ line =>
          obtain ⟨own, front, code, back, hown, hcode, rfl, hfront⟩ := ih htail hline
          refine ⟨own, head ++ front, code, back, hown, hcode, ?_, ?_⟩
          · rw [List.append_assoc]
          · rw [List.length_append, hfront, length_of_resolve hhead, addressOf,
              Statement.size_of_encode hpart]

/-- **The place of a label.**  A label that is found stands at the address of the line
that defines it. -/
theorem exists_line_of_lookup {program : List Statement} {parts : List (List Element)}
    {table : LabelTable}
    (hencode : List.Forall₂ (fun statement part => statement.encode = .ok part) program parts)
    (htable : labelTable parts.flatten = .ok table) {name : String} {position : Nat}
    (h : table.lookup name = some position) :
    ∃ target, program.findIdx? (fun statement => statement.label == some name) =
        some target ∧ position = addressOf program target := by
  rw [lookup_of_labelTable htable, positionOf_flatten hencode, Option.map_eq_some_iff] at h
  obtain ⟨target, htarget, rfl⟩ := h
  exact ⟨target, htarget, (addressOf_eq_objectSize hencode target).symm⟩

/-! ## Operands that are labels -/

/-- An identifier is no number and no quoted literal. -/
theorem form_of_isIdentifier {text : List Char} (h : isIdentifier text = true) :
    Decimal.isNumeral text = false ∧ ∀ c, text ≠ [quote, c, quote] := by
  cases text with
  | nil => cases h
  | cons first rest =>
      have hstart : isIdentifierStart first = true := by
        rw [isIdentifier, Bool.and_eq_true] at h
        exact h.1
      constructor
      · unfold Decimal.isNumeral
        split
        case h_1 hminus =>
          obtain ⟨rfl, -⟩ := List.cons.inj hminus
          exact absurd hstart (by decide)
        case h_2 =>
          rw [Decimal.isDigits, List.all_cons, isDigit_of_isIdentifierStart hstart,
            Bool.false_and, Bool.and_false]
      · intro c hquoted
        obtain ⟨rfl, -⟩ := List.cons.inj hquoted
        exact absurd hstart (by decide)

/-- What the name of a label denotes is the offset of the label. -/
theorem exists_of_denotes_label {labels : String → Option Nat} {text : String}
    {operand : Operand} (hident : isIdentifier text.toList = true)
    (hname : Symbol.isName text = false) (h : Denotes labels text operand) :
    ∃ value, operand = .immediate value ∧ labels text = some value.toUInt8.toNat := by
  obtain ⟨hnumeral, hquoted⟩ := form_of_isIdentifier hident
  cases h with
  | symbol hsymbol => simp [Symbol.isName, hsymbol] at hname
  | decimal hform hvalue => simp [hnumeral] at hform
  | literal htext hvalue => exact absurd htext (hquoted _)
  | label hform hsymbol hlabel hvalue => exact ⟨_, rfl, by rw [hlabel, hvalue]⟩

/-- A statement with a mnemonic and a label encodes an instruction of two bytes, with the
operation and with the offset of the label. -/
theorem instruction_of_label {label : Option String} {mnemonic operand : Token}
    {operation : Operation} {part : List Element} {table : LabelTable} {bytes : List UInt8}
    (hmnemonic : mnemonic.text = operation.mnemonic)
    (hident : isIdentifier operand.text.toList = true)
    (hname : Symbol.isName operand.text = false)
    (hencode : (Statement.mk label [mnemonic, operand]).encode = .ok part)
    (hresolve : resolve table part = .ok bytes) :
    ∃ (instruction : Instruction) (value : Int8),
      instruction.WellFormed ∧ bytes = instruction.encode ∧ instruction.length = 2 ∧
        instruction.operation = operation ∧ instruction.operands = [.immediate value] ∧
        table.lookup operand.text = some value.toUInt8.toNat := by
  obtain ⟨encoded, hencoded, rfl⟩ := map_eq_ok.mp hencode
  have hrest : resolve table encoded = .ok bytes := by
    cases label <;> simpa [Statement.labelElements, resolve] using hresolve
  have hstart : StartsWithMnemonic [mnemonic, operand] := ⟨operation, by simp [hmnemonic]⟩
  obtain ⟨instruction, hformed, hbytes, hspells⟩ :=
    spells_of_encodeTokens hstart hencoded hrest
  cases hspells with
  | intro hword hoperands =>
      have hoperation : instruction.operation = operation := by
        have hfound := Operation.ofMnemonic?_mnemonic instruction.operation
        rw [← hword, hmnemonic, Operation.ofMnemonic?_mnemonic] at hfound
        exact (Option.some.inj hfound).symm
      generalize hdecoded : instruction.operands = decoded at hoperands
      obtain ⟨only, rest, hdenotes, hnone, rfl⟩ := List.forall₂_cons_left_iff.mp hoperands
      obtain rfl := List.forall₂_nil_left_iff.mp hnone
      obtain ⟨value, rfl, hlookup⟩ := exists_of_denotes_label hident hname hdenotes
      have hlength : instruction.length = 2 := by
        rw [← Instruction.length_encode hformed, Instruction.encode, hdecoded]
        rfl
      exact ⟨instruction, value, hformed, hbytes, hlength, hoperation, hdecoded, hlookup⟩

/-! ## Jumps -/

/-- Whether a jump jumps does not depend on the instruction pointer. -/
theorem Jump.taken_jumpTo (jump : Jump) (machine : Machine) (address : UInt8) :
    jump.taken (machine.jumpTo address) = jump.taken machine := by
  cases jump <;> rfl

variable {σ : Type}

/-- An instruction of more than one byte that is the code of a line does not end where a
line starts. -/
theorem Engine.ne_lastAddress_of_line {engine : Engine σ} {instruction : Instruction}
    {program : List Statement} {line : Nat} {statement : Statement}
    (hline : program[line]? = some statement) (hsize : statement.size = instruction.length)
    (hlong : 1 < instruction.length)
    (hroom : addressOf program line + instruction.length ≤ 256)
    (hip : engine.machine.ip.toNat = addressOf program line) {address : UInt8} {target : Nat}
    (haddress : address.toNat = addressOf program target) :
    address ≠ engine.lastAddress instruction.opcode := by
  intro hlast
  have hsame := congrArg UInt8.toNat hlast
  rw [haddress, Engine.toNat_lastAddress, hip] at hsame
  rw [Instruction.length] at hsize hlong hroom
  rw [Nat.mod_eq_of_lt (by omega)] at hsame
  exact addressOf_ne_inside hline (by omega) (by omega) target hsame

variable [Console σ]

/-- A jump moves the instruction pointer to its operand or does nothing. -/
theorem execute_jump (jump : Jump) (value : Int8) (session : Session σ) :
    execute (.jump jump) [.immediate value] session =
      .ok () { session with
        machine :=
          if jump.taken session.machine then session.machine.jumpTo value.toUInt8
          else session.machine } := by
  show (if jump.taken session.machine then _ else _ : Action σ Unit) session = _
  split
  · rfl
  · rfl

/-- **Jumps.**  A turn with a jump arrives at the operand if the jump is taken, and behind
the jump if it is not taken or leads to the jump's own last byte. -/
theorem Engine.turn_of_jump {engine : Engine σ} {instruction : Instruction} {jump : Jump}
    {value : Int8} (hdecode : engine.Decodes instruction)
    (hoperation : instruction.operation = .jump jump)
    (hoperands : instruction.operands = [.immediate value])
    (hallows : engine.budget.Allows) (events : Array Event) :
    (engine.turn events).verdict = .running ∧
      (engine.turn events).engine.machine.ip =
        if jump.taken engine.machine ∧ value.toUInt8 ≠ engine.lastAddress instruction.opcode
        then value.toUInt8 else engine.lastAddress instruction.opcode + 1 := by
  have hhalt : instruction.operation ≠ .halt := by
    rw [hoperation]
    exact Operation.noConfusion
  have htaken : jump.taken (engine.onLast instruction.opcode).session.machine =
      jump.taken engine.machine := Jump.taken_jumpTo _ _ _
  have hexecute := execute_jump jump value (engine.onLast instruction.opcode).session
  rw [← hoperation, ← hoperands, htaken] at hexecute
  by_cases hjumps : jump.taken engine.machine ∧
      value.toUInt8 ≠ engine.lastAddress instruction.opcode
  · obtain ⟨hcondition, htarget⟩ := hjumps
    rw [if_pos hcondition] at hexecute
    have hstep := Step.jumps hdecode hhalt hallows hexecute
      (fun hip => htarget ((Machine.ip_jumpTo _ _).symm.trans hip))
    obtain ⟨hverdict, hengine⟩ := turn_of_step hstep events
    rw [if_pos ⟨hcondition, htarget⟩, hengine]
    exact ⟨hverdict, Machine.ip_jumpTo _ _⟩
  · have hstays : (if jump.taken engine.machine
        then (engine.onLast instruction.opcode).session.machine.jumpTo value.toUInt8
        else (engine.onLast instruction.opcode).session.machine).ip =
          engine.lastAddress instruction.opcode := by
      split
      case isTrue hcondition =>
        rw [Machine.ip_jumpTo]
        by_contra htarget
        exact hjumps ⟨hcondition, htarget⟩
      case isFalse => exact Machine.ip_jumpTo _ _
    have hstep := Step.fallsThrough hdecode hhalt hallows hexecute hstays
    obtain ⟨hverdict, hengine⟩ := turn_of_step hstep events
    rw [if_neg hjumps, hengine]
    exact ⟨hverdict, Machine.ip_jumpTo _ _⟩

/-- **Jumps to labels land.**  A line of a source text that assembles, with a jump and a
label, has the jump at its address in the image, and the label is that of a line.  Wherever
an engine comes to the jump with both its bytes in memory and one more instruction allowed,
the turn ends at the address of the line with the label if the jump is taken, and behind
the jump if it is not. -/
theorem jump_lands {source : String} {image : Image} (h : assembleImage source = .ok image) :
    ∃ program, statements source = .ok program ∧
      ∀ line label mnemonic operand (jump : Jump),
        program[line]? = some ⟨label, [mnemonic, operand]⟩ →
        mnemonic.text = jump.mnemonic →
        isIdentifier operand.text.toList = true → Symbol.isName operand.text = false →
        (∃ opcode : Opcode, opcode.operation = .jump jump ∧
          image.bytes[addressOf program line]? = some opcode.byte) ∧
        ∃ target, program.findIdx? (fun statement => statement.label == some operand.text) =
            some target ∧
          ∀ (σ : Type) [Console σ] (engine : Engine σ) events,
            engine.machine.ip.toNat = addressOf program line →
            engine.machine.Holds image (addressOf program line) →
            engine.machine.Holds image (addressOf program line + 1) →
            engine.budget.Allows →
              (engine.turn events).verdict = .running ∧
                (engine.turn events).engine.machine.ip.toNat =
                  if jump.taken engine.machine then addressOf program target
                  else (addressOf program line + 2) % 256 := by
  obtain ⟨elements, helements, h⟩ := bind_eq_ok.mp h
  obtain ⟨table, htable, hresolve⟩ := link_eq_ok.mp h
  obtain ⟨program, parts, hprogram, hencode, rfl⟩ := exists_statements helements
  refine ⟨program, hprogram, ?_⟩
  intro line label mnemonic operand jump hline hmnemonic hident hname
  have hword : mnemonic.text = (Operation.jump jump).mnemonic := hmnemonic
  obtain ⟨part, front, own, back, hpart, hown, hbytes, hfront⟩ :=
    exists_code_of_line hencode hresolve hline
  obtain ⟨instruction, value, hformed, rfl, hlength, hoperation, hoperands, hlookup⟩ :=
    instruction_of_label hword hident hname hpart hown
  obtain ⟨target, htarget, hposition⟩ := exists_line_of_lookup hencode htable hlookup
  have hsize : (Statement.mk label [mnemonic, operand]).size = instruction.length := by
    rw [Statement.size_of_encode hpart, ← length_of_resolve hown,
      Instruction.length_encode hformed]
  have hroom : addressOf program line + instruction.length ≤ 256 := by
    have hfits : image.bytes.length ≤ 256 := image.fits
    rw [hbytes, List.length_append, List.length_append, hfront,
      Instruction.length_encode hformed] at hfits
    omega
  refine ⟨⟨instruction.opcode, hoperation, ?_⟩, target, htarget, ?_⟩
  · rw [hbytes, ← hfront, List.getElem?_append_right (Nat.le_refl _), Nat.sub_self]
    rfl
  · intro σ _ engine events hip hfirst hsecond hallows
    have hdecode : engine.Decodes instruction := by
      refine Engine.decodes_of_holds hformed hbytes (hip.trans hfront.symm) ?_
      intro k hk
      rw [hlength] at hk
      rw [hfront]
      obtain rfl | rfl : k = 0 ∨ k = 1 := by omega
      · exact hfirst
      · exact hsecond
    -- Only a jump to its own last byte is lost, and no line starts there.
    have hlands : value.toUInt8 ≠ engine.lastAddress instruction.opcode :=
      Engine.ne_lastAddress_of_line hline hsize (by omega) hroom hip hposition
    obtain ⟨hverdict, hend⟩ :=
      Engine.turn_of_jump hdecode hoperation hoperands hallows events
    refine ⟨hverdict, ?_⟩
    rw [hend]
    by_cases hcondition : jump.taken engine.machine
    · rw [if_pos ⟨hcondition, hlands⟩, if_pos hcondition, hposition]
    · rw [if_neg (fun both => hcondition both.1), if_neg hcondition,
        Engine.toNat_lastAddress_add_one, hip, hlength]

/-- A jump that is not taken, and one that is taken backwards. -/
theorem jump_lands_loop :
    let image : Image := ⟨[87, 4, 83, 0, 0], by decide⟩
    let engine := (Engine.start (Script.start [] none) ⟨false, none⟩).load image
    let next := (engine.turn #[]).engine
    assembleImage "loop: jz done\n jmp loop\ndone: halt" = .ok image ∧
      (engine.turn #[]).verdict = .running ∧ next.machine.ip.toNat = 2 ∧
      (next.turn #[]).verdict = .running ∧ (next.turn #[]).engine.machine.ip.toNat = 0 := by
  intro image engine next
  have himage : assembleImage "loop: jz done\n jmp loop\ndone: halt" = .ok image := by
    decide +kernel
  obtain ⟨program, hprogram, hjumps⟩ := jump_lands himage
  have hknown : statements "loop: jz done\n jmp loop\ndone: halt" =
      .ok [⟨some "loop", [⟨"jz", 7⟩, ⟨"done", 10⟩]⟩, ⟨none, [⟨"jmp", 2⟩, ⟨"loop", 6⟩]⟩,
        ⟨some "done", [⟨"halt", 7⟩]⟩] := by decide +kernel
  obtain rfl := Except.ok.inj (hprogram.symm.trans hknown)
  obtain ⟨-, done, hdone, hjz⟩ :=
    hjumps 0 (some "loop") ⟨"jz", 7⟩ ⟨"done", 10⟩ .jz rfl rfl (by decide) (by decide)
  obtain ⟨-, loop, hloop, hjmp⟩ :=
    hjumps 1 none ⟨"jmp", 2⟩ ⟨"loop", 6⟩ .jmp rfl rfl (by decide) (by decide)
  obtain rfl : 0 = loop := Option.some.inj hloop
  obtain ⟨hrunning, hbehind⟩ := hjz Script engine #[] (by decide +kernel)
    (by decide +kernel) (by decide +kernel) (fun _ hlimit => by cases hlimit)
  have hnone : next.budget.limit = none := by decide +kernel
  obtain ⟨hagain, hback⟩ := hjmp Script next #[] (by decide +kernel)
    (by decide +kernel) (by decide +kernel) (fun _ hlimit => by simp [hnone] at hlimit)
  rw [if_neg (by decide +kernel)] at hbehind
  exact ⟨himage, hrunning, hbehind.trans (by decide +kernel), hagain, hback⟩

end ByteMachine
