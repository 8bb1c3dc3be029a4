import ByteMachine.Proofs.Assembly.Denotation

/-!
# Lines read back from their bytes

Encoding the instruction on a line and decoding the bytes should give the line
back: the mnemonic that stands there, with the operands that stand there.

* `readsBack_iff` — of the lines that are encoded, this holds for those that start
  with a mnemonic and for no others;
* `not_readsBack_addr` — lines that start with no mnemonic and are encoded all the
  same.

The opcode is looked up by the first token and the kinds of the others, joined in
one name, while the bytes are chosen by the kinds alone.  A first token that ends in
a letter of the shape therefore passes for a mnemonic with more operands than the
line has.
-/

namespace ByteMachine

/-- The bytes decode to an instruction that the line stands for.  No label stands
for anything here. -/
def ReadsBack (line : String) (bytes : List UInt8) : Prop :=
  ∃ tokens instruction, tokenize line.toList = .ok tokens ∧
    Instruction.decode bytes = .ok (some instruction) ∧
    Spells (fun _ => none) tokens instruction

/-- Elements that are all bytes are these bytes. -/
private theorem eq_map_byte_of_mapM {elements : List Element} {bytes : List UInt8}
    (h : elements.mapM Element.toByte = .ok bytes) : elements = bytes.map .byte := by
  rw [mapM_eq_ok] at h
  induction h with
  | nil => rfl
  | @cons element byte elements bytes hbyte hrest ih =>
      cases element with
      | byte value =>
          obtain rfl := Except.ok.inj hbyte
          rw [List.map_cons, ih]
      | label name | reference name => cases hbyte

/-- A line is encoded to bytes exactly if its tokens are. -/
theorem encodeInstruction_eq_ok {line : String} {bytes : List UInt8} :
    encodeInstruction line = .ok bytes ↔
      ∃ tokens, tokenize line.toList = .ok tokens ∧
        encodeTokens false tokens = .ok (bytes.map .byte) := by
  unfold encodeInstruction
  simp only [bind_eq_ok, mapError_eq_ok]
  constructor
  · rintro ⟨elements, ⟨tokens, htokens, helements⟩, hbytes⟩
    obtain rfl := eq_map_byte_of_mapM hbytes
    exact ⟨tokens, htokens, helements⟩
  · rintro ⟨tokens, htokens, helements⟩
    refine ⟨_, ⟨tokens, htokens, helements⟩, mapM_eq_ok.mpr ?_⟩
    rw [List.forall₂_map_left_iff, List.forall₂_same]
    exact fun byte _ => rfl

/-- **Lines that read back.**  A line that is encoded reads back from its bytes
exactly if it starts with a mnemonic. -/
theorem readsBack_iff {line : String} {bytes : List UInt8}
    (h : encodeInstruction line = .ok bytes) :
    ReadsBack line bytes ↔
      ∃ tokens, tokenize line.toList = .ok tokens ∧ StartsWithMnemonic tokens := by
  constructor
  · rintro ⟨tokens, instruction, htokens, -, hspells⟩
    refine ⟨tokens, htokens, instruction.operation, ?_⟩
    cases hspells with
    | intro hmnemonic _ => rw [List.map_cons, List.head?_cons, hmnemonic]
  · rintro ⟨tokens, htokens, hstart⟩
    obtain ⟨others, hothers, hencode⟩ := encodeInstruction_eq_ok.mp h
    obtain rfl : tokens = others := Except.ok.inj (htokens.symm.trans hothers)
    obtain ⟨instruction, hformed, rfl, hspells⟩ :=
      spells_of_encodeTokens hstart hencode (resolve_map_byte [] bytes)
    exact ⟨tokens, instruction, htokens,
      Instruction.decode_eq_some.mpr ⟨hformed, rfl⟩, hspells⟩

/-- A line with a number and a symbol reads back. -/
theorem readsBack_mov :
    encodeInstruction "mov -56 b # below zero" = .ok [77, 200, 1] ∧
      ReadsBack "mov -56 b # below zero" [77, 200, 1] := by
  have hencode : encodeInstruction "mov -56 b # below zero" = .ok [77, 200, 1] := by
    decide +kernel
  have htokens : tokenize "mov -56 b # below zero".toList =
      .ok [⟨"mov", 1⟩, ⟨"-56", 5⟩, ⟨"b", 9⟩] := by decide +kernel
  exact ⟨hencode, (readsBack_iff hencode).mpr ⟨_, htokens, .mov, rfl⟩⟩

/-- Lines that are encoded and do not read back: the bytes of the first one are cut
off, and those of the second one are another instruction, with an operand more. -/
theorem not_readsBack_addr :
    (encodeInstruction "addr" = .ok [24] ∧ Instruction.decode [24] = .ok none ∧
      ¬ ReadsBack "addr" [24]) ∧
    encodeInstruction "orr b" = .ok [54, 1] ∧
      (∃ instruction, Instruction.decode [54, 1] = .ok (some instruction) ∧
        instruction.text = "or a b") ∧
      ¬ ReadsBack "orr b" [54, 1] := by
  have hcut : Instruction.decode [24] = .ok none := by decide +kernel
  have hor : Instruction.decode [54, 1] = .ok
      (some ⟨⟨54, by decide⟩, [.symbol (.register .a), .symbol (.register .b)]⟩) := by
    decide +kernel
  have htokens : tokenize "orr b".toList = .ok [⟨"orr", 1⟩, ⟨"b", 5⟩] := by decide +kernel
  refine ⟨⟨by decide +kernel, hcut, ?_⟩, by decide +kernel, ⟨_, hor, by decide +kernel⟩, ?_⟩
  · rintro ⟨tokens, instruction, -, hdecode, -⟩
    rw [hcut] at hdecode
    cases hdecode
  · rintro ⟨tokens, instruction, hline, hdecode, hspells⟩
    obtain rfl := Except.ok.inj (htokens.symm.trans hline)
    obtain rfl := Option.some.inj (Except.ok.inj (hor.symm.trans hdecode))
    cases hspells with
    | intro hmnemonic _ => exact absurd hmnemonic (by decide)

end ByteMachine
