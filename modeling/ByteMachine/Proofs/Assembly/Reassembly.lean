import ByteMachine.Assembly.Source
import ByteMachine.Proofs.Assembly.Denotation
import ByteMachine.Proofs.Assembly.Words
import ByteMachine.Proofs.Instruction.Listing
import ByteMachine.Proofs.Text.Lines
import ByteMachine.Proofs.Text.Numeral

/-!
# Listings assemble again

The instructions of a listing, written one below the other, are a source text,
and it assembles to the bytes that were listed.

* `encodeTokens_of_texts` — the words of an instruction are encoded to its code;
* `encodeLineAt_text` — so is the line that the instruction is written as;
* `reassembly` — so are all lines of a listing.
-/

namespace ByteMachine

/-! ## Words of instructions -/

/-- The characters that instructions are written with, apart from spaces. -/
def isWordChar (c : Char) : Bool :=
  c == '-' || Decimal.isDigit c || c.isLower

/-- Such a character only extends the token it stands in. -/
theorem isPlain_of_isWordChar {c : Char} (h : isWordChar c = true) : IsPlain c :=
  isPlain_of_test (by decide) h

/-- Such a character ends no line. -/
theorem not_lineEnd_of_isWordChar {c : Char} (h : isWordChar c = true) :
    c ≠ '\n' ∧ c ≠ '\r' := by
  constructor <;> rintro rfl <;> exact absurd h (by decide)

/-- A text that is written with these characters, and not empty. -/
def isWordText (text : String) : Bool :=
  !text.toList.isEmpty && text.toList.all isWordChar

/-- Such a text is a word. -/
theorem isWord_of_isWordText {text : String} (h : isWordText text = true) :
    IsWord text.toList ∧ IsOneLine text.toList := by
  simp only [isWordText, Bool.and_eq_true, Bool.not_eq_true', List.isEmpty_eq_false_iff,
    List.all_eq_true] at h
  obtain ⟨hne, hall⟩ := h
  exact ⟨⟨hne, fun c hc => isPlain_of_isWordChar (hall c hc)⟩,
    fun c hc => not_lineEnd_of_isWordChar (hall c hc)⟩

theorem Operation.isWordText_mnemonic (operation : Operation) :
    isWordText operation.mnemonic = true := by
  cases operation with
  | unary u => cases u <;> decide
  | binary b => cases b <;> decide
  | jump j => cases j <;> decide
  | _ => decide

theorem Symbol.isWordText_name (s : Symbol) : isWordText s.name = true := by
  cases s with
  | register r => cases r <;> decide
  | flag f => cases f <;> decide

/-- Written operands are words. -/
theorem Operand.isWordText_text (operand : Operand) : isWordText operand.text = true := by
  cases operand with
  | immediate value =>
      simp only [isWordText, Bool.and_eq_true, Bool.not_eq_true', List.isEmpty_eq_false_iff,
        List.all_eq_true]
      refine ⟨?_, fun c hc => ?_⟩
      · intro hnil
        have hnumeral := Decimal.isNumeral_ofInt value.toInt
        rw [Operand.text] at hnil
        rw [hnil] at hnumeral
        exact absurd hnumeral (by decide)
      · rcases Decimal.mem_ofInt hc with rfl | hdigit
        · decide
        · simp [isWordChar, hdigit]
  | symbol s => exact s.isWordText_name

/-- The characters of an instruction's text: words with single spaces between
them. -/
theorem Instruction.toList_text (instruction : Instruction) :
    instruction.text.toList =
      instruction.operation.mnemonic.toList ++
        (instruction.operands.map (·.text.toList)).flatMap fun word => ' ' :: word := by
  rw [Instruction.text, String.toList_append, String.toList_join, List.flatMap_map,
    List.flatMap_map]
  simp

/-- The text of an instruction is a line, and not an empty one. -/
theorem Instruction.text_line (instruction : Instruction) :
    IsOneLine instruction.text.toList ∧ instruction.text.toList ≠ [] := by
  obtain ⟨⟨hne, -⟩, hmnemonic⟩ :=
    isWord_of_isWordText instruction.operation.isWordText_mnemonic
  rw [instruction.toList_text]
  refine ⟨?_, List.append_ne_nil_of_left_ne_nil hne _⟩
  intro c hc
  rcases List.mem_append.mp hc with hc | hc
  · exact hmnemonic c hc
  · simp only [List.mem_flatMap, List.mem_map, List.mem_cons] at hc
    obtain ⟨word, ⟨operand, -, rfl⟩, rfl | hc⟩ := hc
    · decide
    · exact (isWord_of_isWordText operand.isWordText_text).2 c hc

/-! ## Encoding what is written -/

/-- A written operand has the kind of the operand. -/
theorem operandKind_text (operand : Operand) : operandKind operand.text = operand.kind := by
  cases operand with
  | immediate value =>
      exact operandKind_of_none
        (ofName?_eq_none_of_form (.inl (Decimal.isNumeral_ofInt value.toInt)))
  | symbol s => exact operandKind_of_some (Symbol.ofName?_name s)

/-- A written operand is encoded to its byte. -/
theorem encodeOperand_text (allowLabels : Bool) (operand : Operand) :
    encodeOperand allowLabels operand.text = .ok (.byte operand.byte) := by
  cases operand with
  | immediate value =>
      have hnumeral := Decimal.isNumeral_ofInt value.toInt
      have hrange : -128 ≤ value.toInt ∧ value.toInt ≤ 127 :=
        ⟨value.le_toInt, Int.le_of_lt_add_one value.toInt_lt⟩
      simp only [encodeOperand, Operand.text, hnumeral, encodeImmediate,
        Decimal.numeralValue_ofInt, if_pos hrange, Int8.ofInt_toInt]
      rfl
  | symbol s =>
      obtain ⟨hnumeral, hquoted⟩ := s.form_of_name
      simp [encodeOperand, Operand.text, hnumeral, hquoted, Symbol.ofName?_name]
      rfl

/-- Written operands are encoded one by one to their bytes. -/
private theorem mapM_encodeOperand_of_texts {allowLabels : Bool} {tokens : List Token}
    {operands : List Operand}
    (h : tokens.map Token.text = operands.map Operand.text) :
    (tokens.mapM fun token => token.blame (encodeOperand allowLabels token.text)) =
      .ok (operands.map fun operand => .byte operand.byte) := by
  rw [mapM_eq_ok]
  induction operands generalizing tokens with
  | nil =>
      rw [List.map_nil, List.map_eq_nil_iff] at h
      subst h
      exact .nil
  | cons operand operands ih =>
      obtain ⟨token, rest, rfl, htoken, hrest⟩ := List.map_eq_cons_iff.mp h
      refine .cons ?_ (ih hrest)
      rw [htoken]
      exact mapError_eq_ok.mpr (encodeOperand_text allowLabels operand)

/-- Written operands are encoded to the operand bytes. -/
private theorem encodeOperands_of_texts {allowLabels : Bool} {shape : Shape}
    {tokens : List Token} {operands : List Operand}
    (hkinds : operands.map Operand.kind = shape.kinds)
    (h : tokens.map Token.text = operands.map Operand.text) :
    encodeOperands allowLabels shape tokens =
      .ok ((Operand.encode operands).map .byte) := by
  by_cases hrr : shape = .rr
  · subst hrr
    obtain ⟨x, y, rfl⟩ := Operand.exists_symbols hkinds
    obtain ⟨first, rest, rfl, hfirst, hrest⟩ := List.map_eq_cons_iff.mp h
    obtain ⟨second, rest, rfl, hsecond, hnil⟩ := List.map_eq_cons_iff.mp hrest
    obtain rfl := List.map_eq_nil_iff.mp hnil
    have hx : Symbol.ofName first.text = .ok x := by
      rw [hfirst]
      exact Symbol.ofName_eq_ok.mpr (Symbol.ofName?_name x)
    have hy : Symbol.ofName second.text = .ok y := by
      rw [hsecond]
      exact Symbol.ofName_eq_ok.mpr (Symbol.ofName?_name y)
    exact bind_eq_ok.mpr ⟨x, mapError_eq_ok.mpr hx,
      bind_eq_ok.mpr ⟨y, mapError_eq_ok.mpr hy, rfl⟩⟩
  · have hne : operands.map Operand.kind ≠ Shape.kinds .rr :=
      fun hsame => hrr (Shape.kinds_injective (hkinds.symm.trans hsame))
    rw [encodeOperands_of_ne hrr, mapM_encodeOperand_of_texts h,
      Operand.encode_eq_map hne, List.map_map]
    rfl

/-- **Instructions are encoded as written.**  Tokens with the words of an
instruction are encoded to its code. -/
theorem encodeTokens_of_texts {allowLabels : Bool} {tokens : List Token}
    {instruction : Instruction} (hformed : instruction.WellFormed)
    (h : tokens.map Token.text =
      instruction.operation.mnemonic :: instruction.operands.map Operand.text) :
    encodeTokens allowLabels tokens = .ok (instruction.encode.map .byte) := by
  obtain ⟨mnemonic, operands, rfl, hmnemonic, hoperands⟩ := List.map_eq_cons_iff.mp h
  have hkinds : operands.map (fun token => operandKind token.text) =
      instruction.opcode.shape.kinds := by
    have htexts := congrArg (List.map operandKind) hoperands
    rw [List.map_map, List.map_map] at htexts
    rw [← hformed]
    simpa [Function.comp_def, operandKind_text] using htexts
  have hshape := Shape.ofCode?_codeOfKinds.mpr hkinds
  have hopcode : Opcode.ofName?
      (mnemonic.text ++ Shape.codeOfKinds (operands.map fun token => operandKind token.text)) =
        some instruction.opcode := by
    rw [hmnemonic, hkinds]
    exact Opcode.ofName?_eq_some.mpr ⟨rfl, rfl⟩
  simp only [encodeTokens, hshape, hopcode,
    encodeOperands_of_texts hformed hoperands]
  rfl

/-- Tokens that are words have no colon among them. -/
private theorem dropWhile_of_words {words : List (List Char)} {tokens : List Token}
    (hwords : ∀ word ∈ words, IsWord word)
    (h : tokens.map Token.text = words.map String.ofList) :
    (tokens.dropWhile fun token => token.text != ":") = [] := by
  rw [List.dropWhile_eq_nil_iff]
  intro token htoken
  have hmem := List.mem_map_of_mem (f := Token.text) htoken
  rw [h] at hmem
  obtain ⟨word, hword, htext⟩ := List.mem_map.mp hmem
  exact bne_iff_ne.mpr (htext ▸ (hwords word hword).ne_colon)

/-- The line that an instruction is written as is encoded to its code. -/
theorem encodeLineAt_text {instruction : Instruction} (hformed : instruction.WellFormed) :
    encodeLineAt instruction.text.toList = .ok (instruction.encode.map .byte) := by
  have hfirst := (isWord_of_isWordText instruction.operation.isWordText_mnemonic).1
  have hwords : ∀ word ∈ instruction.operands.map (·.text.toList), IsWord word := by
    intro word hword
    obtain ⟨operand, -, rfl⟩ := List.mem_map.mp hword
    exact (isWord_of_isWordText operand.isWordText_text).1
  obtain ⟨tokens, htokens, htexts⟩ := tokenize_words hfirst hwords
  have hnoColon := dropWhile_of_words (List.forall_mem_cons.mpr ⟨hfirst, hwords⟩) htexts
  rw [encodeLineAt, instruction.toList_text, htokens]
  show encodeTokenLine tokens = _
  rw [encodeTokenLine, hnoColon]
  refine encodeTokens_of_texts hformed ?_
  rw [htexts]
  simp [String.ofList_toList]

/-! ## Listings -/

/-- The instructions of a listing as a source text, one in each line. -/
def sourceOf (listing : List (Nat × Instruction)) : String :=
  "\n".intercalate (listing.map fun entry => entry.2.text)

/-- Lines with one written instruction each assemble to the code of the
instructions. -/
private theorem assembleLines_texts {instructions : List Instruction}
    (hformed : ∀ instruction ∈ instructions, instruction.WellFormed) (number : Nat) :
    assembleLines number (instructions.map (·.text.toList)) =
      .ok ((codeOf instructions).map .byte) := by
  induction instructions generalizing number with
  | nil => rfl
  | cons instruction instructions ih =>
      have hline := encodeLineAt_text (hformed instruction List.mem_cons_self)
      have hrest := ih (fun i hi => hformed i (List.mem_cons_of_mem _ hi)) (number + 1)
      rw [List.map_cons, assembleLines, hline, codeOf_cons, List.map_append]
      show (assembleLines (number + 1) _ >>= _) = _
      rw [hrest]
      rfl

/-- The lines of a listing's source text are the written instructions. -/
private theorem lines_sourceOf (listing : List (Nat × Instruction)) :
    lines (sourceOf listing).toList = (listing.map Prod.snd).map (·.text.toList) := by
  rw [sourceOf, String.toList_intercalate, List.map_map, List.map_map]
  refine lines_intercalate ?_
  intro text htext
  obtain ⟨entry, -, rfl⟩ := List.mem_map.mp htext
  exact entry.2.text_line

/-- **Listings assemble again.**  The source text of a listing assembles to the
bytes that were listed.  Its image is these bytes if they fit, and otherwise
linking reports how many there are. -/
theorem reassembly {bytes : List UInt8} {listing : List (Nat × Instruction)}
    (h : disassemble bytes = .ok listing) :
    assemble (sourceOf listing) = .ok (bytes.map .byte) ∧
      (∀ hfits : bytes.length ≤ memorySize,
        assembleImage (sourceOf listing) = .ok ⟨bytes, hfits⟩) ∧
      (memorySize < bytes.length →
        assembleImage (sourceOf listing) = .error (.programTooLarge bytes.length)) := by
  obtain ⟨instructions, hformed, rfl, rfl⟩ := disassemble_eq_ok.mp h
  have hassemble : assemble (sourceOf (placeFrom 0 instructions)) =
      .ok ((codeOf instructions).map .byte) := by
    rw [assemble, lines_sourceOf, map_snd_placeFrom]
    exact assembleLines_texts hformed 1
  have himage : assembleImage (sourceOf (placeFrom 0 instructions)) =
      Image.ofBytes (codeOf instructions) := by
    rw [assembleImage, hassemble]
    exact link_map_byte _
  refine ⟨hassemble, fun hfits => ?_, fun hlarge => ?_⟩
  · rw [himage, Image.ofBytes, dif_pos hfits]
  · rw [himage, Image.ofBytes, dif_neg (Nat.not_le_of_gt hlarge)]

/-- A loop with negative, symbolic and packed operands, and an image with one byte
too many. -/
theorem reassembly_loop :
    (∃ listing, disassemble [77, 200, 1, 29, 25, 83, 253, 0] = .ok listing ∧
      sourceOf listing = "mov -56 b\nadd b zf\njmp -3\nhalt" ∧
      assemble (sourceOf listing) =
        .ok ([77, 200, 1, 29, 25, 83, 253, 0].map Element.byte) ∧
      assembleImage (sourceOf listing) =
        .ok ⟨[77, 200, 1, 29, 25, 83, 253, 0], by decide⟩) ∧
    ∃ listing, disassemble (List.replicate 257 0) = .ok listing ∧
      assembleImage (sourceOf listing) = .error (.programTooLarge 257) := by
  have hloop : disassemble [77, 200, 1, 29, 25, 83, 253, 0] = .ok
      [(0, ⟨⟨77, by decide⟩, [.immediate (-56), .symbol (.register .b)]⟩),
        (3, ⟨⟨29, by decide⟩, [.symbol (.register .b), .symbol (.flag .zero)]⟩),
        (5, ⟨⟨83, by decide⟩, [.immediate (-3)]⟩), (7, ⟨⟨0, by decide⟩, []⟩)] := by
    decide +kernel
  have hhalts : disassemble (List.replicate 257 0) =
      .ok (placeFrom 0 (List.replicate 257 ⟨⟨0, by decide⟩, []⟩)) := by
    refine disassemble_eq_ok.mpr ⟨List.replicate 257 ⟨⟨0, by decide⟩, []⟩, ?_, ?_, rfl⟩
    · intro instruction hmem
      rw [List.eq_of_mem_replicate hmem]
      rfl
    · rw [codeOf, List.flatMap_replicate]
      exact (List.flatten_replicate_singleton).symm
  obtain ⟨hassemble, himage, -⟩ := reassembly hloop
  have hlarge := (reassembly hhalts).2.2
  rw [List.length_replicate] at hlarge
  exact ⟨⟨_, hloop, by decide +kernel, hassemble, himage (by decide)⟩, _, hhalts,
    hlarge (by decide)⟩

end ByteMachine
