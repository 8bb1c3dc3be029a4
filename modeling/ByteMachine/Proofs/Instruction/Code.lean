import ByteMachine.Instruction.Basic
import ByteMachine.Proofs.Success

/-!
# The code of an instruction

`Instruction.decode` reads instructions.  This file gives the writing side:
`Instruction.encode` is the opcode's byte followed by the operand bytes, where
two symbols share one byte.  The two sides fit together exactly.

* `Operand.decode_eq_ok`, `Instruction.decode_eq_some` — what decodes is the
  code of an instruction whose operands have the kinds of its shape, and nothing
  else decodes;
* `Operand.decode_eq_error` — operand bytes of the right number fail to decode
  at the first symbol field that is no index;
* `Instruction.decode_unknown`, `Instruction.decode_short`,
  `Instruction.decode_full` — decoding by what has been read so far.
-/

namespace ByteMachine

/-! ## Symbols -/

namespace Symbol

/-- The indices number the list of all symbols. -/
private theorem toNat_index_get (i : Fin all.length) : all[i].index.toNat = i := by
  revert i
  decide

/-- An index leads to a symbol exactly if it is the symbol's own. -/
theorem ofIndex?_eq_some {byte : UInt8} {s : Symbol} :
    ofIndex? byte = some s ↔ byte = s.index := by
  constructor
  · intro h
    obtain ⟨hlt, rfl⟩ := List.getElem?_eq_some_iff.mp h
    exact UInt8.toNat_inj.mp (toNat_index_get ⟨byte.toNat, hlt⟩).symm
  · rintro rfl
    exact ofIndex?_index s

/-- There are twelve indices. -/
theorem ofIndex?_eq_none {byte : UInt8} : ofIndex? byte = none ↔ 12 ≤ byte := by
  simp [ofIndex?, all, Register.all, Flag.all, UInt8.le_iff_toNat_le]

/-- Reading an index succeeds exactly on the indices of symbols. -/
theorem ofIndex_eq_ok {byte : UInt8} {s : Symbol} :
    ofIndex byte = .ok s ↔ byte = s.index := by
  rw [← ofIndex?_eq_some]
  unfold ofIndex
  split <;> simp_all

/-- Reading an index fails exactly on those that are too large. -/
theorem ofIndex_eq_error {byte : UInt8} {fault : Fault} :
    ofIndex byte = .error fault ↔ 12 ≤ byte ∧ fault = .invalidRegisterIndex byte := by
  rw [← ofIndex?_eq_none]
  unfold ofIndex
  cases ofIndex? byte <;> simp [eq_comm]

/-- A byte is put together from its halves. -/
private theorem halves (byte : UInt8) : byte >>> 4 <<< 4 ||| byte &&& 0x0F = byte := by
  have h : ∀ n : Fin 256, UInt8.ofNat n >>> 4 <<< 4 ||| UInt8.ofNat n &&& 0x0F
      = UInt8.ofNat n := by decide +kernel
  simpa using h ⟨byte.toNat, byte.toNat_lt⟩

/-- A byte comes apart into two symbols exactly if it is their packed byte. -/
theorem unpack_eq_ok {byte : UInt8} {x y : Symbol} :
    unpack byte = .ok (x, y) ↔ byte = pack x y := by
  constructor
  · intro h
    obtain ⟨first, hfirst, h⟩ := bind_eq_ok.mp h
    obtain ⟨second, hsecond, h⟩ := bind_eq_ok.mp h
    obtain ⟨rfl, rfl⟩ := Prod.mk.inj (pure_eq_ok.mp h)
    rw [pack, ← ofIndex_eq_ok.mp hfirst, ← ofIndex_eq_ok.mp hsecond, halves]
  · rintro rfl
    exact unpack_pack x y

/-- A byte does not come apart into symbols exactly if one of its halves is no
index, and the high half is looked at first. -/
theorem unpack_eq_error {byte : UInt8} {fault : Fault} :
    unpack byte = .error fault ↔
      ∃ index, [byte >>> 4, byte &&& 0x0F].find? (12 ≤ ·) = some index ∧
        fault = .invalidRegisterIndex index := by
  unfold unpack
  rw [bind_eq_error, ofIndex_eq_error]
  cases hs : ofIndex (byte >>> 4) with
  | error cause =>
      have hhigh := (ofIndex_eq_error.mp hs).1
      simp [hhigh]
  | ok s =>
      have hhigh : ¬ (12 : UInt8) ≤ byte >>> 4 := by
        intro hhigh
        rw [ofIndex_eq_error.mpr ⟨hhigh, rfl⟩] at hs
        cases hs
      by_cases hlow : (12 : UInt8) ≤ byte &&& 0x0F <;>
        simp [hhigh, hlow, map_eq_error, ofIndex_eq_error]

end Symbol

/-! ## Operands -/

/-- A shape is known by the kinds of its operands. -/
theorem Shape.kinds_injective {x y : Shape} (h : x.kinds = y.kinds) : x = y := by
  cases x <;> cases y <;> first | rfl | cases h

/-- The fields of operand bytes that are indices of symbols, in order. -/
def Shape.symbolFields : Shape → List UInt8 → List UInt8
  | .r, [x] => [x]
  | .ir, [_, y] => [y]
  | .ri, [x, _] => [x]
  | .rr, [packed] => [packed >>> 4, packed &&& 0x0F]
  | _, _ => []

namespace Operand

/-- The kind of an operand. -/
def kind : Operand → OperandKind
  | immediate _ => .immediate
  | symbol _ => .symbolic

/-- The byte of an operand that shares it with no other one. -/
def byte : Operand → UInt8
  | immediate value => value.toUInt8
  | symbol s => s.index

/-- The operand bytes of an instruction. -/
def encode : List Operand → List UInt8
  | [symbol x, symbol y] => [Symbol.pack x y]
  | operands => operands.map byte

/-- Reading one byte of a kind gives the operand of that kind that it is the
byte of. -/
theorem ofByte_eq_ok {kind : OperandKind} {byte : UInt8} {operand : Operand} :
    ofByte kind byte = .ok operand ↔ operand.kind = kind ∧ byte = operand.byte := by
  cases kind with
  | immediate =>
      cases operand with
      | immediate value =>
          simp only [ofByte, Except.ok.injEq, immediate.injEq, Operand.kind, Operand.byte,
            true_and]
          exact ⟨fun h => h ▸ rfl, fun h => h ▸ rfl⟩
      | symbol s => simp [ofByte, Operand.kind]
  | symbolic =>
      cases operand with
      | immediate value => simp [ofByte, Operand.kind, map_eq_ok]
      | symbol s =>
          simp [ofByte, Operand.kind, Operand.byte, map_eq_ok, Symbol.ofIndex_eq_ok]

/-- Operands that are not two symbols have a byte each. -/
theorem encode_eq_map {operands : List Operand}
    (h : operands.map kind ≠ Shape.kinds .rr) : encode operands = operands.map byte := by
  unfold encode
  split
  · exact absurd rfl h
  · rfl

/-- Operands whose kinds are those of two symbols are two symbols. -/
theorem exists_symbols {operands : List Operand}
    (h : operands.map kind = Shape.kinds .rr) :
    ∃ x y, operands = [symbol x, symbol y] := by
  match operands, h with
  | [symbol x, symbol y], _ => exact ⟨x, y, rfl⟩

/-- The operand bytes are as many as the shape says. -/
theorem length_encode {shape : Shape} {operands : List Operand}
    (h : operands.map kind = shape.kinds) :
    (encode operands).length = shape.operandBytes := by
  by_cases hrr : shape = .rr
  · subst hrr
    obtain ⟨x, y, rfl⟩ := exists_symbols h
    rfl
  · rw [encode_eq_map (fun hsame => hrr (Shape.kinds_injective (h.symm.trans hsame))),
      List.length_map, ← List.length_map (f := kind), h]
    cases shape <;> first | rfl | exact absurd rfl hrr

/-- Operands of a shape are read back from their bytes. -/
theorem decode_encode {shape : Shape} {operands : List Operand}
    (h : operands.map kind = shape.kinds) :
    decode shape (encode operands) = .ok operands := by
  match shape, operands, h with
  | .bare, [], _ => rfl
  | .i, [immediate _], _ => rfl
  | .r, [symbol s], _ => simp [encode, decode, byte, ofByte, Symbol.ofIndex_index]
  | .ii, [immediate _, immediate _], _ => rfl
  | .ir, [immediate _, symbol s], _ =>
      simp [encode, decode, byte, ofByte, Symbol.ofIndex_index]; rfl
  | .ri, [symbol s, immediate _], _ =>
      simp [encode, decode, byte, ofByte, Symbol.ofIndex_index]; rfl
  | .rr, [symbol x, symbol y], _ =>
      simp [encode, decode, Symbol.unpack_pack]

/-- What decodes are operands of the shape, and the bytes are theirs. -/
private theorem eq_encode_of_decode {shape : Shape} {bytes : List UInt8}
    {operands : List Operand} (h : decode shape bytes = .ok operands) :
    operands.map kind = shape.kinds ∧ bytes = encode operands := by
  unfold decode at h
  split at h
  case h_1 =>
    obtain rfl := Except.ok.inj h
    exact ⟨rfl, rfl⟩
  case h_2 x | h_3 x =>
    obtain ⟨a, ha, h⟩ := bind_eq_ok.mp h
    obtain rfl := pure_eq_ok.mp h
    obtain ⟨hkind, rfl⟩ := ofByte_eq_ok.mp ha
    refine ⟨by simp [hkind, Shape.kinds], ?_⟩
    rw [encode_eq_map (by simp [Shape.kinds])]
    rfl
  case h_4 x y | h_5 x y | h_6 x y =>
    obtain ⟨a, ha, h⟩ := bind_eq_ok.mp h
    obtain ⟨b, hb, h⟩ := bind_eq_ok.mp h
    obtain rfl := pure_eq_ok.mp h
    obtain ⟨hkindA, rfl⟩ := ofByte_eq_ok.mp ha
    obtain ⟨hkindB, rfl⟩ := ofByte_eq_ok.mp hb
    refine ⟨by simp [hkindA, hkindB, Shape.kinds], ?_⟩
    rw [encode_eq_map (by simp [hkindA, hkindB, Shape.kinds])]
    rfl
  case h_7 packed =>
    obtain ⟨⟨x, y⟩, hunpack, h⟩ := bind_eq_ok.mp h
    obtain rfl := pure_eq_ok.mp h
    exact ⟨rfl, by rw [Symbol.unpack_eq_ok.mp hunpack]; rfl⟩
  case h_8 => cases h

/-- **Operand bytes have one reading.**  Bytes decode to operands exactly if the
operands have the kinds of the shape and the bytes are theirs. -/
theorem decode_eq_ok {shape : Shape} {bytes : List UInt8} {operands : List Operand} :
    decode shape bytes = .ok operands ↔
      operands.map kind = shape.kinds ∧ bytes = encode operands := by
  constructor
  · exact eq_encode_of_decode
  · rintro ⟨hkinds, rfl⟩
    exact decode_encode hkinds

/-- **The first bad field is blamed.**  Operand bytes of the right number fail to
decode exactly if one of their symbol fields is no index, and the fault names
the first such field. -/
theorem decode_eq_error {shape : Shape} {bytes : List UInt8} {fault : Fault}
    (hlength : bytes.length = shape.operandBytes) :
    decode shape bytes = .error fault ↔
      ∃ index, (shape.symbolFields bytes).find? (12 ≤ ·) = some index ∧
        fault = .invalidRegisterIndex index := by
  match shape, bytes, hlength with
  | .bare, [], _ | .i, [_], _ => simp [decode, ofByte, Shape.symbolFields]
  | .ii, [_, _], _ =>
      simp [decode, ofByte, Shape.symbolFields, bind_eq_error, pure, Except.pure]
  | .r, [_], _ | .ir, [_, _], _ | .ri, [_, _], _ =>
      simp [decode, ofByte, Shape.symbolFields, bind_eq_error, map_eq_error,
        Symbol.ofIndex_eq_error]
  | .rr, [packed], _ =>
      simp [decode, Shape.symbolFields, map_eq_error, Symbol.unpack_eq_error]

end Operand

/-! ## Instructions -/

/-- A byte announces an opcode exactly if it is the opcode's own. -/
theorem Opcode.ofByte?_eq_some {byte : UInt8} {opcode : Opcode} :
    ofByte? byte = some opcode ↔ byte = opcode.byte := by
  constructor
  · intro h
    unfold ofByte? at h
    split at h
    · obtain rfl := Option.some.inj h
      simp [Opcode.byte]
    · cases h
  · rintro rfl
    exact ofByte?_byte opcode

namespace Instruction

/-- The operands have the kinds of the opcode's shape. -/
def WellFormed (instruction : Instruction) : Prop :=
  instruction.operands.map Operand.kind = instruction.opcode.shape.kinds

/-- The bytes of an instruction. -/
def encode (instruction : Instruction) : List UInt8 :=
  instruction.opcode.byte :: Operand.encode instruction.operands

/-- The length of an instruction is the number of its bytes. -/
theorem length_encode {instruction : Instruction} (h : instruction.WellFormed) :
    instruction.encode.length = instruction.length := by
  rw [encode, List.length_cons, Operand.length_encode h, length, Nat.add_comm]

/-- A byte that is no opcode fails to decode, whatever follows. -/
theorem decode_unknown {byte : UInt8} (operandBytes : List UInt8)
    (h : Opcode.ofByte? byte = none) :
    decode (byte :: operandBytes) = .error (.invalidInstruction byte 0) := by
  simp [decode, Opcode.ofByte, h, bind, Except.bind]

/-- An opcode with too few operand bytes is incomplete. -/
theorem decode_short {byte : UInt8} {opcode : Opcode} {operandBytes : List UInt8}
    (h : Opcode.ofByte? byte = some opcode)
    (hshort : operandBytes.length < opcode.shape.operandBytes) :
    decode (byte :: operandBytes) = .ok none := by
  simp [decode, Opcode.ofByte, h, hshort, bind, Except.bind, pure, Except.pure]

/-- An opcode with all its operand bytes decodes as its operands do. -/
theorem decode_full {byte : UInt8} {opcode : Opcode} {operandBytes : List UInt8}
    (h : Opcode.ofByte? byte = some opcode)
    (hfull : operandBytes.length = opcode.shape.operandBytes) :
    decode (byte :: operandBytes) =
      (fun operands => some ⟨opcode, operands⟩) <$>
        Operand.decode opcode.shape operandBytes := by
  simp [decode, Opcode.ofByte, h, hfull, bind, Except.bind, Functor.map, Except.map,
    pure, Except.pure]

/-- An opcode with too many operand bytes does not decode. -/
theorem decode_long {byte : UInt8} {opcode : Opcode} {operandBytes : List UInt8}
    (h : Opcode.ofByte? byte = some opcode)
    (hlong : opcode.shape.operandBytes < operandBytes.length) :
    decode (byte :: operandBytes) =
      .error (.operandCountMismatch opcode.name opcode.shape.operandBytes
        operandBytes.length) := by
  simp [decode, Opcode.ofByte, h, hlong, Nat.not_lt_of_gt hlong, bind, Except.bind,
    throw, throwThe, MonadExceptOf.throw]

/-- What decodes is an instruction of its shape, and the bytes are its own. -/
private theorem eq_encode_of_decode {bytes : List UInt8} {instruction : Instruction}
    (h : decode bytes = .ok (some instruction)) :
    instruction.WellFormed ∧ bytes = instruction.encode := by
  cases bytes with
  | nil => cases h
  | cons byte operandBytes =>
      cases hopcode : Opcode.ofByte? byte with
      | none =>
          rw [decode_unknown operandBytes hopcode] at h
          cases h
      | some opcode =>
          rcases Nat.lt_trichotomy operandBytes.length opcode.shape.operandBytes with
            hshort | hfull | hlong
          · rw [decode_short hopcode hshort] at h
            cases h
          · rw [decode_full hopcode hfull] at h
            obtain ⟨operands, hoperands, h⟩ := map_eq_ok.mp h
            obtain rfl := Option.some.inj h
            obtain ⟨hkinds, rfl⟩ := Operand.decode_eq_ok.mp hoperands
            exact ⟨hkinds, by rw [encode, Opcode.ofByte?_eq_some.mp hopcode]⟩
          · rw [decode_long hopcode hlong] at h
            cases h

/-- **Instructions have one code.**  Bytes decode to an instruction exactly if its
operands have the kinds of its shape and the bytes are its own. -/
theorem decode_eq_some {bytes : List UInt8} {instruction : Instruction} :
    decode bytes = .ok (some instruction) ↔
      instruction.WellFormed ∧ bytes = instruction.encode := by
  constructor
  · exact eq_encode_of_decode
  · rintro ⟨hformed, rfl⟩
    rw [encode, decode_full (Opcode.ofByte?_byte _) (Operand.length_encode hformed),
      Operand.decode_encode hformed]
    rfl

end Instruction

end ByteMachine
