import ByteMachine.Proofs.Assembly.Location
import ByteMachine.Proofs.Assembly.Readback

/-!
# Lines without labels

A line can be encoded strictly, to bytes, or in view of labels, to elements.  The two read
the same tokens with the same look-up of the opcode, and differ in two places: what is in
front of a colon is the definition of a label or is in the way, and an identifier that names
no symbol is a reference or is refused.

* `NamesLabel` — an operand that differs;
* `encodeOperand_strict`, `encodeEach_strict`, `encodeTokens_strict` — one operand, operands
  in a row and a whole instruction, strictly and in view of labels;
* `exists_fault_of_colon` — a colon is neither a mnemonic nor an operand;
* `Fares`, `fares` — the three ways in which a line can fare;
* `strict_agrees` — both ways to encode a line.

What decides is the first operand that names a label.  In front of it both ways do the same,
and there the strict one ends; a fault in front of it ends both.
-/

namespace ByteMachine

/-- A text that stands for a label as an operand: an identifier that names no symbol. -/
structure NamesLabel (text : String) : Prop where
  identifier : isIdentifier text.toList = true
  noSymbol : Symbol.ofName? text = none

/-- Is an element a reference to a label? -/
def Element.isReference : Element → Bool
  | .reference _ => true
  | .byte _ | .label _ => false

/-- The elements of operands that are encoded one by one. -/
def encodeEach (allowLabels : Bool) (operands : List Token) :
    Except LineFault (List Element) :=
  operands.mapM fun token => token.blame (encodeOperand allowLabels token.text)

/-- An operand is the first one that labels matter to, and those in front of it are bytes. -/
structure FirstLabel (operands before : List Token) (label : Token) (after : List Token)
    (bytes : List UInt8) : Prop where
  split : operands = before ++ label :: after
  front : ∀ allowLabels, encodeEach allowLabels before = .ok (bytes.map .byte)
  namesLabel : NamesLabel label.text
  allowed : encodeOperand true label.text = .ok (.reference label.text)
  refused : encodeOperand false label.text = .error (.unknownSymbol label.text)

/-! ## Operands -/

/-- **One operand.**  Labels do not matter to an operand, which is encoded to a byte or
refused; or else it names a label, and is a reference or unknown. -/
theorem encodeOperand_strict (text : String) :
    (∃ result : Except Fault UInt8, ∀ allowLabels,
      encodeOperand allowLabels text = .byte <$> result) ∨
    (NamesLabel text ∧ encodeOperand true text = .ok (.reference text) ∧
      encodeOperand false text = .error (.unknownSymbol text)) := by
  by_cases hnumeral : Decimal.isNumeral text.toList
  · refine .inl ⟨encodeImmediate text, fun allowLabels => ?_⟩
    simp [encodeOperand, hnumeral]
  by_cases hquoted : isQuoted text
  · refine .inl ⟨encodeCharLiteral text, fun allowLabels => ?_⟩
    simp [encodeOperand, hnumeral, hquoted]
  cases hname : Symbol.ofName? text with
  | some s =>
      refine .inl ⟨.ok s.index, fun allowLabels => ?_⟩
      simp only [encodeOperand, hnumeral, hquoted, hname]
      rfl
  | none =>
      by_cases hident : isIdentifier text.toList
      · refine .inr ⟨⟨hident, hname⟩, ?_, ?_⟩ <;>
          simp only [encodeOperand, hnumeral, hquoted, hname, hident] <;> rfl
      · refine .inl ⟨.error (.invalidOperand text), fun allowLabels => ?_⟩
        simp only [encodeOperand, hnumeral, hquoted, hname, hident]
        rfl

theorem encodeEach_cons (allowLabels : Bool) (token : Token) (rest : List Token) :
    encodeEach allowLabels (token :: rest) = (do
      let element ← token.blame (encodeOperand allowLabels token.text)
      let elements ← encodeEach allowLabels rest
      return element :: elements) :=
  List.mapM_cons

theorem encodeEach_append (allowLabels : Bool) (front back : List Token) :
    encodeEach allowLabels (front ++ back) = (do
      let elements ← encodeEach allowLabels front
      let more ← encodeEach allowLabels back
      return elements ++ more) :=
  List.mapM_append

/-- Behind a byte the other operands are encoded. -/
theorem encodeEach_of_byte {allowLabels : Bool} {token : Token} {byte : UInt8}
    (h : encodeOperand allowLabels token.text = .ok (.byte byte)) (rest : List Token) :
    encodeEach allowLabels (token :: rest) =
      (.byte byte :: ·) <$> encodeEach allowLabels rest := by
  rw [encodeEach_cons, h]
  rfl

/-- **Operands in a row.**  Labels do not matter to operands that are encoded one by one, or
there is a first operand that they matter to. -/
theorem encodeEach_strict (operands : List Token) :
    (∃ result : Except LineFault (List UInt8), ∀ allowLabels,
      encodeEach allowLabels operands = List.map .byte <$> result) ∨
    ∃ before label after bytes, FirstLabel operands before label after bytes := by
  induction operands with
  | nil => exact .inl ⟨.ok [], fun _ => rfl⟩
  | cons token rest ih =>
      rcases encodeOperand_strict token.text with
        ⟨result, hresult⟩ | ⟨hlabel, hallowed, hrefused⟩
      · cases result with
        | error fault =>
            refine .inl ⟨.error ⟨token.column, fault⟩, fun allowLabels => ?_⟩
            rw [encodeEach_cons, hresult]
            rfl
        | ok byte =>
            rcases ih with ⟨results, hresults⟩ | ⟨before, label, after, bytes, hfirst⟩
            · refine .inl ⟨(byte :: ·) <$> results, fun allowLabels => ?_⟩
              rw [encodeEach_of_byte (hresult allowLabels), hresults]
              cases results <;> rfl
            · refine .inr ⟨token :: before, label, after, byte :: bytes, ?_, ?_,
                hfirst.namesLabel, hfirst.allowed, hfirst.refused⟩
              · rw [hfirst.split, List.cons_append]
              · intro allowLabels
                rw [encodeEach_of_byte (hresult allowLabels), hfirst.front]
                rfl
      · exact .inr ⟨[], token, rest, [], rfl, fun _ => rfl, hlabel, hallowed, hrefused⟩

namespace FirstLabel

variable {operands before after : List Token} {label : Token} {bytes : List UInt8}

/-- Up to the first label the operands are encoded, whatever becomes of the label. -/
private theorem encodeEach_eq (h : FirstLabel operands before label after bytes)
    (allowLabels : Bool) :
    encodeEach allowLabels operands =
      (bytes.map .byte ++ ·) <$> encodeEach allowLabels (label :: after) := by
  rw [h.split, encodeEach_append, h.front]
  rfl

/-- In view of labels the first one is a reference, and the others are encoded behind it. -/
theorem encodeEach_true (h : FirstLabel operands before label after bytes) :
    encodeEach true operands =
      (fun behind => bytes.map .byte ++ .reference label.text :: behind) <$>
        encodeEach true after := by
  rw [h.encodeEach_eq, encodeEach_cons, h.allowed]
  cases encodeEach true after <;> rfl

/-- Without labels the first one is refused. -/
theorem encodeEach_false (h : FirstLabel operands before label after bytes) :
    encodeEach false operands = .error ⟨label.column, .unknownSymbol label.text⟩ := by
  rw [h.encodeEach_eq, encodeEach_cons, h.refused]
  rfl

end FirstLabel

/-! ## Instructions -/

/-- **An instruction.**  Labels do not matter to it, or it has a first operand that they
matter to, behind an opcode that is looked up without regard to them. -/
theorem encodeTokens_strict (tokens : List Token) :
    (∃ result : Except LineFault (List UInt8), ∀ allowLabels,
      encodeTokens allowLabels tokens = List.map .byte <$> result) ∨
    ∃ (mnemonic : Token) (operands before : List Token) (label : Token) (after : List Token)
        (bytes : List UInt8) (opcode : Opcode),
      tokens = mnemonic :: operands ∧ FirstLabel operands before label after bytes ∧
        ∀ allowLabels, encodeTokens allowLabels tokens =
          (.byte opcode.byte :: ·) <$> encodeEach allowLabels operands := by
  cases tokens with
  | nil => exact .inl ⟨.ok [], fun _ => rfl⟩
  | cons mnemonic operands =>
      simp only [encodeTokens]
      split
      case h_2 => exact .inl ⟨.error _, fun _ => rfl⟩
      case h_1 shape opcode hshape hopcode =>
        by_cases hrr : shape = .rr
        · -- two symbols share a byte, whose two names are looked up in either way
          subst hrr
          obtain ⟨x, y, rfl⟩ := exists_pair (Shape.ofCode?_codeOfKinds.mp hshape)
          refine .inl ⟨do
            let first ← x.blame (Symbol.ofName x.text)
            let second ← y.blame (Symbol.ofName y.text)
            return [opcode.byte, Symbol.pack first second], fun allowLabels => ?_⟩
          rw [encodeOperands]
          cases x.blame (Symbol.ofName x.text) with
          | error fault => rfl
          | ok first => cases y.blame (Symbol.ofName y.text) <;> rfl
        · have heach : ∀ allowLabels, encodeOperands allowLabels shape operands =
              encodeEach allowLabels operands :=
            fun allowLabels => encodeOperands_of_ne hrr allowLabels operands
          simp only [heach]
          rcases encodeEach_strict operands with
            ⟨result, hresult⟩ | ⟨before, label, after, bytes, hfirst⟩
          · refine .inl ⟨(opcode.byte :: ·) <$> result, fun allowLabels => ?_⟩
            rw [hresult]
            cases result <;> rfl
          · exact .inr ⟨mnemonic, operands, before, label, after, bytes, opcode, rfl, hfirst,
              fun _ => rfl⟩

/-- No opcode has a colon in its name. -/
theorem Opcode.colon_not_mem_name (opcode : Opcode) : ':' ∉ opcode.name.toList := by
  revert opcode
  decide +kernel

/-- A colon is no operand: it is refused, and before that it does not count as a symbol. -/
theorem encodeOperand_colon (allowLabels : Bool) :
    encodeOperand allowLabels ":" = .error (.invalidOperand ":") ∧
      operandKind ":" = .immediate := by
  cases allowLabels <;> decide +kernel

/-- Operands with a colon among them are not encoded. -/
theorem not_encodeOperands_of_colon {allowLabels : Bool} {shape : Shape} {operands : List Token}
    {elements : List Element} {colon : Token}
    (hkinds : operands.map (fun token => operandKind token.text) = shape.kinds)
    (hcolon : colon ∈ operands) (htext : colon.text = ":") :
    encodeOperands allowLabels shape operands ≠ .ok elements := by
  intro hencode
  obtain ⟨hrefused, himmediate⟩ := encodeOperand_colon allowLabels
  rw [← htext] at hrefused himmediate
  by_cases hrr : shape = .rr
  · subst hrr
    have hkind : operandKind colon.text ∈ Shape.kinds .rr := hkinds ▸ List.mem_map_of_mem hcolon
    rw [himmediate] at hkind
    exact absurd hkind (by decide)
  · have heach : encodeEach allowLabels operands = .ok elements :=
      (encodeOperands_of_ne hrr allowLabels operands).symm.trans hencode
    obtain ⟨front, back, rfl⟩ := List.append_of_mem hcolon
    rw [encodeEach_append] at heach
    obtain ⟨first, -, heach⟩ := bind_eq_ok.mp heach
    obtain ⟨rest, hrest, -⟩ := bind_eq_ok.mp heach
    rw [encodeEach_cons, hrefused] at hrest
    cases hrest

/-- **A colon is no part of an instruction.**  Tokens with a colon among them are refused,
since it is neither a mnemonic nor an operand. -/
theorem exists_fault_of_colon {tokens : List Token} {colon : Token} (hcolon : colon ∈ tokens)
    (htext : colon.text = ":") (allowLabels : Bool) :
    ∃ fault, encodeTokens allowLabels tokens = .error fault := by
  cases tokens with
  | nil => cases hcolon
  | cons mnemonic operands =>
      unfold encodeTokens
      dsimp only
      split
      case h_2 => exact ⟨_, rfl⟩
      case h_1 shape opcode hshape hopcode =>
        rcases List.mem_cons.mp hcolon with rfl | hoperand
        · have hmem : ':' ∈ opcode.name.toList := by
            rw [Opcode.name_of_ofName? hopcode, htext, String.toList_append]
            exact List.mem_append_left _ (by decide)
          exact absurd hmem opcode.colon_not_mem_name
        · have hkinds := Shape.ofCode?_codeOfKinds.mp hshape
          cases hencoded : encodeOperands allowLabels shape operands with
          | error fault => exact ⟨fault, rfl⟩
          | ok elements =>
              exact absurd hencoded (not_encodeOperands_of_colon hkinds hoperand htext)

/-! ## Lines -/

theorem encodeTokenLine_of_no_colon {tokens : List Token}
    (h : ∀ token ∈ tokens, token.text ≠ ":") :
    encodeTokenLine tokens = encodeTokens true tokens := by
  have hnothing : (tokens.dropWhile fun token => token.text != ":") = [] :=
    List.dropWhile_eq_nil_iff.mpr fun token htoken => bne_iff_ne.mpr (h token htoken)
  rw [encodeTokenLine, hnothing]

/-- In front of a colon stands a label, or the line is refused. -/
theorem labelNames_of_colon {tokens : List Token} {elements : List Element} {colon : Token}
    (hcolon : colon ∈ tokens) (htext : colon.text = ":")
    (h : encodeTokenLine tokens = .ok elements) :
    ∃ name encoded, elements = .label name :: encoded := by
  unfold encodeTokenLine at h
  split at h
  case h_1 hnothing =>
    have hplain := List.dropWhile_eq_nil_iff.mp hnothing colon hcolon
    exact absurd htext (bne_iff_ne.mp hplain)
  case h_2 =>
    obtain ⟨name, -, h⟩ := bind_eq_ok.mp h
    obtain ⟨encoded, -, h⟩ := bind_eq_ok.mp h
    exact ⟨name, encoded, (pure_eq_ok.mp h).symm⟩

/-- How a line fares when it is encoded strictly and when it is encoded in view of
labels. -/
inductive Fares (line : String) : Prop
  /-- There are no labels on the line, or a fault in front of them. -/
  | alike (result : Except Fault (List UInt8)) (hstrict : encodeInstruction line = result)
      (hlabels : encodeLine line = List.map .byte <$> result) : Fares line
  /-- An operand names a label. -/
  | refers {mnemonic label : Token} {before after : List Token} {bytes : List UInt8}
      (htokens : tokenize line.toList = .ok (mnemonic :: (before ++ label :: after)))
      (hfront : ∀ token ∈ before, ∃ byte, encodeOperand true token.text = .ok (.byte byte))
      (hlabel : NamesLabel label.text)
      (hstrict : encodeInstruction line = .error (.unknownSymbol label.text))
      (hlabels : encodeLine line =
        ((fun behind => bytes.map .byte ++ .reference label.text :: behind) <$>
          encodeEach true after).mapError LineFault.cause) : Fares line
  /-- There is a colon on the line. -/
  | hasColon {tokens : List Token} {colon : Token} {fault : Fault}
      (htokens : tokenize line.toList = .ok tokens) (hcolon : colon ∈ tokens)
      (htext : colon.text = ":") (hstrict : encodeInstruction line = .error fault)
      (hlabels : ∀ elements, encodeLine line = .ok elements →
        ∃ name encoded, elements = .label name :: encoded) : Fares line

/-- A line of tokens is encoded in view of labels as its tokens are. -/
theorem encodeLine_of_tokenize {line : String} {tokens : List Token}
    (h : tokenize line.toList = .ok tokens) :
    encodeLine line = (encodeTokenLine tokens).mapError LineFault.cause := by
  rw [encodeLine, encodeLineAt, h]
  rfl

/-- A line of tokens is refused without labels as its tokens are. -/
theorem encodeInstruction_of_error {line : String} {tokens : List Token} {fault : LineFault}
    (h : tokenize line.toList = .ok tokens)
    (hencode : encodeTokens false tokens = .error fault) :
    encodeInstruction line = .error fault.cause := by
  rw [encodeInstruction, h]
  show ((encodeTokens false tokens).mapError LineFault.cause >>= _) = _
  rw [hencode]
  rfl

/-- Operands that are encoded to bytes are so one by one. -/
theorem exists_byte_of_encodeEach {operands : List Token} {bytes : List UInt8}
    (h : encodeEach true operands = .ok (bytes.map .byte)) :
    ∀ token ∈ operands, ∃ byte, encodeOperand true token.text = .ok (.byte byte) := by
  induction operands generalizing bytes with
  | nil => simp
  | cons token rest ih =>
      obtain ⟨element, helement, h⟩ := bind_eq_ok.mp ((encodeEach_cons ..).symm.trans h)
      obtain ⟨elements, hrest, h⟩ := bind_eq_ok.mp h
      obtain ⟨byte, more, rfl, rfl, rfl⟩ := List.map_eq_cons_iff.mp (pure_eq_ok.mp h).symm
      intro other hother
      rcases List.mem_cons.mp hother with rfl | hother
      · exact ⟨byte, mapError_eq_ok.mp helement⟩
      · exact ih hrest other hother

/-- **A line.**  Every line fares in one of these ways. -/
theorem fares (line : String) : Fares line := by
  cases htokens : tokenize line.toList with
  | error fault =>
      refine .alike (.error fault.cause) ?_ ?_
      · rw [encodeInstruction, htokens]
        rfl
      · rw [encodeLine, encodeLineAt, htokens]
        rfl
  | ok tokens =>
      have hline := encodeLine_of_tokenize htokens
      by_cases hcolon : ∃ colon ∈ tokens, colon.text = ":"
      · obtain ⟨colon, hmem, htext⟩ := hcolon
        obtain ⟨fault, hfault⟩ := exists_fault_of_colon hmem htext false
        refine .hasColon htokens hmem htext (encodeInstruction_of_error htokens hfault) ?_
        intro elements h
        rw [hline] at h
        exact labelNames_of_colon hmem htext (mapError_eq_ok.mp h)
      · have hplain : ∀ token ∈ tokens, token.text ≠ ":" :=
          fun token htoken htext => hcolon ⟨token, htoken, htext⟩
        rw [encodeTokenLine_of_no_colon hplain] at hline
        rcases encodeTokens_strict tokens with ⟨result, hresult⟩ |
          ⟨mnemonic, operands, before, label, after, bytes, opcode, rfl, hfirst, hencode⟩
        · rw [hresult] at hline
          cases result with
          | error fault =>
              exact .alike _ (encodeInstruction_of_error htokens (hresult false)) hline
          | ok bytes =>
              exact .alike _ (encodeInstruction_eq_ok.mpr ⟨tokens, htokens, hresult false⟩) hline
        · obtain rfl := hfirst.split
          have hrefused : encodeTokens false (mnemonic :: (before ++ label :: after)) =
              .error ⟨label.column, .unknownSymbol label.text⟩ := by
            rw [hencode, hfirst.encodeEach_false]
            rfl
          have hallowed : encodeLine line =
              ((fun behind => (opcode.byte :: bytes).map .byte ++
                  .reference label.text :: behind) <$>
                encodeEach true after).mapError LineFault.cause := by
            rw [hline, hencode, hfirst.encodeEach_true]
            cases encodeEach true after <;> rfl
          exact .refers htokens (exists_byte_of_encodeEach (hfirst.front true))
            hfirst.namesLabel (encodeInstruction_of_error htokens hrefused) hallowed

/-! ## Both ways to encode a line -/

/-- No byte is a reference. -/
theorem find?_isReference_map_byte (bytes : List UInt8) :
    (bytes.map Element.byte).find? Element.isReference = none := by
  simp [Element.isReference]

/-- Elements that are bytes define no label. -/
theorem labelNames_map_byte (bytes : List UInt8) : labelNames (bytes.map Element.byte) = [] := by
  induction bytes with
  | nil => rfl
  | cons byte rest ih => exact ih

/-- Bytes and no others are bytes again. -/
theorem map_byte_ne_append_reference (bytes front : List UInt8) (name : String)
    (behind : List Element) :
    bytes.map Element.byte ≠ front.map Element.byte ++ .reference name :: behind := by
  intro h
  have hmem : Element.reference name ∈ bytes.map Element.byte := h ▸ by simp
  simp at hmem

/-- On a line that is refused for one of its operands, an operand in front of that one names
a label, and all those in front of the label are bytes. -/
inductive LabelInFront (line : String) (cause : Fault) : String → Prop
  | intro {mnemonic label faulty : Token} {before between after : List Token}
      (htokens : tokenize line.toList =
        .ok (mnemonic :: (before ++ label :: (between ++ faulty :: after))))
      (hbefore : ∀ token ∈ before, ∃ byte, encodeOperand true token.text = .ok (.byte byte))
      (hlabel : NamesLabel label.text)
      (hbetween : ∀ token ∈ between, ∃ element, encodeOperand true token.text = .ok element)
      (hfaulty : encodeOperand true faulty.text = .error cause) :
      LabelInFront line cause label.text

namespace Fares

variable {line : String} {elements : List Element}

/-- Strictly or not, the bytes are the same. -/
theorem ok_iff (h : Fares line) (bytes : List UInt8) :
    encodeInstruction line = .ok bytes ↔ encodeLine line = .ok (bytes.map .byte) := by
  cases h with
  | alike result hstrict hlabels =>
      rw [hstrict, hlabels, map_eq_ok]
      constructor
      · intro h
        exact ⟨bytes, h, rfl⟩
      · intro h
        obtain ⟨other, hother, hsame⟩ := h
        rwa [List.map_injective_iff.mpr (fun _ _ => Element.byte.inj) hsame] at hother
  | @refers mnemonic label before after front htokens hfront hlabel hstrict hlabels =>
      rw [hstrict, hlabels, mapError_eq_ok, map_eq_ok]
      constructor
      · intro h
        cases h
      · intro h
        obtain ⟨behind, -, h⟩ := h
        exact absurd h.symm (map_byte_ne_append_reference bytes front label.text behind)
  | hasColon htokens hcolon htext hstrict hlabels =>
      rw [hstrict]
      constructor
      · intro h
        cases h
      · intro h
        obtain ⟨name, encoded, hname⟩ := hlabels _ h
        have hnone := labelNames_map_byte bytes
        rw [hname] at hnone
        cases hnone

/-- A line that refers to labels is refused strictly for the first of them. -/
theorem unknown_of_reference (h : Fares line) (helements : encodeLine line = .ok elements)
    (hnone : labelNames elements = []) {name : String}
    (hname : elements.find? Element.isReference = some (.reference name)) :
    encodeInstruction line = .error (.unknownSymbol name) := by
  cases h with
  | alike result hstrict hlabels =>
      rw [hlabels, map_eq_ok] at helements
      obtain ⟨bytes, -, rfl⟩ := helements
      rw [find?_isReference_map_byte] at hname
      cases hname
  | refers htokens hfront hlabel hstrict hlabels =>
      rw [hlabels, mapError_eq_ok, map_eq_ok] at helements
      obtain ⟨behind, -, rfl⟩ := helements
      rw [List.find?_append, find?_isReference_map_byte] at hname
      obtain rfl := Element.reference.inj (Option.some.inj hname)
      exact hstrict
  | hasColon htokens hcolon htext hstrict hlabels =>
      obtain ⟨label, encoded, rfl⟩ := hlabels _ helements
      cases hnone

/-- A line that defines a label is refused strictly. -/
theorem refused_of_label (h : Fares line) (helements : encodeLine line = .ok elements)
    (hsome : labelNames elements ≠ []) : ∃ fault, encodeInstruction line = .error fault := by
  cases h with
  | alike result hstrict hlabels =>
      rw [hlabels, map_eq_ok] at helements
      obtain ⟨bytes, -, rfl⟩ := helements
      exact absurd (labelNames_map_byte bytes) hsome
  | refers htokens hfront hlabel hstrict hlabels => exact ⟨_, hstrict⟩
  | hasColon htokens hcolon htext hstrict hlabels => exact ⟨_, hstrict⟩

/-- A line that is refused in view of labels is refused strictly, and the fault is the same
if there is neither a colon nor a label in front of the culprit. -/
theorem refused_of_error (h : Fares line) {cause : Fault}
    (herror : encodeLine line = .error cause) :
    ∃ fault, encodeInstruction line = .error fault ∧
      ((∀ tokens, tokenize line.toList = .ok tokens → ∀ token ∈ tokens, token.text ≠ ":") →
        fault = cause ∨ ∃ label, LabelInFront line cause label ∧ fault = .unknownSymbol label) := by
  cases h with
  | alike result hstrict hlabels =>
      rw [hlabels, map_eq_error] at herror
      exact ⟨cause, hstrict.trans herror, fun _ => .inl rfl⟩
  | @refers mnemonic label before after front htokens hfront hlabel hstrict hlabels =>
      refine ⟨_, hstrict, fun _ => .inr ⟨label.text, ?_, rfl⟩⟩
      rw [hlabels, mapError_eq_error] at herror
      obtain ⟨fault, herror, rfl⟩ := herror
      obtain ⟨between, faulty, rest, rfl, hbetween, hfaulty⟩ :=
        exists_first_of_mapM_eq_error (map_eq_error.mp herror)
      refine .intro htokens hfront hlabel ?_ (Token.blame_eq_error.mp hfaulty).2
      intro token htoken
      obtain ⟨element, helement⟩ := hbetween token htoken
      exact ⟨element, mapError_eq_ok.mp helement⟩
  | hasColon htokens hcolon htext hstrict hlabels =>
      exact ⟨_, hstrict, fun hplain => absurd htext (hplain _ htokens _ hcolon)⟩

end Fares

/-- What tokens are encoded to strictly is bytes. -/
theorem toByte_of_encodeTokens {tokens : List Token} {elements : List Element}
    (h : encodeTokens false tokens = .ok elements) :
    ∀ element ∈ elements, ∃ byte, element.toByte = .ok byte := by
  intro element helement
  rcases encodeTokens_strict tokens with ⟨result, hresult⟩ |
    ⟨mnemonic, operands, before, label, after, bytes, opcode, rfl, hfirst, hencode⟩
  · rw [hresult, map_eq_ok] at h
    obtain ⟨bytes, -, rfl⟩ := h
    obtain ⟨byte, -, rfl⟩ := List.mem_map.mp helement
    exact ⟨byte, rfl⟩
  · rw [hencode, hfirst.encodeEach_false] at h
    cases h

/-- **Strict encoding agrees with encoding in view of labels.**  A line is encoded strictly
to some bytes exactly if it is encoded in view of labels to just these bytes.  A line that
defines no label and refers to some is refused strictly, as the first of them is unknown.
A line that defines a label, or is refused in view of labels, is refused strictly; and
without a colon the fault is the same, unless an operand in front of the faulty one names a
label: then the first such label is unknown.  What the tokens of a line are encoded to
strictly is bytes, so no other element is left to be refused. -/
theorem strict_agrees (line : String) :
    (∀ bytes, encodeInstruction line = .ok bytes ↔ encodeLine line = .ok (bytes.map .byte)) ∧
    (∀ elements, encodeLine line = .ok elements → labelNames elements = [] →
      ∀ name, elements.find? Element.isReference = some (.reference name) →
        encodeInstruction line = .error (.unknownSymbol name)) ∧
    (∀ elements, encodeLine line = .ok elements → labelNames elements ≠ [] →
      ∃ fault, encodeInstruction line = .error fault) ∧
    (∀ cause, encodeLine line = .error cause →
      ∃ fault, encodeInstruction line = .error fault ∧
        ((∀ tokens, tokenize line.toList = .ok tokens → ∀ token ∈ tokens, token.text ≠ ":") →
          fault = cause ∨
            ∃ label, LabelInFront line cause label ∧ fault = .unknownSymbol label)) ∧
    ∀ tokens elements, tokenize line.toList = .ok tokens →
      encodeTokens false tokens = .ok elements →
        ∀ element ∈ elements, ∃ byte, element.toByte = .ok byte := by
  have h := fares line
  refine ⟨h.ok_iff, ?_, ?_, ?_, ?_⟩
  · intro elements helements hnone name hname
    exact h.unknown_of_reference helements hnone hname
  · intro elements helements hsome
    exact h.refused_of_label helements hsome
  · intro cause herror
    exact h.refused_of_error herror
  · intro tokens elements htokens helements
    exact toByte_of_encodeTokens helements

/-- A label behind a number, and a label in front of a number that is too large. -/
theorem strict_agrees_lost :
    (encodeLine "store 7 lost # later" = .ok [.byte 66, .byte 7, .reference "lost"] ∧
      encodeInstruction "store 7 lost # later" = .error (.unknownSymbol "lost")) ∧
    encodeLine "store lost, 300" = .error (.immediateOutOfRange "300") ∧
    ∃ fault, encodeInstruction "store lost, 300" = .error fault ∧
      (fault = .immediateOutOfRange "300" ∨
        ∃ label, NamesLabel label ∧ fault = .unknownSymbol label) := by
  have hfirst : encodeLine "store 7 lost # later" =
      .ok [.byte 66, .byte 7, .reference "lost"] := by decide +kernel
  have hsecond : encodeLine "store lost, 300" = .error (.immediateOutOfRange "300") := by
    decide +kernel
  have htokens : tokenize "store lost, 300".toList =
      .ok [⟨"store", 1⟩, ⟨"lost", 7⟩, ⟨"300", 13⟩] := by decide +kernel
  obtain ⟨-, hreference, -⟩ := strict_agrees "store 7 lost # later"
  obtain ⟨-, -, -, hrefused, -⟩ := strict_agrees "store lost, 300"
  obtain ⟨fault, hfault, hcause⟩ := hrefused _ hsecond
  refine ⟨⟨hfirst, hreference _ hfirst rfl "lost" rfl⟩, hsecond, fault, hfault, ?_⟩
  have hplain : ∀ tokens, tokenize "store lost, 300".toList = .ok tokens →
      ∀ token ∈ tokens, token.text ≠ ":" := by
    intro tokens h
    obtain rfl := Except.ok.inj (htokens.symm.trans h)
    decide
  rcases hcause hplain with hsame | ⟨label, ⟨-, -, hlabel, -, -⟩, hunknown⟩
  · exact .inl hsame
  · exact .inr ⟨_, hlabel, hunknown⟩

end ByteMachine
