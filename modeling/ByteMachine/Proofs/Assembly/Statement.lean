import ByteMachine.Assembly.Source
import ByteMachine.Proofs.Assembly.Denotation

/-!
# Statements of a source text

Each line of a source text is a statement: an optional label and an optional
instruction.  A source text that assembles is a sequence of statements, and its
object code is that of the statements in a row.

* `statements` — the statements of a source text, one for each line;
* `exists_statements` — object code comes from statements;
* `positionOf_flatten` — a label is placed behind the code of the statements
  before its own;
* `labelNames_flatten` — the labels of object code are those of its statements.
-/

namespace ByteMachine

/-- A label that is defined, and the tokens of an instruction. -/
structure Statement where
  label : Option String
  instruction : List Token
deriving DecidableEq, Repr

namespace Statement

/-- The statement of a line: a first token with a colon behind it is a label. -/
def ofTokens : List Token → Statement
  | label :: colon :: rest =>
      if colon.text = ":" then ⟨some label.text, rest⟩ else ⟨none, label :: colon :: rest⟩
  | tokens => ⟨none, tokens⟩

/-- The elements of the label. -/
def labelElements (statement : Statement) : List Element :=
  statement.label.toList.map .label

/-- The elements of a statement. -/
def encode (statement : Statement) : Except LineFault (List Element) :=
  (statement.labelElements ++ ·) <$> encodeTokens true statement.instruction

/-- Does a statement hold an instruction? -/
def hasInstruction (statement : Statement) : Bool :=
  !statement.instruction.isEmpty

end Statement

/-- The statements of a source text, one for each line. -/
def statements (source : String) : Except LineFault (List Statement) :=
  (lines source.toList).mapM fun line => Statement.ofTokens <$> tokenize line

/-! ## Statements of lines -/

/-- A label has a name if it is the only token in front of the colon. -/
theorem eq_singleton_of_labelName {colon : Token} {before : List Token}
    {name : String} (h : labelName colon before = .ok name) :
    ∃ label : Token, before = [label] ∧ label.text = name := by
  unfold labelName at h
  split at h
  case h_1 => cases h
  case h_2 label =>
    split at h
    case isTrue => exact ⟨label, rfl, Except.ok.inj h⟩
    case isFalse => cases h
  case h_3 => cases h

/-- Without a colon all tokens belong to the instruction. -/
theorem Statement.ofTokens_of_no_colon {tokens : List Token}
    (h : ∀ token ∈ tokens, token.text ≠ ":") : Statement.ofTokens tokens = ⟨none, tokens⟩ := by
  match tokens with
  | [] | [_] => rfl
  | label :: colon :: rest =>
      have hcolon : colon.text ≠ ":" := h colon (by simp)
      rw [Statement.ofTokens, if_neg hcolon]

/-- A line is cut at its first colon. -/
theorem eq_append_of_dropWhile {tokens rest : List Token} {colon : Token}
    (h : (tokens.dropWhile fun token => token.text != ":") = colon :: rest) :
    tokens = (tokens.takeWhile fun token => token.text != ":") ++ colon :: rest ∧
      colon.text = ":" := by
  have hhead := List.head?_dropWhile_not (fun token : Token => token.text != ":") tokens
  rw [h] at hhead
  refine ⟨?_, by simpa using hhead⟩
  rw [← h]
  exact List.takeWhile_append_dropWhile.symm

/-- A line that is encoded is encoded as its statement. -/
theorem Statement.encode_ofTokens {tokens : List Token} {elements : List Element}
    (h : encodeTokenLine tokens = .ok elements) :
    (Statement.ofTokens tokens).encode = .ok elements := by
  unfold encodeTokenLine at h
  split at h
  case h_1 hnoColon =>
    rw [List.dropWhile_eq_nil_iff] at hnoColon
    have hstatement : Statement.ofTokens tokens = ⟨none, tokens⟩ :=
      Statement.ofTokens_of_no_colon fun token htoken =>
        bne_iff_ne.mp (hnoColon token htoken)
    rw [hstatement, Statement.encode, map_eq_ok]
    exact ⟨elements, h, rfl⟩
  case h_2 colon rest hcolon =>
    obtain ⟨name, hname, h⟩ := bind_eq_ok.mp h
    obtain ⟨encoded, hencoded, h⟩ := bind_eq_ok.mp h
    obtain rfl := pure_eq_ok.mp h
    obtain ⟨label, hbefore, rfl⟩ := eq_singleton_of_labelName hname
    obtain ⟨htokens, htext⟩ := eq_append_of_dropWhile hcolon
    rw [hbefore, List.singleton_append] at htokens
    rw [htokens, Statement.ofTokens, if_pos htext, Statement.encode, map_eq_ok]
    exact ⟨encoded, hencoded, rfl⟩

/-- Lines assemble exactly if all of them are encoded, and then to their elements in a
row. -/
theorem assembleLines_eq_ok {number : Nat} {lines : List (List Char)}
    {elements : List Element} :
    assembleLines number lines = .ok elements ↔
      ∃ parts, List.Forall₂ (fun line part => encodeLineAt line = .ok part) lines parts ∧
        elements = parts.flatten := by
  induction lines generalizing number elements with
  | nil =>
      constructor
      · intro h
        obtain rfl := Except.ok.inj h
        exact ⟨[], .nil, rfl⟩
      · rintro ⟨parts, hparts, rfl⟩
        cases hparts
        rfl
  | cons line rest ih =>
      constructor
      · intro h
        obtain ⟨part, hpart, h⟩ := bind_eq_ok.mp h
        obtain ⟨more, hmore, h⟩ := bind_eq_ok.mp h
        obtain rfl := pure_eq_ok.mp h
        obtain ⟨parts, hparts, rfl⟩ := ih.mp hmore
        exact ⟨part :: parts, .cons (mapError_eq_ok.mp hpart) hparts, rfl⟩
      · rintro ⟨parts, hparts, rfl⟩
        cases hparts with
        | cons hpart hparts =>
            refine bind_eq_ok.mpr ⟨_, mapError_eq_ok.mpr hpart, ?_⟩
            exact bind_eq_ok.mpr ⟨_, ih.mpr ⟨_, hparts, rfl⟩, rfl⟩

/-- **Object code comes from statements.**  A source text that assembles has
statements, and its object code is theirs in a row. -/
theorem exists_statements {source : String} {elements : List Element}
    (h : assemble source = .ok elements) :
    ∃ program parts, statements source = .ok program ∧
      List.Forall₂ (fun statement part => statement.encode = .ok part) program parts ∧
      elements = parts.flatten := by
  obtain ⟨parts, hparts, rfl⟩ := assembleLines_eq_ok.mp h
  suffices ∃ program,
      List.Forall₂ (fun line statement => Statement.ofTokens <$> tokenize line = .ok statement)
        (lines source.toList) program ∧
      List.Forall₂ (fun statement part => statement.encode = .ok part) program parts by
    obtain ⟨program, hprogram, hencode⟩ := this
    exact ⟨program, parts, mapM_eq_ok.mpr hprogram, hencode, rfl⟩
  clear h
  generalize lines source.toList = texts at hparts
  induction hparts with
  | nil => exact ⟨[], .nil, .nil⟩
  | cons hline hrest ih =>
      obtain ⟨tokens, htokens, hpart⟩ := bind_eq_ok.mp hline
      obtain ⟨program, hprogram, hencode⟩ := ih
      exact ⟨Statement.ofTokens tokens :: program,
        .cons (map_eq_ok.mpr ⟨tokens, htokens, rfl⟩) hprogram,
        .cons (Statement.encode_ofTokens hpart) hencode⟩

/-! ## Labels of statements -/

/-- Operands define no labels. -/
private theorem labelNames_of_encodeOperands {allowLabels : Bool} {shape : Shape}
    {operands : List Token} {elements : List Element}
    (hkinds : operands.map (fun token => operandKind token.text) = shape.kinds)
    (h : encodeOperands allowLabels shape operands = .ok elements) :
    labelNames elements = [] := by
  by_cases hrr : shape = .rr
  · subst hrr
    obtain ⟨x, y, rfl⟩ := exists_pair hkinds
    obtain ⟨first, -, h⟩ := bind_eq_ok.mp h
    obtain ⟨second, -, h⟩ := bind_eq_ok.mp h
    obtain rfl := pure_eq_ok.mp h
    rfl
  · rw [encodeOperands_of_ne hrr, mapM_eq_ok] at h
    clear hkinds
    induction h with
    | nil => rfl
    | cons hfirst hrest ih =>
        rcases encodeOperand_cases (mapError_eq_ok.mp hfirst) with
          ⟨-, byte, -, rfl⟩ | ⟨-, byte, -, rfl⟩ | ⟨s, -, rfl⟩ | ⟨-, -, rfl⟩ <;>
          exact ih

/-- Instructions define no labels. -/
theorem labelNames_of_encodeTokens {allowLabels : Bool} {tokens : List Token}
    {elements : List Element} (h : encodeTokens allowLabels tokens = .ok elements) :
    labelNames elements = [] := by
  unfold encodeTokens at h
  split at h
  case h_1 =>
    obtain rfl := Except.ok.inj h
    rfl
  case h_2 =>
    dsimp only at h
    split at h
    case h_1 shape opcode hshape hopcode =>
      obtain ⟨encoded, hencoded, h⟩ := bind_eq_ok.mp h
      obtain rfl := pure_eq_ok.mp h
      show labelNames encoded = []
      exact labelNames_of_encodeOperands (Shape.ofCode?_codeOfKinds.mp hshape) hencoded
    case h_2 => cases h

/-- A statement defines its own label and no other one. -/
theorem Statement.labelNames_encode {statement : Statement} {elements : List Element}
    (h : statement.encode = .ok elements) : labelNames elements = statement.label.toList := by
  obtain ⟨encoded, hencoded, rfl⟩ := map_eq_ok.mp h
  rw [labelNames_append, labelNames_of_encodeTokens hencoded, List.append_nil]
  cases hlabel : statement.label <;> simp [Statement.labelElements, hlabel, labelNames]

/-- A statement's label stands at its start. -/
theorem Statement.positionOf_encode {statement : Statement} {elements : List Element}
    (h : statement.encode = .ok elements) (name : String) :
    positionOf name elements = if statement.label = some name then some 0 else none := by
  obtain ⟨encoded, hencoded, rfl⟩ := map_eq_ok.mp h
  have hnone : positionOf name encoded = none := by
    rw [positionOf_eq_none, labelNames_of_encodeTokens hencoded]
    exact List.not_mem_nil
  rw [positionOf_append, hnone]
  cases hlabel : statement.label <;> simp [Statement.labelElements, hlabel, positionOf]

/-- The labels of object code are those of its statements. -/
theorem labelNames_flatten {program : List Statement} {parts : List (List Element)}
    (h : List.Forall₂ (fun statement part => statement.encode = .ok part) program parts) :
    labelNames parts.flatten = program.filterMap Statement.label := by
  induction h with
  | nil => rfl
  | @cons statement part program parts hpart hrest ih =>
      rw [List.flatten_cons, labelNames_append, ih, Statement.labelNames_encode hpart]
      cases hlabel : statement.label <;> simp [hlabel]

/-- **Places of labels.**  A label is placed behind the code of the statements
before its own. -/
theorem positionOf_flatten {program : List Statement} {parts : List (List Element)}
    (h : List.Forall₂ (fun statement part => statement.encode = .ok part) program parts)
    (name : String) :
    positionOf name parts.flatten =
      (program.findIdx? fun statement => statement.label == some name).map
        fun line => objectSize (parts.take line).flatten := by
  induction h with
  | nil => rfl
  | @cons statement part program parts hpart hrest ih =>
      rw [List.flatten_cons, positionOf_append, ih, Statement.positionOf_encode hpart,
        List.findIdx?_cons]
      by_cases hlabel : statement.label = some name
      · simp [hlabel, objectSize]
      · simp [hlabel, Function.comp_def, objectSize_append]

end ByteMachine
