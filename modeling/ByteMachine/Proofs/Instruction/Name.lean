import ByteMachine.Opcode
import Mathlib.Data.List.DropRight
import Mathlib.Data.List.Nodup

/-!
# Names of opcodes

The name of an opcode is a mnemonic followed by the letters of a shape, with
nothing in between.  Some mnemonics end in such a letter, so that a name could
in principle be cut in two ways.  What is left of a mnemonic without the letters
at its end still identifies the operation, and so a name that starts with a
mnemonic has one reading only.

* `mnemonic_append_code_injective` — mnemonic and shape are known from the name;
* `Opcode.ofName?_eq_some` — looking up a mnemonic with a shape finds the opcode
  of both, and finds nothing else.

A name that does not start with a mnemonic is not covered by this: the text
`addr` is the name of the opcode of `add` with one symbolic operand.
-/

namespace ByteMachine

/-! ## Shapes and their letters -/

/-- The letters determine the kinds. -/
theorem OperandKind.letter_injective : Function.Injective OperandKind.letter := by
  intro x y h
  cases x <;> cases y <;> first | rfl | cases h

namespace Shape

/-- The letters of kinds determine the kinds. -/
theorem codeOfKinds_injective {x y : List OperandKind}
    (h : codeOfKinds x = codeOfKinds y) : x = y := by
  have hletters := congrArg String.toList h
  simp only [codeOfKinds, String.toList_ofList] at hletters
  exact OperandKind.letter_injective.list_map hletters

/-- A code leads to a shape exactly if it is the shape's own. -/
theorem ofCode?_eq_some {code : String} {shape : Shape} :
    ofCode? code = some shape ↔ code = shape.code := by
  constructor
  · intro h
    have hfound := List.find?_some h
    exact (beq_iff_eq.mp hfound).symm
  · rintro rfl
    exact ofCode?_code shape

/-- The letters of kinds lead to a shape exactly if they are its kinds. -/
theorem ofCode?_codeOfKinds {kinds : List OperandKind} {shape : Shape} :
    ofCode? (codeOfKinds kinds) = some shape ↔ kinds = shape.kinds := by
  rw [ofCode?_eq_some]
  exact ⟨codeOfKinds_injective, congrArg codeOfKinds⟩

theorem code_injective {x y : Shape} (h : x.code = y.code) : x = y := by
  have hx := ofCode?_code x
  rw [h, ofCode?_code y] at hx
  exact (Option.some.inj hx).symm

end Shape

/-! ## Stems -/

/-- A letter that occurs in the codes of shapes. -/
def isKindLetter (c : Char) : Bool :=
  c == 'i' || c == 'r'

/-- A word without the letters of kinds at its end. -/
def stem (word : String) : List Char :=
  word.toList.rdropWhile isKindLetter

/-- A code consists of letters of kinds. -/
theorem isKindLetter_of_mem_code {shape : Shape} {c : Char}
    (h : c ∈ shape.code.toList) : isKindLetter c = true := by
  simp only [Shape.code, Shape.codeOfKinds, String.toList_ofList, List.mem_map] at h
  obtain ⟨kind, -, rfl⟩ := h
  cases kind <;> rfl

/-- The code at the end of a name does not belong to the stem. -/
theorem stem_append_code (word : String) (shape : Shape) :
    stem (word ++ shape.code) = stem word := by
  have hcode : ∀ c ∈ shape.code.toList.reverse, isKindLetter c = true := by
    intro c hc
    exact isKindLetter_of_mem_code (List.mem_reverse.mp hc)
  unfold stem List.rdropWhile
  rw [String.toList_append, List.reverse_append, List.dropWhile_append_of_pos hcode]

namespace Operation

/-- The operation whose mnemonic has a given stem, if there is one. -/
def ofStem? (letters : List Char) : Option Operation :=
  all.find? fun operation => stem operation.mnemonic == letters

/-- The stem of a mnemonic leads back to its operation. -/
theorem ofStem?_stem (operation : Operation) :
    ofStem? (stem operation.mnemonic) = some operation := by
  cases operation with
  | unary u => cases u <;> decide
  | binary b => cases b <;> decide
  | jump j => cases j <;> decide
  | _ => decide

/-- No two operations share a stem. -/
theorem stem_mnemonic_injective {x y : Operation}
    (h : stem x.mnemonic = stem y.mnemonic) : x = y := by
  have hx := ofStem?_stem x
  rw [h, ofStem?_stem y] at hx
  exact (Option.some.inj hx).symm

end Operation

/-- **Names with a mnemonic are unambiguous.**  A mnemonic followed by the code of
a shape determines the operation and the shape. -/
theorem mnemonic_append_code_injective {x y : Operation} {s t : Shape}
    (h : x.mnemonic ++ s.code = y.mnemonic ++ t.code) : x = y ∧ s = t := by
  have hstem := congrArg stem h
  rw [stem_append_code, stem_append_code] at hstem
  obtain rfl := Operation.stem_mnemonic_injective hstem
  have hcode : s.code.toList = t.code.toList := by
    have hlists := congrArg String.toList h
    rw [String.toList_append, String.toList_append] at hlists
    exact List.append_cancel_left hlists
  exact ⟨rfl, Shape.code_injective (String.toList_inj.mp hcode)⟩

/-! ## Look-up of opcodes -/

namespace Opcode

/-- No row of the instruction set occurs twice. -/
private theorem rows_nodup : instructionSet.toList.Nodup := by
  decide +kernel

/-- Operation and shape determine the opcode. -/
theorem eq_of_operation_of_shape {x y : Opcode} (hop : x.operation = y.operation)
    (hshape : x.shape = y.shape) : x = y := by
  have hrow : instructionSet.toList[x.val] = instructionSet.toList[y.val] :=
    Prod.ext hop hshape
  exact Fin.ext (rows_nodup.getElem_inj_iff.mp hrow)

/-- A name that is found is the name of the opcode. -/
theorem name_of_ofName? {name : String} {opcode : Opcode}
    (h : ofName? name = some opcode) : opcode.name = name := by
  have hfound := List.find?_some h
  exact beq_iff_eq.mp hfound

/-- **Look-up by mnemonic and shape.**  It finds the opcode that has both. -/
theorem ofName?_eq_some {operation : Operation} {shape : Shape} {opcode : Opcode} :
    ofName? (operation.mnemonic ++ shape.code) = some opcode ↔
      opcode.operation = operation ∧ opcode.shape = shape := by
  constructor
  · intro h
    exact mnemonic_append_code_injective (name_of_ofName? h)
  · rintro ⟨rfl, rfl⟩
    have hfound : (ofName? opcode.name).isSome := by
      rw [ofName?, List.find?_isSome]
      exact ⟨opcode, List.mem_finRange opcode, beq_self_eq_true _⟩
    obtain ⟨other, hother⟩ := Option.isSome_iff_exists.mp hfound
    obtain ⟨hop, hshape⟩ := mnemonic_append_code_injective (name_of_ofName? hother)
    rw [eq_of_operation_of_shape hop hshape] at hother
    exact hother

end Opcode

end ByteMachine
