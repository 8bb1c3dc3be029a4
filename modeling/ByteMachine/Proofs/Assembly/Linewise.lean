import ByteMachine.Proofs.Assembly.Location
import ByteMachine.Proofs.Text.Lines

/-!
# Assembly line by line

The lines of a source text are encoded one after another, and the first one with a fault
ends the assembly.  So a text that is put behind another one is assembled as it would be
alone, but for the numbers of its lines.  The line feed between the two texts can take a
carriage return from the end of the first one; nothing depends on it, since no token ends
at the end of a line that would not end there anyway.

* `Fault.moveDown` — a fault of a text that stands below other lines;
* `encodeLineAt_dropReturn` — a carriage return at the end of a line changes nothing;
* `assembleLines_append` — the lines of two texts with a line feed in between;
* `assemble_linewise` — how a source text is assembled, and what is reported.
-/

namespace ByteMachine

open String (utf8Len)

/-- A fault of a source text that stands below `count` lines of another one. -/
def Fault.moveDown (count : Nat) : Fault → Fault
  | .assembly line column cause => .assembly (line + count) column cause
  | fault => fault

/-! ## Single lines -/

theorem encodeLine_eq_ok {line : List Char} {part : List Element} :
    encodeLine (String.ofList line) = .ok part ↔ encodeLineAt line = .ok part := by
  rw [encodeLine, String.toList_ofList, mapError_eq_ok]

theorem encodeLine_eq_error {line : List Char} {cause : Fault} :
    encodeLine (String.ofList line) = .error cause ↔
      ∃ column, encodeLineAt line = .error ⟨column, cause⟩ := by
  rw [encodeLine, String.toList_ofList, mapError_eq_error]
  constructor
  · rintro ⟨fault, hfault, rfl⟩
    exact ⟨fault.column, hfault⟩
  · rintro ⟨column, hfault⟩
    exact ⟨⟨column, cause⟩, hfault, rfl⟩

/-- A carriage return at the end of a line changes nothing. -/
theorem encodeLineAt_dropReturn (line : List Char) :
    encodeLineAt (dropReturn line) = encodeLineAt line := by
  unfold dropReturn
  split
  case isTrue hreturn =>
    obtain ⟨front, rfl⟩ := List.getLast?_eq_some_iff.mp hreturn
    rw [List.dropLast_concat, encodeLineAt, encodeLineAt, tokenize, tokenize,
      scan_append_return]
  case isFalse => rfl

/-! ## Lines in a row -/

/-- **The first fault.**  Lines that do not assemble have a first line that is not
encoded, and its fault is reported with the number of the line. -/
theorem exists_of_assembleLines_eq_error {number : Nat} {lines : List (List Char)}
    {fault : Fault} (h : assembleLines number lines = .error fault) :
    ∃ front line back cause, lines = front ++ line :: back ∧
      (∀ other ∈ front, ∃ part, encodeLineAt other = .ok part) ∧
      encodeLineAt line = .error cause ∧
      fault = .assembly (number + front.length) cause.column cause.cause := by
  induction lines generalizing number with
  | nil => cases h
  | cons line rest ih =>
      rcases bind_eq_error.mp h with hline | ⟨part, hpart, h⟩
      · obtain ⟨cause, hcause, rfl⟩ := mapError_eq_error.mp hline
        exact ⟨[], line, rest, cause, rfl, by simp, hcause, rfl⟩
      rcases bind_eq_error.mp h with hrest | ⟨more, -, h⟩
      · obtain ⟨front, bad, back, cause, rfl, hfront, hbad, rfl⟩ := ih hrest
        refine ⟨line :: front, bad, back, cause, rfl, ?_, hbad, ?_⟩
        · intro other hother
          rcases List.mem_cons.mp hother with rfl | hother
          · exact ⟨part, mapError_eq_ok.mp hpart⟩
          · exact hfront other hother
        · rw [List.length_cons, Nat.add_assoc, Nat.add_comm 1]
      · cases h

/-- Lines further below assemble alike, and fail with faults further below. -/
theorem assembleLines_add (number count : Nat) (lines : List (List Char)) :
    assembleLines (number + count) lines =
      (assembleLines number lines).mapError (Fault.moveDown count) := by
  induction lines generalizing number with
  | nil => rfl
  | cons line rest ih =>
      have hrest := ih (number + 1)
      rw [Nat.add_right_comm] at hrest
      rw [assembleLines, assembleLines, hrest]
      cases encodeLineAt line with
      | error fault => rfl
      | ok part => cases assembleLines (number + 1) rest <;> rfl

/-- **Two texts.**  With a line feed in between, two texts are assembled one after the
other. -/
theorem assembleLines_append (number : Nat) (first next : List Char) :
    assembleLines number (lines (first ++ '\n' :: next)) = (do
      let elements ← assembleLines number (lines first)
      let more ← assembleLines (number + (first.count '\n' + 1)) (lines next)
      return elements ++ more) := by
  induction first using lineFeed_induction generalizing number with
  | last line hline =>
      have hcount : number + (line.count '\n' + 1) = number + 1 := by
        rw [List.count_eq_zero_of_not_mem hline]
      rw [lines_append_lineFeed hline, assembleLines, encodeLineAt_dropReturn, hcount]
      by_cases hempty : line = []
      · subst hempty
        rfl
      · have hend : assembleLines (number + 1) [] = pure [] := rfl
        rw [lines_of_no_lineFeed hline hempty, assembleLines, hend]
        simp only [bind_assoc, pure_bind, List.append_nil]
  | more line rest hline ih =>
      have hcount : number + ((line ++ '\n' :: rest).count '\n' + 1) =
          number + 1 + (rest.count '\n' + 1) := by
        rw [List.count_append, List.count_eq_zero_of_not_mem hline, List.count_cons_self]
        omega
      rw [List.append_assoc, List.cons_append, lines_append_lineFeed hline,
        lines_append_lineFeed hline, assembleLines, assembleLines, ih, hcount]
      simp only [bind_assoc, pure_bind, List.append_assoc]

/-! ## Source texts -/

/-- **Assembly line by line.**  A source text assembles exactly if every line is encoded,
and then to the elements of the lines in a row.  Otherwise the fault of the first line
that is not encoded is reported, with the number of the line and a column of it, where
what is at fault stands.  A text below another one is assembled after it, as it would be
alone but for the numbers of its lines. -/
theorem assemble_linewise (source : String) :
    (∀ elements, assemble source = .ok elements ↔
      ∃ parts, List.Forall₂ (fun line part => encodeLine (String.ofList line) = .ok part)
        (lines source.toList) parts ∧ elements = parts.flatten) ∧
    (∀ fault, assemble source = .error fault → ∃ front line back column cause,
      lines source.toList = front ++ line :: back ∧
      (∀ other ∈ front, ∃ part, encodeLine (String.ofList other) = .ok part) ∧
      encodeLine (String.ofList line) = .error cause ∧
      fault = .assembly (front.length + 1) column cause ∧
      1 ≤ column ∧ column ≤ utf8Len line ∧ FaultAt line column cause) ∧
    ∀ next, assemble (source ++ "\n" ++ next) = (do
      let elements ← assemble source
      let more ← (assemble next).mapError (Fault.moveDown (source.toList.count '\n' + 1))
      return elements ++ more) := by
  refine ⟨fun elements => ?_, fun fault h => ?_, fun next => ?_⟩
  · simp only [encodeLine_eq_ok]
    exact assembleLines_eq_ok
  · obtain ⟨front, line, back, cause, hlines, hfront, hline, rfl⟩ :=
      exists_of_assembleLines_eq_error h
    obtain ⟨hfirst, hlast, hfault⟩ := faultAt_of_encodeLineAt hline
    refine ⟨front, line, back, cause.column, cause.cause, hlines, ?_, ?_, ?_, hfirst, hlast,
      hfault⟩
    · simpa only [encodeLine_eq_ok] using hfront
    · exact encodeLine_eq_error.mpr ⟨cause.column, hline⟩
    · rw [Nat.add_comm]
  · have htext : (source ++ "\n" ++ next).toList = source.toList ++ '\n' :: next.toList := by
      simp
    rw [assemble, htext, assembleLines_append, assembleLines_add]
    rfl

/-- The operand is at fault, on the second line and behind the label. -/
example : assemble "halt\nx: mov 300, b" =
    .error (.assembly 2 8 (.immediateOutOfRange "300")) := by
  rfl

end ByteMachine
