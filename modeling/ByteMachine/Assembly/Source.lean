import ByteMachine.Assembly.Encode
import ByteMachine.Text.Align
import ByteMachine.Text.Lines

/-!
# Source texts

A source text is assembled line by line.  The first line with a fault ends the
assembly, and the fault is reported with the number of its line and its column.

* `assemble` — the object code of a source text;
* `assembleImage` — the linked image of a source text;
* `diagnostic` — a report that shows the faulty line with a mark below it.
-/

namespace ByteMachine

/-- The object code of lines of which the first has the given number. -/
def assembleLines (number : Nat) : List (List Char) → Except Fault (List Element)
  | [] => .ok []
  | line :: rest => do
    let elements ← (encodeLineAt line).mapError fun fault =>
      Fault.assembly number fault.column fault.cause
    let more ← assembleLines (number + 1) rest
    return elements ++ more

/-- The object code of a source text. -/
def assemble (source : String) : Except Fault (List Element) :=
  assembleLines 1 (lines source.toList)

/-- The image of a source text. -/
def assembleImage (source : String) : Except Fault Image := do
  let elements ← assemble source
  link elements

/-- A line as it is shown in a diagnostic, without carriage returns at its
end. -/
def shownLine (line : List Char) : String :=
  String.ofList (line.reverse.dropWhile (· == '\r')).reverse

/-- A report on a fault in a source text: its message, where it is and, if the
text has such a line, the line with a mark below the column. -/
def diagnostic (file source : String) (line column : Nat) (message : String) :
    String :=
  let header := "error: " ++ message ++ "\n --> " ++ file ++ ":"
    ++ Decimal.ofNat line ++ ":" ++ Decimal.ofNat column ++ "\n"
  match (lines source.toList)[line - 1]? with
  | none => header
  | some text =>
    header ++ "     |\n"
      ++ alignRight 4 (Decimal.ofNat line) ++ " | " ++ shownLine text ++ "\n"
      ++ "     | " ++ spaces (column - 1) ++ "^\n"

end ByteMachine
