import ByteMachine.Proofs.Assembly.Linewise

/-!
# Line ends

A line may end in a line feed or in a carriage return and a line feed.  A text in which
every line feed gets a carriage return in front of it has the lines of the old text, of
which some have one more carriage return at their end: only the last of the carriage returns
in front of a line feed belongs to the line end, and the others to the line.

Such a carriage return changes nothing.  Outside of quotes it is a separator behind the last
token.  Inside of quotes it is quoted, but then the quote does not close on its line, and
what is blamed is the quote and not what stands behind it.

* `insertReturns`, `withReturns` — a text with a carriage return in front of every line feed;
* `lines_insertReturns` — its lines;
* `assembleLines_congr` — lines that are encoded alike;
* `assemble_withReturns` — line ends do not matter.
-/

namespace ByteMachine

/-- Put a carriage return in front of every line feed. -/
def insertReturns (text : List Char) : List Char :=
  text.flatMap fun c => if c = '\n' then ['\r', '\n'] else [c]

/-- A source text with a carriage return in front of every line feed. -/
def withReturns (source : String) : String :=
  String.ofList (insertReturns source.toList)

theorem insertReturns_of_no_lineFeed {line : List Char} (h : '\n' ∉ line) :
    insertReturns line = line := by
  have hsame : ∀ c ∈ line, (if c = '\n' then ['\r', '\n'] else [c]) = [c] := by
    intro c hc
    rw [if_neg (ne_of_mem_of_not_mem hc h)]
  rw [insertReturns, List.flatMap_congr hsame, List.flatMap_singleton']

/-- A line and its line feed get one carriage return, between the two. -/
theorem insertReturns_append {line : List Char} (h : '\n' ∉ line) (rest : List Char) :
    insertReturns (line ++ '\n' :: rest) = (line ++ ['\r']) ++ '\n' :: insertReturns rest := by
  have hline := insertReturns_of_no_lineFeed h
  rw [insertReturns] at hline ⊢
  rw [List.flatMap_append, hline, List.flatMap_cons, if_pos rfl, List.append_assoc]
  rfl

/-- A line keeps all its characters in front of a carriage return and a line feed. -/
private theorem dropReturn_append_return (line : List Char) :
    dropReturn (line ++ ['\r']) = line := by
  rw [dropReturn, if_pos List.getLast?_concat, List.dropLast_concat]

/-- A line has a carriage return at its end that the other one may lack. -/
def MayReturn (line returned : List Char) : Prop :=
  returned = line ∨ returned = line ++ ['\r']

/-- **Lines with carriage returns.**  The lines of the text with carriage returns are the
lines of the text, with one more carriage return at the ends of some. -/
theorem lines_insertReturns (text : List Char) :
    List.Forall₂ MayReturn (lines text) (lines (insertReturns text)) := by
  induction text using lineFeed_induction with
  | last line hline =>
      rw [insertReturns_of_no_lineFeed hline]
      exact List.forall₂_same.mpr fun _ _ => .inl rfl
  | more line rest hline ih =>
      have hreturned : '\n' ∉ line ++ ['\r'] := by simpa using hline
      rw [insertReturns_append hline, lines_append_lineFeed hline,
        lines_append_lineFeed hreturned, dropReturn_append_return]
      refine .cons ?_ ih
      -- The line has lost a carriage return of its own if there is one at its end.
      unfold dropReturn
      split
      case isTrue hreturn =>
        obtain ⟨front, rfl⟩ := List.getLast?_eq_some_iff.mp hreturn
        exact .inr (by rw [List.dropLast_concat])
      case isFalse => exact .inl rfl

/-- Lines that may differ in a carriage return are encoded alike. -/
theorem MayReturn.encodeLineAt_eq {line returned : List Char} (h : MayReturn line returned) :
    encodeLineAt returned = encodeLineAt line := by
  rcases h with rfl | rfl
  · rfl
  · rw [← encodeLineAt_dropReturn, dropReturn_append_return]

/-- Lines that are encoded alike, one by one, assemble alike. -/
theorem assembleLines_congr {first second : List (List Char)} (number : Nat)
    (h : List.Forall₂ (fun line other => encodeLineAt other = encodeLineAt line) first second) :
    assembleLines number second = assembleLines number first := by
  induction h generalizing number with
  | nil => rfl
  | cons hline _ ih => rw [assembleLines, assembleLines, hline, ih]

/-- **Line ends do not matter.**  With a carriage return in front of every line feed, a source
text has the same elements and the same image, or the same fault at the same place. -/
theorem assemble_withReturns (source : String) :
    assemble (withReturns source) = assemble source ∧
      assembleImage (withReturns source) = assembleImage source := by
  have hlines := (lines_insertReturns source.toList).imp fun _ _ h => h.encodeLineAt_eq
  have hassemble : assemble (withReturns source) = assemble source := by
    rw [assemble, withReturns, String.toList_ofList, assembleLines_congr 1 hlines]
    rfl
  refine ⟨hassemble, ?_⟩
  rw [assembleImage, assembleImage, hassemble]

/-- The first of two carriage returns is quoted, and the quote is blamed. -/
example : assemble "halt\r\nputc '\r\r\n" = .error (.assembly 2 6 .unterminatedLiteral) := by
  rfl

end ByteMachine
