/-!
# Lines of a text

A line ends at a line feed, and one carriage return directly before that line
feed belongs to the line end.  A text that ends in a line feed has no empty
line after it, and the last line of a text without one keeps all its
characters.
-/

namespace ByteMachine

/-- The lines of a text, without their line ends. -/
def lines : List Char → List (List Char)
  | [] => []
  | '\n' :: rest => [] :: lines rest
  | '\r' :: '\n' :: rest => [] :: lines rest
  | c :: rest =>
    match lines rest with
    | [] => [[c]]
    | line :: more => (c :: line) :: more

end ByteMachine
