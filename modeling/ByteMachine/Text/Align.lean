import ByteMachine.Text.Decimal

/-!
# Alignment in a column

Texts and numbers are set flush right or flush left in a column of a given
width.  A text that is wider than its column is left as it is.
-/

namespace ByteMachine

/-- `n` spaces. -/
def spaces (n : Nat) : String :=
  String.ofList (List.replicate n ' ')

/-- Flush right in a column of the given width. -/
def alignRight (width : Nat) (text : String) : String :=
  spaces (width - text.length) ++ text

/-- Flush left in a column of the given width. -/
def alignLeft (width : Nat) (text : String) : String :=
  text ++ spaces (width - text.length)

/-- A number, filled with zeros on the left to the given width. -/
def zeroPadded (width : Nat) (n : Nat) : String :=
  let digits := Decimal.digits n
  String.ofList (List.replicate (width - digits.length) '0' ++ digits)

end ByteMachine
