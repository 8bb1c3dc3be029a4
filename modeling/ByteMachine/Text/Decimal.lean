/-!
# Decimal numerals

Numbers are written in base ten, without leading zeros and with a minus sign
in front of a negative number.  Reading is wider than writing: a numeral may
start with any number of zeros.

* `Decimal.ofNat`, `Decimal.ofInt` — the written form of a number;
* `Decimal.isDigits` — a non-empty run of ASCII digits;
* `Decimal.value` — the number that a run of digits denotes;
* `Decimal.isNumeral`, `Decimal.numeralValue` — the same with an optional
  minus sign in front.
-/

namespace ByteMachine

namespace Decimal

/-- The character of a digit below ten. -/
def digitChar (digit : Nat) : Char :=
  Char.ofNat (48 + digit)

/-- The digits of a number, most significant first. -/
def digits (n : Nat) : List Char :=
  if n < 10 then [digitChar n]
  else digits (n / 10) ++ [digitChar (n % 10)]
termination_by n
decreasing_by omega

/-- A natural number in decimal. -/
def ofNat (n : Nat) : String :=
  String.ofList (digits n)

/-- An integer in decimal, a negative one behind a minus sign. -/
def ofInt : Int → String
  | .ofNat n => ofNat n
  | .negSucc n => "-" ++ ofNat (n + 1)

/-- One of the ten ASCII digits. -/
def isDigit (c : Char) : Bool :=
  '0' ≤ c && c ≤ '9'

/-- A non-empty run of digits. -/
def isDigits (text : List Char) : Bool :=
  !text.isEmpty && text.all isDigit

/-- The number that a run of digits denotes, read from the left. -/
def value (text : List Char) : Nat :=
  text.foldl (fun n c => 10 * n + (c.toNat - 48)) 0

/-- A run of digits, possibly behind one minus sign. -/
def isNumeral : List Char → Bool
  | '-' :: rest => isDigits rest
  | text => isDigits text

/-- The integer that a signed run of digits denotes. -/
def numeralValue : List Char → Int
  | '-' :: rest => -(value rest : Int)
  | text => value text

end Decimal

end ByteMachine
