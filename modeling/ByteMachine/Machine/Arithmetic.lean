import ByteMachine.Fault
import ByteMachine.Operation

/-!
# Eight-bit arithmetic

Arithmetic is done on exact integers and brought back into the eight-bit range
at the end.  A result above the range is reduced modulo 128 to a negative
value, and a result below it modulo 128 to a value that is not negative
(`normalize`).

Bitwise operations work on the eight bits of their operands.  Shifts take the
destination as an unsigned count: a left shift drops what leaves the byte, and
a right shift keeps the sign.
-/

namespace ByteMachine

/-- Bring a value above the range back into it. -/
def foldOverflow (x : Int) : Int :=
  if x < 128 then x else x % 128 - 128

/-- Bring a value below the range back into it. -/
def foldUnderflow (x : Int) : Int :=
  if -128 ≤ x then x else x % 128

/-- Bring any value into the eight-bit range. -/
def normalize (x : Int) : Int8 :=
  Int8.ofInt (foldOverflow (foldUnderflow x))

/-- The number of bits that are set in a byte. -/
def popcount (byte : UInt8) : Nat :=
  (List.range 8).countP fun i => byte.toBitVec.getLsbD i

/-- The number of bits above the highest bit that is set in a byte. -/
def leadingZeros (byte : UInt8) : Nat :=
  ((List.range 8).takeWhile fun i => !byte.toBitVec.getMsbD i).length

/-- The value of a unary operation. -/
def Unary.result (x : Int8) : Unary → Int8
  | .not => ~~~x
  | .neg => normalize (-x.toInt)
  | .popcount => Int8.ofNat (ByteMachine.popcount x.toUInt8)
  | .clz => Int8.ofNat (leadingZeros x.toUInt8)

/-- The number of bits in a word that is shifted. -/
def shiftWidth : Nat := 32

/-- Shift to the left by a count; a count of a whole word or more leaves
nothing. -/
def shiftLeft (x : Int8) (count : Nat) : Int8 :=
  if count < shiftWidth then Int8.ofInt (x.toInt <<< count) else 0

/-- Shift to the right by a count, keeping the sign; a count of a whole word or
more leaves only the sign. -/
def shiftRight (x : Int8) (count : Nat) : Int8 :=
  Int8.ofInt (x.toInt >>> min count (shiftWidth - 1))

/-- The value of a binary operation.  A difference, unlike everything else, has
the destination in front. -/
def Binary.result (source destination : Int8) : Binary → Except Fault Int8
  | .add => .ok (normalize (source.toInt + destination.toInt))
  | .sub => .ok (normalize (destination.toInt - source.toInt))
  | .mul => .ok (normalize (source.toInt * destination.toInt))
  | .div =>
    if destination = 0 then .error .divisionByZero
    else .ok (normalize (source.toInt.tdiv destination.toInt))
  | .mod =>
    if destination = 0 then .error .divisionByZero
    else .ok (normalize (source.toInt.tmod destination.toInt))
  | .or => .ok (source ||| destination)
  | .and => .ok (source &&& destination)
  | .xor => .ok (source ^^^ destination)
  | .shl => .ok (shiftLeft source destination.toUInt8.toNat)
  | .shr => .ok (shiftRight source destination.toUInt8.toNat)

end ByteMachine
