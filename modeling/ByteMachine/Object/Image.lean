import ByteMachine.Fault

/-!
# Images

An image is what is loaded into memory: a sequence of bytes that fits.
-/

namespace ByteMachine

/-- A sequence of bytes that fits in memory. -/
structure Image where
  bytes : List UInt8
  fits : bytes.length ≤ memorySize
deriving DecidableEq, Repr

namespace Image

/-- The image that consists of the given bytes, if they fit. -/
def ofBytes (bytes : List UInt8) : Except Fault Image :=
  if h : bytes.length ≤ memorySize then .ok ⟨bytes, h⟩
  else .error (.programTooLarge bytes.length)

/-- The number of bytes. -/
def size (image : Image) : Nat :=
  image.bytes.length

end Image

end ByteMachine
