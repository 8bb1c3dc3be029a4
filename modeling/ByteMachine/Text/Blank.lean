/-!
# White space

The characters with the Unicode property `White_Space`, as closed ranges of
code points, and the removal of such characters from both ends of a text.
-/

namespace ByteMachine

namespace Blank

/-- The code points with the property `White_Space`, as closed ranges in
ascending order. -/
def ranges : List (Nat × Nat) :=
  [(0x09, 0x0D), (0x20, 0x20), (0x85, 0x85), (0xA0, 0xA0), (0x1680, 0x1680),
   (0x2000, 0x200A), (0x2028, 0x2029), (0x202F, 0x202F), (0x205F, 0x205F),
   (0x3000, 0x3000)]

/-- Does a character count as white space? -/
def isBlank (c : Char) : Bool :=
  ranges.any fun (first, last) => first ≤ c.toNat && c.toNat ≤ last

/-- Drop white space at the start of a text. -/
def trimStart (text : List Char) : List Char :=
  text.dropWhile isBlank

/-- Drop white space at both ends of a text. -/
def trim (text : List Char) : List Char :=
  (trimStart (trimStart text).reverse).reverse

end Blank

end ByteMachine
