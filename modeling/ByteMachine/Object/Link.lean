import ByteMachine.Object.Image

/-!
# Object code and linking

Object code is a sequence of elements: bytes that are already known, label
definitions and label references.  A definition takes no room in the image; a
byte and a reference take one byte each.  The position of an element is the
number of bytes that the elements before it take.

`link` replaces every reference by the position of its label and drops the
definitions.  A label may be referenced before it is defined.
-/

namespace ByteMachine

/-- One item of object code. -/
inductive Element where
  /-- A byte of the image. -/
  | byte (value : UInt8)
  /-- The definition of a label at the position of the next byte. -/
  | label (name : String)
  /-- A byte that is the position of a label. -/
  | reference (name : String)
deriving DecidableEq, Repr

namespace Element

/-- The number of bytes that an element takes in the image. -/
def size : Element → Nat
  | byte _ => 1
  | label _ => 0
  | reference _ => 1

/-- An element in a listing of object code. -/
def text : Element → String
  | byte value => Decimal.ofNat value.toNat
  | label name => name ++ ":"
  | reference name => "@" ++ name

end Element

/-- The number of bytes that a sequence of elements takes. -/
def objectSize : List Element → Nat
  | [] => 0
  | element :: rest => element.size + objectSize rest

/-- Labels with their positions. -/
abbrev LabelTable := List (String × Nat)

/-- Add the labels of a sequence of elements that starts at `position` to a
table.  A label that is in the table already is defined twice. -/
def collectLabels (table : LabelTable) (position : Nat) :
    List Element → Except Fault LabelTable
  | [] => .ok table
  | .label name :: rest =>
    match table.lookup name with
    | some _ => .error (.duplicateLabel name)
    | none => collectLabels ((name, position) :: table) position rest
  | element :: rest => collectLabels table (position + element.size) rest

/-- The positions of all labels of a sequence of elements. -/
def labelTable (elements : List Element) : Except Fault LabelTable :=
  collectLabels [] 0 elements

/-- The byte that stands for a reference to a label. -/
def labelByte (table : LabelTable) (name : String) : Except Fault UInt8 :=
  match table.lookup name with
  | none => .error (.undefinedLabel name)
  | some position =>
    if position < 256 then .ok (UInt8.ofNat position)
    else .error (.labelOutOfRange name position)

/-- The bytes of a sequence of elements, given the positions of all labels. -/
def resolve (table : LabelTable) : List Element → Except Fault (List UInt8)
  | [] => .ok []
  | .byte value :: rest => return value :: (← resolve table rest)
  | .label _ :: rest => resolve table rest
  | .reference name :: rest => do
    let byte ← labelByte table name
    return byte :: (← resolve table rest)

/-- Turn object code into an image. -/
def link (elements : List Element) : Except Fault Image := do
  let table ← labelTable elements
  let bytes ← resolve table elements
  Image.ofBytes bytes

end ByteMachine
