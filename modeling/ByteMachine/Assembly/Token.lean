import ByteMachine.Fault

/-!
# Tokens of a line

A line of a program is cut into tokens from left to right:

* `#` starts a comment, which runs to the end of the line;
* spaces, tabs, carriage returns and commas separate tokens;
* `:` is a token of its own;
* a quote takes the next character with it, whatever that is, and then
  everything up to the next quote, so a separator between quotes separates
  nothing;
* every other character extends the token that is being read.

A token keeps the column at which it starts.  Columns count the bytes of the
line in UTF-8, and the first column is 1.
-/

namespace ByteMachine

/-- A piece of a line and the column at which it starts. -/
structure Token where
  text : String
  column : Nat
deriving DecidableEq, Repr

/-- A fault at a column of a line. -/
structure LineFault where
  column : Nat
  cause : Fault
deriving DecidableEq, Repr

/-- Blame a failure on a token. -/
def Token.blame {α : Type} (token : Token) (result : Except Fault α) :
    Except LineFault α :=
  result.mapError fun cause => ⟨token.column, cause⟩

/-- The character that opens and closes a quoted literal. -/
def quote : Char := '\''

/-- The characters that only separate tokens. -/
def isSeparator (c : Char) : Bool :=
  c == ' ' || c == '\t' || c == ',' || c == '\r'

/-- Where a scan stands with respect to quotes. -/
inductive Quoting where
  /-- Outside of any quotes. -/
  | outside
  /-- Directly behind the opening quote at a column. -/
  | opened (column : Nat)
  /-- Further behind the opening quote at a column. -/
  | inside (column : Nat)
deriving DecidableEq, Repr

/-- The part of a token that has been read, last character first. -/
structure PartialToken where
  column : Nat
  reversed : List Char

namespace PartialToken

/-- Take one more character, which starts a token if none is being read. -/
def extend (part : Option PartialToken) (column : Nat) (c : Char) :
    Option PartialToken :=
  match part with
  | none => some ⟨column, [c]⟩
  | some part => some { part with reversed := c :: part.reversed }

/-- End the token that is being read, if there is one. -/
def finish (part : Option PartialToken) : List Token :=
  match part with
  | none => []
  | some part => [⟨String.ofList part.reversed.reverse, part.column⟩]

end PartialToken

/-- The tokens of the rest of a line, of which the first character stands at
`column`. -/
def scan (column : Nat) (part : Option PartialToken) :
    Quoting → List Char → Except LineFault (List Token)
  | .outside, [] => .ok (PartialToken.finish part)
  | .opened start, [] => .error ⟨start, .unterminatedLiteral⟩
  | .inside start, [] => .error ⟨start, .unterminatedLiteral⟩
  | .outside, c :: rest =>
    let next := column + c.utf8Size
    if c = '#' then
      .ok (PartialToken.finish part)
    else if isSeparator c then do
      let more ← scan next none .outside rest
      return PartialToken.finish part ++ more
    else if c = ':' then do
      let more ← scan next none .outside rest
      return PartialToken.finish part ++ ⟨":", column⟩ :: more
    else if c = quote then
      scan next (PartialToken.extend part column c) (.opened column) rest
    else
      scan next (PartialToken.extend part column c) .outside rest
  | .opened start, c :: rest =>
    scan (column + c.utf8Size) (PartialToken.extend part column c)
      (.inside start) rest
  | .inside start, c :: rest =>
    scan (column + c.utf8Size) (PartialToken.extend part column c)
      (if c = quote then .outside else .inside start) rest

/-- The tokens of a line. -/
def tokenize (line : List Char) : Except LineFault (List Token) :=
  scan 1 none .outside line

end ByteMachine
