import ByteMachine.Text.Align

/-!
# Log records

A log record is a message with a level.  `render` turns it into the text that
is written: an optional time, an optional level and the message, on a line of
its own.  On a terminal with colours the line carries the colour of its level.
-/

namespace ByteMachine

/-- How important a message is. -/
inductive Level where
  | debug | info | warn | error
deriving DecidableEq, Repr

namespace Level

/-- The name of a level. -/
def name : Level → String
  | debug => "DEBUG" | info => "INFO" | warn => "WARN" | error => "ERROR"

/-- The terminal codes that select the style of a level. -/
def style : Level → String
  | debug => "\x1b[2m\x1b[36m"
  | info => ""
  | warn => "\x1b[1m\x1b[33m"
  | error => "\x1b[1m\x1b[31m"

end Level

/-- A message with its level. -/
structure Record where
  level : Level
  message : String
deriving DecidableEq, Repr

namespace Log

/-- The terminal code that ends all styles. -/
def plain : String := "\x1b[0m"

/-- What is written besides the message. -/
structure Format where
  /-- The time to show, if any. -/
  stamp : Option String
  /-- Is the level shown? -/
  showLevel : Bool
  /-- Are colours used? -/
  color : Bool
  /-- Are debug messages written at all? -/
  debug : Bool

/-- Colours are used on a terminal with a name other than `dumb`, unless the
user has asked for none. -/
def usesColor (terminal noColor : Option String) : Bool :=
  match terminal, noColor with
  | some name, none => name != "dumb"
  | _, _ => false

/-- The line of a record. -/
def line (format : Format) (record : Record) : String :=
  let stamp := match format.stamp with
    | some time => time ++ " "
    | none => ""
  let level :=
    if format.showLevel then "[" ++ alignLeft 5 record.level.name ++ "] " else ""
  stamp ++ level ++ record.message ++ "\n"

/-- The text that is written for a record. -/
def render (format : Format) (record : Record) : String :=
  if record.level == .debug && !format.debug then ""
  else if format.color then
    plain ++ record.level.style ++ line format record ++ plain
  else line format record

end Log

end ByteMachine
