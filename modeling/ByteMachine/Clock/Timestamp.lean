import ByteMachine.Clock.Calendar
import ByteMachine.Text.Align

/-!
# Timestamps

The time of day in UTC, to the millisecond, as it is shown in a log.  Times are
counted in nanoseconds from the start of 1970, and a time before that is shown
as that start.

* `Timestamp.text` — the shown form of a time;
* `Timestamp.hide` — a text with a mark in the place of everything that has this
  form, so that the logs of runs at different times can be compared.
-/

namespace ByteMachine

namespace Timestamp

/-- The number of nanoseconds in a second. -/
def nanosPerSecond : Nat := 1000000000

/-- The time at a number of whole seconds since the start of 1970, and the
milliseconds behind it. -/
def ofSeconds (seconds millis : Nat) : String :=
  let date := Calendar.civilDate (seconds / 86400)
  zeroPadded 4 date.year ++ "-" ++ zeroPadded 2 date.month ++ "-"
    ++ zeroPadded 2 date.day ++ " "
    ++ zeroPadded 2 (seconds / 3600 % 24) ++ ":"
    ++ zeroPadded 2 (seconds / 60 % 60) ++ ":"
    ++ zeroPadded 2 (seconds % 60) ++ "." ++ zeroPadded 3 millis

/-- The time at a number of nanoseconds since the start of 1970. -/
def text (nanoseconds : Int) : String :=
  let n := nanoseconds.toNat
  ofSeconds (n / nanosPerSecond) (n % nanosPerSecond / 1000000)

/-- The form of a shown time, in which every zero stands for some digit and
every other character for itself. -/
def layout : List Char := "0000-00-00 00:00:00.000".toList

/-- Does a text start with characters of a given form? -/
def startsWith : List Char → List Char → Bool
  | [], _ => true
  | _ :: _, [] => false
  | slot :: layout, c :: text =>
    (if slot == '0' then Decimal.isDigit c else slot == c)
      && startsWith layout text

/-- Write `mark` for everything in a text that has the form of a shown time,
from left to right. -/
def hide (mark : List Char) (text : List Char) : List Char :=
  match text with
  | [] => []
  | c :: rest =>
    if startsWith layout (c :: rest) then
      mark ++ hide mark (rest.drop (layout.length - 1))
    else c :: hide mark rest
termination_by text.length
decreasing_by
  · simp only [List.length_drop, List.length_cons]; omega
  · simp only [List.length_cons]; omega

end Timestamp

end ByteMachine
