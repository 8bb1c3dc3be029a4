/-!
# The civil calendar

The date of a day is computed from the number of days since 1 January 1970 in
the proleptic Gregorian calendar.  Years are counted from March, so that the
leap day is the last day of a year, and in eras of 400 years, which all have
146097 days.

* `Calendar.civilDate` — the date of a day;
* `Calendar.isLeapYear`, `Calendar.monthLength` — the rules of the calendar;
* `Calendar.tomorrow` — the date after a date, by these rules.
-/

namespace ByteMachine

/-- A date: year, month from 1 to 12, and day of the month from 1. -/
structure Date where
  year : Nat
  month : Nat
  day : Nat
deriving DecidableEq, Repr

namespace Calendar

/-- The number of days in 400 years. -/
def daysPerEra : Nat := 146097

/-- The number of days from 1 March of the year 0 to 1 January 1970. -/
def epochOffset : Nat := 719468

/-- Years are shown modulo this number. -/
def yearModulus : Nat := UInt32.size

/-- The year within an era, from 0 to 399, of a day of the era. -/
def yearOfEra (dayOfEra : Nat) : Nat :=
  (dayOfEra - dayOfEra / 1460 + dayOfEra / 36524 - dayOfEra / 146096) / 365

/-- The day within a year that starts in March, from 0, of a day of an era. -/
def dayOfYear (dayOfEra : Nat) : Nat :=
  let year := yearOfEra dayOfEra
  dayOfEra - (365 * year + year / 4 - year / 100)

/-- The month, from 0 for March, of a day of a year that starts in March. -/
def monthFromMarch (day : Nat) : Nat :=
  (5 * day + 2) / 153

/-- The number of the day, counted from 1 March of the year 0, on which a month
starts, relative to its year. -/
def monthStart (month : Nat) : Nat :=
  (153 * month + 2) / 5

/-- The date of a day, counted from 1 January 1970. -/
def civilDate (days : Nat) : Date :=
  let day := days + epochOffset
  let era := day / daysPerEra
  let dayOfEra := day % daysPerEra
  let dayOfYear := dayOfYear dayOfEra
  let month := monthFromMarch dayOfYear
  let civilMonth := if month < 10 then month + 3 else month - 9
  let year := yearOfEra dayOfEra + 400 * era + if civilMonth ≤ 2 then 1 else 0
  { year := year % yearModulus
    month := civilMonth
    day := dayOfYear - monthStart month + 1 }

/-- A year is a leap year if it is divisible by 4, except that a year divisible
by 100 has to be divisible by 400. -/
def isLeapYear (year : Nat) : Bool :=
  year % 4 == 0 && (year % 100 != 0 || year % 400 == 0)

/-- The number of days of a month. -/
def monthLength (year month : Nat) : Nat :=
  if month = 2 then if isLeapYear year then 29 else 28
  else if month = 4 ∨ month = 6 ∨ month = 9 ∨ month = 11 then 30
  else 31

/-- The date after a date. -/
def tomorrow (date : Date) : Date :=
  if date.day < monthLength date.year date.month then
    { date with day := date.day + 1 }
  else if date.month < 12 then
    { date with month := date.month + 1, day := 1 }
  else { year := date.year + 1, month := 1, day := 1 }

end Calendar

end ByteMachine
