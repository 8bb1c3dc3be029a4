import ByteMachine.Clock.Calendar
import Mathlib.Data.Nat.Basic
import Mathlib.Order.Monotone.Basic
import Mathlib.Tactic.IntervalCases

/-!
# The dates of days

The calendar is told day by day: a date follows another one by the lengths of the months and
the rule of leap years.  The date of a day is computed at once, from divisions that round
down.  The two agree, because both can be told in years that start in March.

Such a year consists of whole months, and only its last month can differ from year to year.
So a date has a number, which counts the days from 1 March of the year 0: the days of the
years before it, of the months before it, and of its month before it.  The number of the date
after a date is one more.  And the date can be read off its number again, era, year, month
and day, since each of the divisions is monotone and changes exactly where a year or a month
starts.

* `IsDate`, `countedDate` — the dates, and the date of a day as the calendar has it;
* `dayNumber`, `dayNumber_tomorrow` — the number of a date;
* `yearOfEra_eq`, `monthFromMarch_eq` — the divisions;
* `dateOf_dayNumber`, `dateOf_eq_countedDate` — a date is read off its number.
-/

namespace ByteMachine

namespace Calendar

/-! ## Dates -/

/-- A date of the calendar, from the year 1 on. -/
structure IsDate (date : Date) : Prop where
  year_pos : 1 ≤ date.year
  month_pos : 1 ≤ date.month
  month_le : date.month ≤ 12
  day_pos : 1 ≤ date.day
  day_le : date.day ≤ monthLength date.year date.month

/-- The date of a day by the rules of the calendar: so many days after 1 January 1970. -/
def countedDate : Nat → Date
  | 0 => ⟨1970, 1, 1⟩
  | day + 1 => tomorrow (countedDate day)

theorem monthLength_pos (year month : Nat) : 1 ≤ monthLength year month := by
  unfold monthLength
  split
  · split <;> decide
  · split <;> decide

/-- The date after a date is one. -/
theorem IsDate.tomorrow {date : Date} (h : IsDate date) : IsDate (tomorrow date) := by
  unfold Calendar.tomorrow
  split
  case isTrue hday =>
    exact ⟨h.year_pos, h.month_pos, h.month_le, Nat.le_add_left _ _, hday⟩
  case isFalse =>
    split
    case isTrue hmonth =>
      exact ⟨h.year_pos, Nat.le_add_left _ _, hmonth, Nat.le_refl _, monthLength_pos _ _⟩
    case isFalse =>
      exact ⟨Nat.le_add_left _ _, Nat.le_refl _, Nat.le_add_left 1 11, Nat.le_refl _,
        monthLength_pos _ _⟩

theorem isDate_countedDate (day : Nat) : IsDate (countedDate day) := by
  induction day with
  | zero => exact ⟨by decide, by decide, by decide, by decide, by decide⟩
  | succ day ih => exact ih.tomorrow

/-! ## Years that start in March -/

/-- The number of the day, counted from 1 March of the year 0, on which a year starts. -/
def yearStart (year : Nat) : Nat :=
  365 * year + year / 4 - year / 100 + year / 400

theorem isLeapYear_iff (year : Nat) :
    isLeapYear year = true ↔ 4 ∣ year ∧ (¬ 100 ∣ year ∨ 400 ∣ year) := by
  simp only [isLeapYear, Bool.and_eq_true, Bool.or_eq_true, beq_iff_eq, bne_iff_ne,
    Nat.dvd_iff_mod_eq_zero, ne_eq]

/-- A year that starts in March ends with the leap day of the next year, if there is one. -/
theorem yearStart_succ (year : Nat) :
    yearStart (year + 1) = yearStart year + 365 + if isLeapYear (year + 1) then 1 else 0 := by
  have hcentury : 100 ∣ year + 1 → 4 ∣ year + 1 := Nat.dvd_trans (by decide)
  have hera : 400 ∣ year + 1 → 100 ∣ year + 1 := Nat.dvd_trans (by decide)
  have hle : year / 100 ≤ year := Nat.div_le_self year 100
  simp only [yearStart, isLeapYear_iff, Nat.succ_div]
  generalize year / 4 = fours at *
  generalize year / 100 = centuries at *
  generalize year / 400 = eras at *
  by_cases h4 : 4 ∣ year + 1 <;> by_cases h100 : 100 ∣ year + 1 <;>
    by_cases h400 : 400 ∣ year + 1 <;> simp_all <;> omega

theorem yearStart_mono : Monotone yearStart := by
  refine monotone_nat_of_le_succ fun year => ?_
  rw [yearStart_succ, Nat.add_assoc]
  exact Nat.le_add_right _ _

/-- All eras have the same years. -/
theorem yearStart_add_era (era year : Nat) :
    yearStart (400 * era + year) = daysPerEra * era + yearStart year := by
  simp only [yearStart, daysPerEra]
  omega

/-! ## The divisions -/

theorem yearOfEra_mono : Monotone yearOfEra := by
  refine monotone_nat_of_le_succ fun day => ?_
  simp only [yearOfEra]
  apply Nat.div_le_div_right
  omega

/-- The first and the last day of each year of an era. -/
private theorem yearOfEra_ends :
    ∀ year < 400, yearOfEra (yearStart year) = year ∧
      yearOfEra (yearStart (year + 1) - 1) = year := by
  decide +kernel

/-- **The year of a day.**  Between the first and the last day of a year the division gives
the year, since it does so on these two days. -/
theorem yearOfEra_eq {year day : Nat} (hyear : year < 400) (hfirst : yearStart year ≤ day)
    (hlast : day < yearStart (year + 1)) : yearOfEra day = year := by
  obtain ⟨hstart, hend⟩ := yearOfEra_ends year hyear
  apply Nat.le_antisymm
  · rw [← hend]
    exact yearOfEra_mono (Nat.le_sub_one_of_lt hlast)
  · rw [← hstart]
    exact yearOfEra_mono hfirst

theorem dayOfYear_eq {year day : Nat} (hyear : year < 400) (hfirst : yearStart year ≤ day)
    (hlast : day < yearStart (year + 1)) : dayOfYear day = day - yearStart year := by
  rw [dayOfYear, yearOfEra_eq hyear hfirst hlast, yearStart, Nat.div_eq_of_lt hyear,
    Nat.add_zero]

/-- **The month of a day.** -/
theorem monthFromMarch_eq {month day : Nat} (hfirst : monthStart month ≤ day)
    (hlast : day < monthStart (month + 1)) : monthFromMarch day = month := by
  unfold monthStart at hfirst hlast
  unfold monthFromMarch
  omega

/-! ## The number of a date -/

/-- The year, from March on, of a date. -/
def marchYear (date : Date) : Nat :=
  if date.month ≤ 2 then date.year - 1 else date.year

/-- The month, from 0 for March, of a date. -/
def marchMonth (date : Date) : Nat :=
  if date.month ≤ 2 then date.month + 9 else date.month - 3

/-- The day, from 0 for 1 March, of a date in its year. -/
def marchDay (date : Date) : Nat :=
  monthStart (marchMonth date) + (date.day - 1)

/-- The number of a date, counted from 1 March of the year 0. -/
def dayNumber (date : Date) : Nat :=
  yearStart (marchYear date) + marchDay date

/-- A month other than February ends where the next one starts. -/
theorem monthStart_succ {date : Date} (h : IsDate date) (hmonth : date.month ≠ 2) :
    monthStart (marchMonth date + 1) =
      monthStart (marchMonth date) + monthLength date.year date.month := by
  obtain ⟨year, month, day⟩ := date
  obtain ⟨-, hlow, hhigh, -, -⟩ := h
  dsimp only at hlow hhigh hmonth
  interval_cases month <;> simp [marchMonth, monthStart, monthLength] at hmonth ⊢

/-- February ends where the year does. -/
theorem yearStart_marchYear_succ {date : Date} (h : IsDate date) (hmonth : date.month = 2) :
    yearStart (marchYear date + 1) =
      yearStart (marchYear date) + monthStart (marchMonth date) +
        monthLength date.year date.month := by
  have hyear : marchYear date + 1 = date.year := by
    rw [marchYear, hmonth, if_pos (Nat.le_refl 2), Nat.sub_add_cancel h.year_pos]
  have hstart : monthStart (marchMonth date) = 337 := by
    rw [marchMonth, hmonth, if_pos (Nat.le_refl 2), monthStart]
  rw [yearStart_succ, hyear, hstart, hmonth, monthLength, if_pos rfl]
  split <;> rfl

/-- A day lies in front of the start of the next month. -/
theorem marchDay_lt {date : Date} (h : IsDate date) :
    marchDay date < monthStart (marchMonth date + 1) := by
  have hday := h.day_pos
  have hlast := h.day_le
  unfold marchDay
  by_cases hmonth : date.month = 2
  · have hlength : monthLength date.year date.month ≤ 29 := by
      rw [hmonth, monthLength, if_pos rfl]
      split <;> decide
    have hmarch : marchMonth date = 11 := by rw [marchMonth, hmonth, if_pos (Nat.le_refl 2)]
    rw [hmarch, monthStart, monthStart]
    omega
  · rw [monthStart_succ h hmonth]
    omega

/-- A day lies in front of the start of the next year. -/
theorem dayNumber_lt {date : Date} (h : IsDate date) :
    dayNumber date < yearStart (marchYear date + 1) := by
  have hday := h.day_pos
  have hlast := h.day_le
  by_cases hmonth : date.month = 2
  · rw [yearStart_marchYear_succ h hmonth, dayNumber, marchDay]
    omega
  · have hlow := h.month_pos
    have hhigh := h.month_le
    have hnext : marchMonth date + 1 ≤ 11 := by
      unfold marchMonth
      split <;> omega
    have hmonths := marchDay_lt h
    unfold monthStart at hmonths
    rw [yearStart_succ, dayNumber]
    omega

/-- The number of the first day of a month, behind the last one of another month. -/
private theorem dayNumber_of_next {date next : Date} (h : IsDate date) (hmonth : date.month ≠ 2)
    (hlast : date.day = monthLength date.year date.month)
    (hyear : marchYear next = marchYear date) (hnext : marchMonth next = marchMonth date + 1)
    (hfirst : next.day = 1) : dayNumber next = dayNumber date + 1 := by
  have hday := h.day_pos
  rw [dayNumber, marchDay, hyear, hnext, monthStart_succ h hmonth, hfirst, dayNumber, marchDay]
  omega

/-- The number of the date after a date is one more. -/
theorem dayNumber_tomorrow {date : Date} (h : IsDate date) :
    dayNumber (tomorrow date) = dayNumber date + 1 := by
  have hday := h.day_pos
  have hlow := h.month_pos
  unfold tomorrow
  split
  case isTrue =>
    simp only [dayNumber, marchYear, marchMonth, marchDay]
    omega
  case isFalse hend =>
    have hlast : date.day = monthLength date.year date.month :=
      Nat.le_antisymm h.day_le (Nat.le_of_not_lt hend)
    split
    case isTrue hmonth =>
      by_cases hfebruary : date.month = 2
      · -- The year that starts in March ends.
        have hyear := yearStart_marchYear_succ h hfebruary
        have hmarch : marchYear date + 1 = date.year := by
          rw [marchYear, hfebruary, if_pos (Nat.le_refl 2), Nat.sub_add_cancel h.year_pos]
        have hfirst : dayNumber { date with month := date.month + 1, day := 1 } =
            yearStart date.year := by
          simp [dayNumber, marchYear, marchDay, marchMonth, monthStart, hfebruary]
        rw [hfirst, ← hmarch, hyear, dayNumber, marchDay]
        omega
      · refine dayNumber_of_next h hfebruary hlast ?_ ?_ rfl
        · simp only [marchYear]
          split <;> split <;> omega
        · simp only [marchMonth]
          split <;> split <;> omega
    case isFalse hmonth =>
      have hdecember : date.month = 12 := Nat.le_antisymm h.month_le (Nat.le_of_not_lt hmonth)
      refine dayNumber_of_next h (by omega) hlast ?_ ?_ rfl
      · simp [marchYear, hdecember]
      · simp [marchMonth, hdecember]

theorem dayNumber_countedDate (day : Nat) : dayNumber (countedDate day) = day + epochOffset := by
  induction day with
  | zero => decide
  | succ day ih =>
      rw [countedDate, dayNumber_tomorrow (isDate_countedDate day), ih, Nat.add_right_comm]

/-! ## Reading a date off its number -/

/-- The date with a number, in years that are not cut. -/
def dateOf (number : Nat) : Date :=
  let era := number / daysPerEra
  let dayOfEra := number % daysPerEra
  let dayOfYear := dayOfYear dayOfEra
  let month := monthFromMarch dayOfYear
  let civilMonth := if month < 10 then month + 3 else month - 9
  { year := yearOfEra dayOfEra + 400 * era + if civilMonth ≤ 2 then 1 else 0
    month := civilMonth
    day := dayOfYear - monthStart month + 1 }

theorem civilDate_eq (days : Nat) :
    civilDate days = { dateOf (days + epochOffset) with
      year := (dateOf (days + epochOffset)).year % yearModulus } :=
  rfl

/-- What the divisions give for the number of a date. -/
structure Reads (number : Nat) (date : Date) : Prop where
  era : number / daysPerEra = marchYear date / 400
  dayOfEra : number % daysPerEra = yearStart (marchYear date % 400) + marchDay date
  year : yearOfEra (number % daysPerEra) = marchYear date % 400
  day : dayOfYear (number % daysPerEra) = marchDay date
  month : monthFromMarch (marchDay date) = marchMonth date

/-- **The divisions.**  Each of them gives a part of the date. -/
theorem reads_dayNumber {date : Date} (h : IsDate date) : Reads (dayNumber date) date := by
  generalize hera : marchYear date / 400 = era
  generalize hyear : marchYear date % 400 = year
  have hmarch : marchYear date = 400 * era + year := by
    rw [← hera, ← hyear]
    exact (Nat.div_add_mod _ 400).symm
  have hshort : year < 400 := hyear ▸ Nat.mod_lt _ (by decide)
  have hnumber : dayNumber date = daysPerEra * era + (yearStart year + marchDay date) := by
    rw [dayNumber, hmarch, yearStart_add_era, Nat.add_assoc]
  -- The day lies in the year, and the year lies in the era.
  have hfirst : yearStart year ≤ yearStart year + marchDay date := Nat.le_add_right _ _
  have hlast : yearStart year + marchDay date < yearStart (year + 1) := by
    have hlt := dayNumber_lt h
    rw [hnumber, hmarch, Nat.add_assoc, yearStart_add_era] at hlt
    exact Nat.lt_of_add_lt_add_left hlt
  have hinside : yearStart year + marchDay date < daysPerEra :=
    Nat.lt_of_lt_of_le hlast (yearStart_mono hshort)
  have hmod : dayNumber date % daysPerEra = yearStart year + marchDay date := by
    rw [hnumber, Nat.mul_add_mod, Nat.mod_eq_of_lt hinside]
  constructor
  case era =>
    rw [hnumber, Nat.mul_add_div (by decide), Nat.div_eq_of_lt hinside, Nat.add_zero, hera]
  case dayOfEra => rw [hmod, hyear]
  case year => rw [hmod, yearOfEra_eq hshort hfirst hlast, hyear]
  case day => rw [hmod, dayOfYear_eq hshort hfirst hlast, Nat.add_sub_cancel_left]
  case month => exact monthFromMarch_eq (Nat.le_add_right _ _) (marchDay_lt h)

/-- The month of a year that starts in March, in the civil year. -/
theorem civilMonth_marchMonth {date : Date} (h : IsDate date) :
    (if marchMonth date < 10 then marchMonth date + 3 else marchMonth date - 9) =
      date.month := by
  have hlow := h.month_pos
  have hhigh := h.month_le
  unfold marchMonth
  split <;> split <;> omega

/-- A year that starts in March, in civil years. -/
theorem civilYear_marchYear {date : Date} (h : IsDate date) :
    marchYear date % 400 + 400 * (marchYear date / 400) + (if date.month ≤ 2 then 1 else 0) =
      date.year := by
  have hpos := h.year_pos
  rw [Nat.mod_add_div]
  unfold marchYear
  split <;> omega

/-- **A date is read off its number.** -/
theorem dateOf_dayNumber {date : Date} (h : IsDate date) : dateOf (dayNumber date) = date := by
  obtain ⟨hera, -, hyear, hday, hmonth⟩ := reads_dayNumber h
  have hdayOfMonth : marchDay date - monthStart (marchMonth date) + 1 = date.day := by
    rw [marchDay, Nat.add_sub_cancel_left, Nat.sub_add_cancel h.day_pos]
  simp only [dateOf, hera, hyear, hday, hmonth, civilMonth_marchMonth h, civilYear_marchYear h,
    hdayOfMonth]

theorem dateOf_eq_countedDate (day : Nat) : dateOf (day + epochOffset) = countedDate day := by
  rw [← dayNumber_countedDate, dateOf_dayNumber (isDate_countedDate day)]

/-- **The date of a day.**  It is what the rules of the calendar make it, with the year cut. -/
theorem civilDate_eq_countedDate (day : Nat) :
    civilDate day = { countedDate day with year := (countedDate day).year % yearModulus } := by
  rw [civilDate_eq, dateOf_eq_countedDate]

/-- The cut does nothing to a year that fits. -/
private theorem eq_of_cut {date next : Date}
    (h : date = { next with year := next.year % yearModulus }) (hfits : next.year < yearModulus) :
    date = next := by
  rw [h, Nat.mod_eq_of_lt hfits]

theorem civilDate_of_year_lt {day : Nat} (h : (countedDate day).year < yearModulus) :
    civilDate day = countedDate day :=
  eq_of_cut (civilDate_eq_countedDate day) h

/-- The date of the next day follows the date of the day, with the year cut. -/
theorem civilDate_succ {day : Nat} (h : (countedDate day).year < yearModulus) :
    civilDate (day + 1) = { tomorrow (civilDate day) with
      year := (tomorrow (civilDate day)).year % yearModulus } := by
  rw [civilDate_of_year_lt h, civilDate_eq_countedDate, countedDate]

theorem civilDate_succ_of_year_lt {day : Nat} (h : (countedDate day).year < yearModulus)
    (hfits : (tomorrow (civilDate day)).year < yearModulus) :
    civilDate (day + 1) = tomorrow (civilDate day) :=
  eq_of_cut (civilDate_succ h) hfits

/-- A day is determined by its date. -/
theorem countedDate_injective {day day' : Nat} (h : countedDate day = countedDate day') :
    day = day' := by
  have hnumber := dayNumber_countedDate day
  rw [h, dayNumber_countedDate] at hnumber
  exact (Nat.add_right_cancel hnumber).symm

/-! ## Words -/

/-- The value of a step in an unsigned word of 32 bits, unless it overflows. -/
def unsigned (value : Nat) : Option Nat :=
  if value < 2 ^ 32 then some value else none

/-- The value of a step in a signed word of 64 bits that is not negative, unless it
overflows. -/
def signed (value : Nat) : Option Nat :=
  if value < 2 ^ 63 then some value else none

/-- A difference of unsigned words, unless it is negative. -/
def difference (x y : Nat) : Option Nat :=
  if y ≤ x then some (x - y) else none

/-- `yearOfEra` on words. -/
def yearOfEraOnWords (dayOfEra : Nat) : Option Nat := do
  let days ← difference dayOfEra (dayOfEra / 1460)
  let days ← unsigned (days + dayOfEra / 36524)
  let days ← difference days (dayOfEra / 146096)
  return days / 365

/-- `dayOfYear` on words, with the year at hand. -/
def dayOfYearOnWords (dayOfEra year : Nat) : Option Nat := do
  let days ← unsigned (365 * year)
  let days ← unsigned (days + year / 4)
  let days ← difference days (year / 100)
  difference dayOfEra days

/-- `monthFromMarch` on words. -/
def monthFromMarchOnWords (day : Nat) : Option Nat := do
  let fifths ← unsigned (5 * day)
  let fifths ← unsigned (fifths + 2)
  return fifths / 153

/-- `monthStart` on words. -/
def monthStartOnWords (month : Nat) : Option Nat := do
  let fifths ← unsigned (153 * month)
  let fifths ← unsigned (fifths + 2)
  return fifths / 5

/-- The month of a civil year, from 1, on words. -/
def civilMonthOnWords (month : Nat) : Option Nat :=
  if month < 10 then unsigned (month + 3) else difference month 9

/-- `civilDate` on words. -/
def civilDateOnWords (days : Nat) : Option Date := do
  let number ← signed (days + epochOffset)
  let year ← yearOfEraOnWords (number % daysPerEra)
  let dayOfYear ← dayOfYearOnWords (number % daysPerEra) year
  let month ← monthFromMarchOnWords dayOfYear
  let start ← monthStartOnWords month
  let dayOfMonth ← difference dayOfYear start
  let day ← unsigned (dayOfMonth + 1)
  let civilMonth ← civilMonthOnWords month
  let years ← signed (400 * (number / daysPerEra))
  let years ← signed (year + years)
  let years ← signed (years + if civilMonth ≤ 2 then 1 else 0)
  return { year := years % yearModulus, month := civilMonth, day }

section

variable {α : Type} {f : Nat → Option α}

theorem some_bind (value : Nat) : (some value >>= f) = f value :=
  rfl

theorem unsigned_bind {value : Nat} (h : value < 2 ^ 32) : (unsigned value >>= f) = f value := by
  rw [unsigned, if_pos h, some_bind]

theorem signed_bind {value : Nat} (h : value < 2 ^ 63) : (signed value >>= f) = f value := by
  rw [signed, if_pos h, some_bind]

theorem difference_bind {x y : Nat} (h : y ≤ x) : (difference x y >>= f) = f (x - y) := by
  rw [difference, if_pos h, some_bind]

end

theorem yearOfEraOnWords_eq {dayOfEra : Nat} (h : dayOfEra < daysPerEra) :
    yearOfEraOnWords dayOfEra = some (yearOfEra dayOfEra) := by
  unfold daysPerEra at h
  rw [yearOfEraOnWords, difference_bind (Nat.div_le_self _ _), unsigned_bind (by omega),
    difference_bind (by omega)]
  rfl

theorem dayOfYearOnWords_eq {day year : Nat} (hyear : year < 400) :
    dayOfYearOnWords (yearStart year + day) year = some day := by
  have hstart : yearStart year = 365 * year + year / 4 - year / 100 := by
    rw [yearStart, Nat.div_eq_of_lt hyear, Nat.add_zero]
  rw [dayOfYearOnWords, unsigned_bind (by omega), unsigned_bind (by omega),
    difference_bind (by omega), ← hstart, difference, if_pos (Nat.le_add_right _ _),
    Nat.add_sub_cancel_left]

theorem monthFromMarchOnWords_eq {day : Nat} (h : day < 366) :
    monthFromMarchOnWords day = some (monthFromMarch day) := by
  rw [monthFromMarchOnWords, unsigned_bind (by omega), unsigned_bind (by omega)]
  rfl

theorem monthStartOnWords_eq {month : Nat} (h : month < 12) :
    monthStartOnWords month = some (monthStart month) := by
  rw [monthStartOnWords, unsigned_bind (by omega), unsigned_bind (by omega)]
  rfl

theorem yearStart_le (year : Nat) : yearStart year ≤ 366 * year := by
  have hfours := Nat.div_mul_le_self year 4
  have heras := Nat.div_mul_le_self year 400
  unfold yearStart
  omega

/-- The number of a date is bounded by its year. -/
theorem dayNumber_le {date : Date} (h : IsDate date) : dayNumber date ≤ 366 * (date.year + 1) := by
  have hlt := dayNumber_lt h
  have hle := yearStart_le (marchYear date + 1)
  have hyear : marchYear date ≤ date.year := by
    unfold marchYear
    split <;> omega
  omega

theorem marchMonth_lt {date : Date} (h : IsDate date) : marchMonth date < 12 := by
  have hhigh := h.month_le
  unfold marchMonth
  split <;> omega

theorem marchDay_lt_year {date : Date} (h : IsDate date) : marchDay date < 366 := by
  have hlt := dayNumber_lt h
  rw [yearStart_succ, dayNumber] at hlt
  split at hlt <;> omega

theorem civilMonthOnWords_eq {date : Date} (h : IsDate date) :
    civilMonthOnWords (marchMonth date) = some date.month := by
  have hlt := marchMonth_lt h
  rw [← civilMonth_marchMonth h, civilMonthOnWords]
  split
  case isTrue => exact if_pos (by omega)
  case isFalse hlate => exact if_pos (by omega)

/-- **No overflows.**  In years that fit into a word no step overflows, and so no difference is
negative. -/
theorem civilDateOnWords_eq {days : Nat} (h : (countedDate days).year < yearModulus) :
    civilDateOnWords days = some (civilDate days) := by
  have hdate := isDate_countedDate days
  have hnumber := dayNumber_countedDate days
  rw [civilDate_eq_countedDate]
  generalize countedDate days = date at h hdate hnumber
  obtain ⟨hera, hdayOfEra, hyear, hday, hmonth⟩ := reads_dayNumber hdate
  unfold yearModulus UInt32.size at h
  have hsize : dayNumber date < 2 ^ 63 := by
    have hle := dayNumber_le hdate
    omega
  have hshort : marchYear date % 400 < 400 := Nat.mod_lt _ (by decide)
  have hyearStep : yearOfEraOnWords (dayNumber date % daysPerEra) = some (marchYear date % 400) := by
    rw [yearOfEraOnWords_eq (Nat.mod_lt _ (by decide)), hyear]
  have hdayStep : dayOfYearOnWords (dayNumber date % daysPerEra) (marchYear date % 400) =
      some (marchDay date) := by
    rw [hdayOfEra, dayOfYearOnWords_eq hshort]
  have hmonthStep : monthFromMarchOnWords (marchDay date) = some (marchMonth date) := by
    rw [monthFromMarchOnWords_eq (marchDay_lt_year hdate), hmonth]
  have hstart : monthStart (marchMonth date) ≤ marchDay date := Nat.le_add_right _ _
  have hlast := marchDay_lt_year hdate
  have hyears := civilYear_marchYear hdate
  have hdayOfMonth : marchDay date - monthStart (marchMonth date) + 1 = date.day := by
    rw [marchDay, Nat.add_sub_cancel_left, Nat.sub_add_cancel hdate.day_pos]
  rw [civilDateOnWords, ← hnumber, signed_bind hsize, hera, hyearStep, some_bind, hdayStep,
    some_bind, hmonthStep, some_bind, monthStartOnWords_eq (marchMonth_lt hdate), some_bind,
    difference_bind hstart, unsigned_bind (by omega), civilMonthOnWords_eq hdate, some_bind,
    signed_bind (by omega), signed_bind (by omega), signed_bind (by omega), hyears, hdayOfMonth]
  rfl

end Calendar

end ByteMachine
