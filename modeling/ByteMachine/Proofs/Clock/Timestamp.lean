import ByteMachine.Clock.Timestamp
import ByteMachine.Proofs.Clock.Calendar
import ByteMachine.Proofs.Text.Numeral

/-!
# What a shown time tells

A shown time consists of seven numbers, each filled with zeros on the left to a width of its
own.  A number that is wider than that is written in full, so the numbers have no fixed
places in the text.  But none of them holds one of the signs that separate them, and the
zeros in front of a number do not change it.  So the numbers can be read off the text from
left to right.

The numbers are a date and a time of day, and together they determine the time to the
millisecond: the date determines the day, as the dates of days are those of the calendar.

* `eq_of_field` — a number in front of a sign;
* `ofSeconds_injective` — the numbers of a shown time;
* `eq_of_civilDate_eq` — the day of a date;
* `timestamps_true` — shown times.
-/

namespace ByteMachine

open Calendar

/-! ## Fields -/

theorem toList_zeroPadded (width n : Nat) :
    (zeroPadded width n).toList =
      List.replicate (width - (Decimal.digits n).length) '0' ++ Decimal.digits n :=
  String.toList_ofList

theorem isDigit_of_mem_zeroPadded {width n : Nat} {c : Char} (h : c ∈ (zeroPadded width n).toList) :
    Decimal.isDigit c = true := by
  rw [toList_zeroPadded, List.mem_append] at h
  rcases h with hzero | hdigit
  · rw [List.eq_of_mem_replicate hzero]
    decide
  · exact Decimal.isDigit_of_mem_digits hdigit

/-- Zeros in front of a number do not change it. -/
theorem value_zeroPadded (width n : Nat) : Decimal.value (zeroPadded width n).toList = n := by
  have hzeros : ∀ count, Decimal.value (List.replicate count '0' ++ Decimal.digits n) = n := by
    intro count
    induction count with
    | zero => exact Decimal.value_digits n
    | succ count ih => exact ih
  rw [toList_zeroPadded, hzeros]

/-- The number at the end of a text is determined. -/
theorem zeroPadded_injective {width m n : Nat}
    (h : (zeroPadded width m).toList = (zeroPadded width n).toList) : m = n := by
  rw [← value_zeroPadded width m, h, value_zeroPadded]

/-- **Fields.**  The number in front of a sign is determined, and so is what follows the
sign. -/
theorem eq_of_field {width m n : Nat} {c : Char} {rest rest' : List Char}
    (hc : Decimal.isDigit c = false)
    (h : (zeroPadded width m).toList ++ c :: rest = (zeroPadded width n).toList ++ c :: rest') :
    m = n ∧ rest = rest' := by
  have hfront : ∀ k more, ((zeroPadded width k).toList ++ c :: more).takeWhile Decimal.isDigit =
      (zeroPadded width k).toList := by
    intro k more
    rw [List.takeWhile_append_of_pos fun d hd => isDigit_of_mem_zeroPadded hd,
      List.takeWhile_cons_of_neg (by rw [hc]; decide), List.append_nil]
  have hdigits := congrArg (List.takeWhile Decimal.isDigit) h
  rw [hfront, hfront] at hdigits
  obtain rfl := zeroPadded_injective hdigits
  exact ⟨rfl, (List.cons_eq_cons.mp (List.append_cancel_left h)).2⟩

/-! ## Shown times -/

namespace Timestamp

private theorem toList_fields (year month day hour minute second millis : String) :
    (year ++ "-" ++ month ++ "-" ++ day ++ " " ++ hour ++ ":" ++ minute ++ ":" ++ second ++ "."
      ++ millis).toList =
      year.toList ++ '-' :: (month.toList ++ '-' :: (day.toList ++ ' ' :: (hour.toList ++ ':' ::
        (minute.toList ++ ':' :: (second.toList ++ '.' :: millis.toList))))) := by
  simp only [String.toList_append, List.append_assoc]
  rfl

/-- The numbers of a shown time are determined. -/
theorem ofSeconds_injective {seconds seconds' millis millis' : Nat}
    (h : ofSeconds seconds millis = ofSeconds seconds' millis') :
    civilDate (seconds / 86400) = civilDate (seconds' / 86400) ∧
      seconds % 86400 = seconds' % 86400 ∧ millis = millis' := by
  have htext := congrArg String.toList h
  rw [ofSeconds, ofSeconds, toList_fields, toList_fields] at htext
  obtain ⟨hyear, htext⟩ := eq_of_field (by decide) htext
  obtain ⟨hmonth, htext⟩ := eq_of_field (by decide) htext
  obtain ⟨hday, htext⟩ := eq_of_field (by decide) htext
  obtain ⟨hhour, htext⟩ := eq_of_field (by decide) htext
  obtain ⟨hminute, htext⟩ := eq_of_field (by decide) htext
  obtain ⟨hsecond, htext⟩ := eq_of_field (by decide) htext
  refine ⟨?date, ?timeOfDay, zeroPadded_injective htext⟩
  case date =>
    cases hdate : civilDate (seconds / 86400)
    cases hdate' : civilDate (seconds' / 86400)
    rw [hdate, hdate'] at hyear hmonth hday
    simp only at hyear hmonth hday
    rw [hyear, hmonth, hday]
  case timeOfDay => omega

/-- A time in nanoseconds is shown by its seconds and milliseconds. -/
theorem text_eq (seconds : Nat) {nanos : Nat} (h : nanos < 10 ^ 9) :
    text ((seconds * 10 ^ 9 + nanos : Nat) : Int) = ofSeconds seconds (nanos / 10 ^ 6) := by
  have hunit : nanosPerSecond = 10 ^ 9 := by decide
  have hmilli : 1000000 = 10 ^ 6 := by decide
  have hdiv : (seconds * 10 ^ 9 + nanos) / 10 ^ 9 = seconds := by
    rw [Nat.mul_comm, Nat.mul_add_div (by decide), Nat.div_eq_of_lt h, Nat.add_zero]
  have hmod : (seconds * 10 ^ 9 + nanos) % 10 ^ 9 = nanos := by
    rw [Nat.mul_comm, Nat.mul_add_mod, Nat.mod_eq_of_lt h]
  rw [text, Int.toNat_natCast, hunit, hdiv, hmod, hmilli]

end Timestamp

open Timestamp in
/-- **Shown times.**  The first day is 1 January 1970.  In years that fit into a word, the date
of a day is what the rules of the calendar make it, computed without an overflow, and the date
of the next day follows it, with the year cut if it is the first one that does not fit.

A shown time consists of the date of its day, its hour, minute and second, which add up to the
time of day, and its milliseconds.  In these years it determines the time to the
millisecond. -/
theorem timestamps_true :
    civilDate 0 = ⟨1970, 1, 1⟩ ∧
    (∀ day, (countedDate day).year < 2 ^ 32 →
      civilDate day = countedDate day ∧ IsDate (civilDate day) ∧
      civilDate (day + 1) = { tomorrow (civilDate day) with
        year := (tomorrow (civilDate day)).year % 2 ^ 32 } ∧
      ((tomorrow (civilDate day)).year < 2 ^ 32 →
        civilDate (day + 1) = tomorrow (civilDate day)) ∧
      civilDateOnWords day = some (civilDate day)) ∧
    (∀ seconds nanos, nanos < 10 ^ 9 → ∃ hour minute second,
      hour < 24 ∧ minute < 60 ∧ second < 60 ∧
      seconds = 86400 * (seconds / 86400) + 3600 * hour + 60 * minute + second ∧
      text ((seconds * 10 ^ 9 + nanos : Nat) : Int) =
        zeroPadded 4 (civilDate (seconds / 86400)).year ++ "-" ++
        zeroPadded 2 (civilDate (seconds / 86400)).month ++ "-" ++
        zeroPadded 2 (civilDate (seconds / 86400)).day ++ " " ++
        zeroPadded 2 hour ++ ":" ++ zeroPadded 2 minute ++ ":" ++ zeroPadded 2 second ++ "." ++
        zeroPadded 3 (nanos / 10 ^ 6)) ∧
    ∀ seconds nanos seconds' nanos', nanos < 10 ^ 9 → nanos' < 10 ^ 9 →
      (countedDate (seconds / 86400)).year < 2 ^ 32 →
      (countedDate (seconds' / 86400)).year < 2 ^ 32 →
      text ((seconds * 10 ^ 9 + nanos : Nat) : Int) =
        text ((seconds' * 10 ^ 9 + nanos' : Nat) : Int) →
      seconds = seconds' ∧ nanos / 10 ^ 6 = nanos' / 10 ^ 6 := by
  refine ⟨?epoch, ?dates, ?fields, ?determined⟩
  case epoch => rw [civilDate_eq_countedDate]; rfl
  case dates =>
    intro day h
    have hword : 2 ^ 32 = yearModulus := rfl
    rw [hword] at h ⊢
    have hsame := civilDate_of_year_lt h
    refine ⟨hsame, ?_, civilDate_succ h, civilDate_succ_of_year_lt h, civilDateOnWords_eq h⟩
    rw [hsame]
    exact isDate_countedDate day
  case fields =>
    intro seconds nanos h
    refine ⟨seconds / 3600 % 24, seconds / 60 % 60, seconds % 60, by omega, by omega, by omega,
      by omega, ?_⟩
    rw [text_eq seconds h, ofSeconds]
  case determined =>
    intro seconds nanos seconds' nanos' hnanos hnanos' hyear hyear' h
    rw [text_eq seconds hnanos, text_eq seconds' hnanos'] at h
    obtain ⟨hdate, htime, hmillis⟩ := ofSeconds_injective h
    rw [civilDate_of_year_lt hyear, civilDate_of_year_lt hyear'] at hdate
    have hday := countedDate_injective hdate
    exact ⟨by omega, hmillis⟩

/-- Around a leap day, and at a time of the day after it. -/
theorem timestamps_true_leapDay :
    (countedDate 19782).year < 2 ^ 32 ∧ (tomorrow (civilDate 19782)).year < 2 ^ 32 ∧
      civilDate 19782 = ⟨2024, 2, 29⟩ ∧ civilDate 19783 = tomorrow (civilDate 19782) ∧
      ∀ seconds nanos, nanos < 10 ^ 9 → (countedDate (seconds / 86400)).year < 2 ^ 32 →
        Timestamp.text ((1709290861 * 10 ^ 9 + 5000000 : Nat) : Int) =
          Timestamp.text ((seconds * 10 ^ 9 + nanos : Nat) : Int) →
        1709290861 = seconds ∧ 5 = nanos / 10 ^ 6 := by
  have hleap : civilDate 19782 = ⟨2024, 2, 29⟩ := by decide +kernel
  have hyear : (countedDate 19782).year < 2 ^ 32 := by
    rw [← dateOf_eq_countedDate]
    decide +kernel
  have hyear' : (countedDate (1709290861 / 86400)).year < 2 ^ 32 := by
    rw [← dateOf_eq_countedDate]
    decide +kernel
  have hnext : (tomorrow (civilDate 19782)).year < 2 ^ 32 := by
    rw [hleap]
    decide
  obtain ⟨-, hdate, -, hdetermined⟩ := timestamps_true
  obtain ⟨-, -, -, hsucc, -⟩ := hdate 19782 hyear
  refine ⟨hyear, hnext, hleap, hsucc hnext, fun seconds nanos hnanos hword h => ?_⟩
  exact hdetermined 1709290861 5000000 seconds nanos (by decide) hnanos hyear' hword h

end ByteMachine
