import ByteMachine.Text.Align
import ByteMachine.Text.Decimal
import Mathlib.Algebra.Group.Nat.Defs

/-!
# Written numbers read back

The written form of a number is a numeral, and it denotes the number.

* `value_digits` — the digits of a natural number denote it;
* `isNumeral_ofInt`, `numeralValue_ofInt` — the written form of an integer is a
  numeral that denotes it;
* `mem_ofInt` — written numbers consist of digits and minus signs.
-/

namespace ByteMachine

namespace Decimal

/-- The character of a digit is an ASCII digit. -/
theorem isDigit_digitChar {d : Nat} (h : d < 10) :
    isDigit (digitChar d) = true := by
  have hall : ∀ d, d < 10 → isDigit (digitChar d) = true := by decide
  exact hall d h

/-- The character of a digit stands for it. -/
theorem toNat_digitChar {d : Nat} (h : d < 10) :
    (digitChar d).toNat - 48 = d := by
  have hall : ∀ d, d < 10 → (digitChar d).toNat - 48 = d := by decide
  exact hall d h

/-- One more digit at the end. -/
theorem value_append_singleton (text : List Char) (c : Char) :
    value (text ++ [c]) = 10 * value text + (c.toNat - 48) := by
  simp [value]

/-- A number has at least one digit. -/
theorem digits_ne_nil (n : Nat) : digits n ≠ [] := by
  rw [digits]
  split <;> simp

/-- The digits of a number are ASCII digits. -/
theorem isDigit_of_mem_digits {n : Nat} {c : Char} (h : c ∈ digits n) :
    isDigit c = true := by
  induction n using digits.induct with
  | case1 n hn =>
      rw [digits, if_pos hn, List.mem_singleton] at h
      exact h ▸ isDigit_digitChar hn
  | case2 n hn ih =>
      rw [digits, if_neg hn, List.mem_append, List.mem_singleton] at h
      rcases h with h | rfl
      · exact ih h
      · exact isDigit_digitChar (Nat.mod_lt n (by decide))

/-- **Digits read back.**  The digits of a number denote the number. -/
theorem value_digits (n : Nat) : value (digits n) = n := by
  induction n using digits.induct with
  | case1 n hn =>
      rw [digits, if_pos hn]
      simpa [value] using toNat_digitChar hn
  | case2 n hn ih =>
      have hlast := toNat_digitChar (Nat.mod_lt n (by decide : 0 < 10))
      rw [digits, if_neg hn, value_append_singleton, ih, hlast]
      exact Nat.div_add_mod n 10

/-- The digits of a number are a run of digits. -/
theorem isDigits_digits (n : Nat) : isDigits (digits n) = true := by
  simp only [isDigits, Bool.and_eq_true, Bool.not_eq_true', List.isEmpty_eq_false_iff,
    List.all_eq_true]
  exact ⟨digits_ne_nil n, fun c hc => isDigit_of_mem_digits hc⟩

/-- How many digits a number has. -/
theorem length_digits_le_iff {n k : Nat} :
    (digits n).length ≤ k + 1 ↔ n < 10 ^ (k + 1) := by
  induction k generalizing n with
  | zero =>
      rw [digits]
      split
      case isTrue h => simpa using h
      case isFalse h =>
        have hpos := List.length_pos_iff.mpr (digits_ne_nil (n / 10))
        rw [List.length_append, List.length_singleton]
        omega
  | succ k ih =>
      rw [digits, Nat.pow_succ]
      split
      case isTrue h =>
        have hpos : 0 < 10 ^ (k + 1) := Nat.pow_pos (by decide)
        rw [List.length_singleton]
        omega
      case isFalse h =>
        rw [List.length_append, List.length_singleton, Nat.add_le_add_iff_right, ih]
        exact Nat.div_lt_iff_lt_mul (by decide)

/-- No run of digits starts with a minus sign. -/
private theorem head_digits_ne_minus (n : Nat) (rest : List Char) :
    digits n ≠ '-' :: rest := by
  intro h
  have hminus := isDigit_of_mem_digits (c := '-') (h ▸ List.mem_cons_self)
  exact absurd hminus (by decide)

/-- A text that starts without a minus sign is a numeral if it is a run of digits,
and denotes what the digits denote. -/
theorem numeral_of_no_minus {text : List Char} (h : ∀ rest, text ≠ '-' :: rest) :
    isNumeral text = isDigits text ∧ numeralValue text = value text := by
  unfold isNumeral numeralValue
  constructor <;> split <;> first | rfl | exact absurd rfl (h _)

theorem toList_ofNat (n : Nat) : (ofNat n).toList = digits n := by
  rw [ofNat, String.toList_ofList]

/-- An aligned number consists of spaces and of its digits. -/
theorem toList_alignRight_ofNat (width n : Nat) :
    (alignRight width (ofNat n)).toList =
      List.replicate (width - (digits n).length) ' ' ++ digits n := by
  rw [alignRight, spaces, String.toList_append, String.toList_ofList, toList_ofNat,
    ← String.length_toList, toList_ofNat]

theorem toList_ofInt_negSucc (n : Nat) :
    (ofInt (.negSucc n)).toList = '-' :: digits (n + 1) := by
  rw [ofInt, String.toList_append, toList_ofNat]
  rfl

/-- The written form of an integer is a numeral. -/
theorem isNumeral_ofInt (x : Int) : isNumeral (ofInt x).toList = true := by
  cases x with
  | ofNat n =>
      rw [ofInt, toList_ofNat, (numeral_of_no_minus (head_digits_ne_minus n)).1]
      exact isDigits_digits n
  | negSucc n =>
      rw [toList_ofInt_negSucc]
      exact isDigits_digits (n + 1)

/-- **Integers read back.**  The written form of an integer denotes it. -/
theorem numeralValue_ofInt (x : Int) : numeralValue (ofInt x).toList = x := by
  cases x with
  | ofNat n =>
      rw [ofInt, toList_ofNat, (numeral_of_no_minus (head_digits_ne_minus n)).2,
        value_digits]
      rfl
  | negSucc n =>
      rw [toList_ofInt_negSucc]
      show -(value (digits (n + 1)) : Int) = Int.negSucc n
      rw [value_digits]
      rfl

/-- Written integers consist of digits and minus signs. -/
theorem mem_ofInt {x : Int} {c : Char} (h : c ∈ (ofInt x).toList) :
    c = '-' ∨ isDigit c = true := by
  cases x with
  | ofNat n =>
      rw [ofInt, toList_ofNat] at h
      exact Or.inr (isDigit_of_mem_digits h)
  | negSucc n =>
      rw [toList_ofInt_negSucc, List.mem_cons] at h
      exact h.imp_right isDigit_of_mem_digits

end Decimal

end ByteMachine
