import ByteMachine.Assembly.Encode
import ByteMachine.Proofs.Text.Numeral
import Mathlib.Data.List.Induction
import Mathlib.Data.Nat.Digits.Defs

/-!
# Decimal numbers in a byte

A decimal number is a row of digits, possibly behind a minus sign, and its value is that of
the digits by their places.  It is encoded if its value lies between -128 and 127, however
many digits it has.

A reader that keeps to signed bytes comes to the same.  It takes digit by digit, and stops
where what it has read does not fit.  All digits lead away from zero, to the side of the sign,
so what has left the range does not come back, and the reader stops exactly if the value of
the whole number does not fit.

* `IsDecimal` — a decimal number and its value;
* `isDecimal_iff` — which texts are decimal numbers;
* `readImmediate_eq` — reading digit by digit;
* `encodeImmediate_eq_ok`, `encodeImmediate_eq_error` — what a number is encoded as;
* `encodeImmediate_eq_read` — the encoder and the reader.
-/

namespace ByteMachine

/-! ## Numbers by the places of their digits -/

/-- A text spells digits, the most significant one first. -/
structure SpellsDigits (text : List Char) (digits : List Nat) : Prop where
  nonempty : digits ≠ []
  small : ∀ digit ∈ digits, digit < 10
  spelt : text = digits.map Decimal.digitChar

/-- A text is a decimal number with a given value. -/
inductive IsDecimal (text : List Char) : Int → Prop
  | plain {digits : List Nat} (hdigits : SpellsDigits text digits) :
      IsDecimal text (Nat.ofDigits 10 digits.reverse : Nat)
  | negative {rest : List Char} {digits : List Nat} (htext : text = '-' :: rest)
      (hdigits : SpellsDigits rest digits) :
      IsDecimal text (-(Nat.ofDigits 10 digits.reverse : Nat))

/-- The digit of a character. -/
theorem digitChar_of_isDigit {c : Char} (h : Decimal.isDigit c = true) :
    c.toNat - 48 < 10 ∧ Decimal.digitChar (c.toNat - 48) = c := by
  rw [Decimal.isDigit, Bool.and_eq_true, decide_eq_true_eq, decide_eq_true_eq, Char.le_def,
    Char.le_def, UInt32.le_iff_toNat_le, UInt32.le_iff_toNat_le] at h
  have hlow : 48 ≤ c.toNat := h.1
  have hhigh : c.toNat ≤ 57 := h.2
  have hsame : 48 + (c.toNat - 48) = c.toNat := by omega
  exact ⟨by omega, by rw [Decimal.digitChar, hsame, Char.ofNat_toNat]⟩

theorem isDigits_iff {text : List Char} :
    Decimal.isDigits text = true ↔ text ≠ [] ∧ ∀ c ∈ text, Decimal.isDigit c = true := by
  rw [Decimal.isDigits, Bool.and_eq_true, Bool.not_eq_true', List.isEmpty_eq_false_iff,
    List.all_eq_true]

/-- A run of digits spells digits. -/
theorem exists_spellsDigits {text : List Char} (h : Decimal.isDigits text = true) :
    ∃ digits, SpellsDigits text digits := by
  obtain ⟨hne, hall⟩ := isDigits_iff.mp h
  refine ⟨text.map fun c => c.toNat - 48, by simpa using hne, ?_, ?_⟩
  · intro digit hdigit
    obtain ⟨c, hc, rfl⟩ := List.mem_map.mp hdigit
    exact (digitChar_of_isDigit (hall c hc)).1
  · rw [List.map_map]
    have hsame : ∀ c ∈ text, c = Decimal.digitChar (c.toNat - 48) := fun c hc =>
      (digitChar_of_isDigit (hall c hc)).2.symm
    exact (List.map_id text).symm.trans (List.map_congr_left hsame)

namespace SpellsDigits

variable {text : List Char} {digits : List Nat}

/-- Spelt digits are a run of digits. -/
theorem isDigits (h : SpellsDigits text digits) : Decimal.isDigits text = true := by
  obtain ⟨hne, hsmall, rfl⟩ := h
  refine isDigits_iff.mpr ⟨by simpa using hne, ?_⟩
  intro c hc
  obtain ⟨digit, hdigit, rfl⟩ := List.mem_map.mp hc
  exact Decimal.isDigit_digitChar (hsmall digit hdigit)

/-- **Digits by their places.**  Reading digits from the left gives each of them the value of
its place. -/
theorem value_eq (h : SpellsDigits text digits) :
    Decimal.value text = Nat.ofDigits 10 digits.reverse := by
  obtain ⟨-, hsmall, rfl⟩ := h
  induction digits using List.reverseRecOn with
  | nil => rfl
  | append_singleton front last ih =>
      have hfront : ∀ digit ∈ front, digit < 10 := fun digit hdigit =>
        hsmall digit (List.mem_append_left _ hdigit)
      have hlast : last < 10 := hsmall last (List.mem_append_right _ List.mem_cons_self)
      rw [List.map_append, List.map_singleton, Decimal.value_append_singleton, ih hfront,
        Decimal.toNat_digitChar hlast, List.reverse_concat, Nat.ofDigits_cons]
      exact Nat.add_comm _ _

end SpellsDigits

/-- A run of digits does not start with a minus sign. -/
theorem ne_minus_of_isDigits {text : List Char} (h : Decimal.isDigits text = true)
    (rest : List Char) : text ≠ '-' :: rest := by
  intro hminus
  have hdigit := (isDigits_iff.mp h).2 '-' (hminus ▸ List.mem_cons_self)
  exact absurd hdigit (by decide)

/-- **Decimal numbers.**  A text is a decimal number if it passes the test for one, and has the
value that is read. -/
theorem isDecimal_iff {text : List Char} {value : Int} :
    IsDecimal text value ↔
      Decimal.isNumeral text = true ∧ Decimal.numeralValue text = value := by
  constructor
  · intro h
    cases h with
    | plain hdigits =>
        obtain ⟨hnumeral, hvalue⟩ :=
          Decimal.numeral_of_no_minus (ne_minus_of_isDigits hdigits.isDigits)
        rw [hnumeral, hvalue, hdigits.value_eq]
        exact ⟨hdigits.isDigits, rfl⟩
    | negative htext hdigits =>
        subst htext
        rw [← hdigits.value_eq]
        exact ⟨hdigits.isDigits, rfl⟩
  · intro h
    obtain ⟨hnumeral, rfl⟩ := h
    by_cases hminus : ∃ rest, text = '-' :: rest
    · obtain ⟨rest, rfl⟩ := hminus
      obtain ⟨digits, hdigits⟩ := exists_spellsDigits hnumeral
      show IsDecimal _ (-(Decimal.value rest : Int))
      rw [hdigits.value_eq]
      exact .negative rfl hdigits
    · obtain ⟨hsame, hvalue⟩ :=
        Decimal.numeral_of_no_minus fun rest hrest => hminus ⟨rest, hrest⟩
      obtain ⟨digits, hdigits⟩ := exists_spellsDigits (hsame ▸ hnumeral)
      rw [hvalue, hdigits.value_eq]
      exact .plain hdigits

/-- A decimal number starts with a minus sign or a digit. -/
theorem IsDecimal.exists_first {text : List Char} {value : Int} (h : IsDecimal text value) :
    ∃ c rest, text = c :: rest ∧ (c = '-' ∨ Decimal.isDigit c = true) := by
  cases h with
  | plain hdigits =>
      obtain ⟨hne, hall⟩ := isDigits_iff.mp hdigits.isDigits
      obtain ⟨c, rest, rfl⟩ := List.exists_cons_of_ne_nil hne
      exact ⟨c, rest, rfl, .inr (hall c List.mem_cons_self)⟩
  | negative htext hdigits => exact ⟨'-', _, htext, .inl rfl⟩

/-! ## Reading in a signed byte -/

/-- An integer in a signed byte, if it fits. -/
def inByte (x : Int) : Option Int8 :=
  if -128 ≤ x ∧ x ≤ 127 then some (Int8.ofInt x) else none

/-- A number of steps away from zero, to the side of a sign. -/
def signed (negative : Bool) (n : Nat) : Int :=
  if negative then -n else n

/-- Take digits one by one behind what has been read: shift by one place, then add the digit or
take it away.  Both must fit. -/
def readDigits (negative : Bool) (read : Int8) : List Char → Option Int8
  | [] => some read
  | c :: rest => do
    let shifted ← inByte (10 * read.toInt)
    let next ← inByte (shifted.toInt + signed negative (c.toNat - 48))
    readDigits negative next rest

/-- Read a decimal number digit by digit. -/
def readImmediate : List Char → Option Int8
  | '-' :: rest => readDigits true 0 rest
  | text => readDigits false 0 text

theorem inByte_eq_some {x : Int} {byte : Int8} : inByte x = some byte ↔ byte.toInt = x := by
  unfold inByte
  constructor
  · intro h
    split at h
    case isTrue hrange =>
      obtain rfl := Option.some.inj h
      exact Int8.toInt_ofInt_of_le hrange.1 (Int.lt_add_one_of_le hrange.2)
    case isFalse => cases h
  · intro h
    subst h
    rw [if_pos ⟨byte.minValue_le_toInt, byte.toInt_le⟩, Int8.ofInt_toInt]

theorem inByte_eq_none {x : Int} : inByte x = none ↔ ¬ (-128 ≤ x ∧ x ≤ 127) := by
  simp [inByte]

theorem signed_add (negative : Bool) (m n : Nat) :
    signed negative (m + n) = signed negative m + signed negative n := by
  cases negative with
  | true =>
      show -((m + n : Nat) : Int) = -(m : Int) + -(n : Int)
      omega
  | false => rfl

theorem signed_ten_mul (negative : Bool) (n : Nat) :
    signed negative (10 * n) = 10 * signed negative n := by
  cases negative <;> simp [signed]

/-- **Out of range for good.**  What lies further from zero on the same side than a number that
does not fit, does not fit either. -/
theorem inByte_eq_none_of_le {negative : Bool} {m n : Nat} (hle : m ≤ n)
    (h : inByte (signed negative m) = none) : inByte (signed negative n) = none := by
  rw [inByte_eq_none] at h ⊢
  cases negative <;> simp only [signed, if_true, Bool.false_eq_true, if_false] at h ⊢ <;> omega

/-- A number with one more digit behind it. -/
def withDigit (n : Nat) (c : Char) : Nat :=
  10 * n + (c.toNat - 48)

/-- Digits behind a number make it no smaller. -/
theorem le_foldl_withDigit (n : Nat) (text : List Char) : n ≤ text.foldl withDigit n := by
  induction text generalizing n with
  | nil => exact Nat.le_refl n
  | cons c rest ih =>
      have hstep : n ≤ withDigit n c := by
        unfold withDigit
        omega
      exact Nat.le_trans hstep (ih _)

/-- Behind what fits and has been read, the digits are read exactly if the number that they
complete fits. -/
theorem readDigits_eq {negative : Bool} {n : Nat} {read : Int8}
    (hread : read.toInt = signed negative n) (text : List Char) :
    readDigits negative read text = inByte (signed negative (text.foldl withDigit n)) := by
  induction text generalizing n read with
  | nil => exact (inByte_eq_some.mpr hread).symm
  | cons c rest ih =>
      have hbehind : withDigit n c ≤ rest.foldl withDigit (withDigit n c) :=
        le_foldl_withDigit (withDigit n c) rest
      have hdigit : 10 * n ≤ withDigit n c := Nat.le_add_right _ _
      rw [readDigits, hread, ← signed_ten_mul, List.foldl_cons]
      cases hshifted : inByte (signed negative (10 * n)) with
      | none => exact (inByte_eq_none_of_le (Nat.le_trans hdigit hbehind) hshifted).symm
      | some shifted =>
          rw [Option.bind_eq_bind, Option.bind_some, inByte_eq_some.mp hshifted, ← signed_add,
            ← withDigit]
          cases hnext : inByte (signed negative (withDigit n c)) with
          | none => exact (inByte_eq_none_of_le hbehind hnext).symm
          | some next => exact ih (inByte_eq_some.mp hnext)

/-- **Digit by digit.**  Reading in a signed byte gives the value of the number if it fits, and
nothing if it does not. -/
theorem readImmediate_eq (text : List Char) :
    readImmediate text = inByte (Decimal.numeralValue text) := by
  unfold readImmediate
  split
  case h_1 rest =>
    have hstart : (0 : Int8).toInt = signed true 0 := by decide
    exact readDigits_eq hstart rest
  case h_2 hminus =>
    have hstart : (0 : Int8).toInt = signed false 0 := by decide
    rw [(Decimal.numeral_of_no_minus hminus).2]
    exact readDigits_eq hstart text

/-! ## Encoding -/

/-- The byte of a number that fits is its value modulo 256. -/
theorem toUInt8_ofInt_eq_iff {value : Int} {byte : UInt8} :
    (Int8.ofInt value).toUInt8 = byte ↔ (byte.toNat : Int) = value % 256 := by
  have hbyte : ((Int8.ofInt value).toUInt8.toNat : Int) = value % 256 := by
    show ((BitVec.ofInt 8 value).toNat : Int) = value % 256
    rw [BitVec.toNat_ofInt]
    exact Int.toNat_of_nonneg (Int.emod_nonneg value (by decide))
  rw [← hbyte, Int.ofNat_inj, UInt8.toNat_inj, eq_comm]

section
variable {text : String} {value : Int}

/-- **Numbers that fit.**  A decimal number is encoded exactly if it is between -128 and 127,
and then to its value modulo 256. -/
theorem encodeImmediate_eq_ok (h : IsDecimal text.toList value) {byte : UInt8} :
    encodeImmediate text = .ok byte ↔
      (-128 ≤ value ∧ value ≤ 127) ∧ (byte.toNat : Int) = value % 256 := by
  obtain ⟨-, rfl⟩ := isDecimal_iff.mp h
  unfold encodeImmediate
  dsimp only
  split
  case isTrue hrange =>
    rw [Except.ok.injEq, toUInt8_ofInt_eq_iff]
    exact (and_iff_right hrange).symm
  case isFalse hrange =>
    constructor
    · intro herror
      cases herror
    · intro hboth
      exact absurd hboth.1 hrange

/-- **Numbers that do not fit.**  Any other decimal number is out of range. -/
theorem encodeImmediate_eq_error (h : IsDecimal text.toList value) {fault : Fault} :
    encodeImmediate text = .error fault ↔
      ¬ (-128 ≤ value ∧ value ≤ 127) ∧ fault = .immediateOutOfRange text := by
  obtain ⟨-, rfl⟩ := isDecimal_iff.mp h
  unfold encodeImmediate
  dsimp only
  split
  case isTrue hrange =>
    constructor
    · intro hok
      cases hok
    · intro hboth
      exact absurd hrange hboth.1
  case isFalse hrange =>
    rw [Except.error.injEq, eq_comm]
    exact (and_iff_right hrange).symm

end

/-- **The encoder and the reader.**  A number is encoded to the byte that is read digit by digit,
and is out of range if the reader stops. -/
theorem encodeImmediate_eq_read (text : String) :
    encodeImmediate text = (readImmediate text.toList).elim
      (.error (.immediateOutOfRange text)) fun byte => .ok byte.toUInt8 := by
  rw [readImmediate_eq]
  unfold encodeImmediate inByte
  dsimp only
  split <;> rfl

end ByteMachine
