import ByteMachine.Machine.Arithmetic
import Mathlib.Algebra.Order.Ring.Int

/-!
# Exactness of the arithmetic

Results are brought into the range by two folds that work modulo 128, and not by dropping
the bits above the lowest eight.  A fold gets these eight bits right except for the top one,
whose value it takes from the side on which the result has left the range.  So the two ways
agree as long as the next multiple of 128 is the only one that has been passed, which holds
for everything but products.

* `Folded` — what the folds make of a value;
* `normalize_eq_ofInt_iff`, `normalize_eq_or_xor` — where folding is dropping bits, and what
  it is elsewhere;
* `Unary.onWords`, `Binary.onWords` — the arithmetic on words of 32 bits;
* `arithmetic_exact` — what the arithmetic computes.
-/

namespace ByteMachine

/-! ## Folds -/

/-- What the folds make of a value `x`. -/
structure Folded (x v : Int) : Prop where
  inRange : -128 ≤ v ∧ v ≤ 127
  inside : -128 ≤ x → x ≤ 127 → v = x
  above : 128 ≤ x → v % 128 = x % 128 ∧ v < 0
  below : x < -128 → v % 128 = x % 128 ∧ 0 ≤ v

theorem folded_foldOverflow_foldUnderflow (x : Int) :
    Folded x (foldOverflow (foldUnderflow x)) := by
  unfold foldOverflow foldUnderflow
  constructor <;> split <;> split <;> omega

theorem folded_foldUnderflow_foldOverflow (x : Int) :
    Folded x (foldUnderflow (foldOverflow x)) := by
  unfold foldOverflow foldUnderflow
  constructor <;> split <;> split <;> omega

theorem Folded.unique {x v w : Int} (hv : Folded x v) (hw : Folded x w) : v = w := by
  obtain ⟨⟨_, _⟩, hinside, habove, hbelow⟩ := hv
  obtain ⟨⟨_, _⟩, hinside', habove', hbelow'⟩ := hw
  omega

theorem toInt_range (x : Int8) : -128 ≤ x.toInt ∧ x.toInt ≤ 127 :=
  ⟨x.le_toInt, Int.le_of_lt_add_one x.toInt_lt⟩

theorem toInt_ofInt_of_range {v : Int} (h : -128 ≤ v ∧ v ≤ 127) :
    (Int8.ofInt v).toInt = v := by
  rw [Int8.toInt_ofInt]
  exact Int.bmod_eq_of_le h.1 (Int.lt_add_one_of_le h.2)

theorem toInt_normalize (x : Int) :
    (normalize x).toInt = foldOverflow (foldUnderflow x) :=
  toInt_ofInt_of_range (folded_foldOverflow_foldUnderflow x).inRange

theorem folded_normalize (x : Int) : Folded x (normalize x).toInt := by
  rw [toInt_normalize]
  exact folded_foldOverflow_foldUnderflow x

/-- **Normal values.**  There is exactly one value that the folds make of another one. -/
theorem folded_iff (x v : Int) : Folded x v ↔ v = (normalize x).toInt := by
  constructor
  · intro h
    exact h.unique (folded_normalize x)
  · rintro rfl
    exact folded_normalize x

/-! ## Folding and dropping bits -/

/-- The value is in the range, or the number of multiples of 128 that it has passed is such
that the fold gives the lowest eight bits (`normalize_eq_ofInt_iff`). -/
def FoldsEvenly (x : Int) : Prop :=
  (-128 ≤ x ∧ x ≤ 127) ∨ (128 ≤ x ∧ x / 128 % 2 = 1) ∨ (x < -128 ∧ x / 128 % 2 = 0)

instance (x : Int) : Decidable (FoldsEvenly x) :=
  inferInstanceAs (Decidable (_ ∨ _))

private theorem eq_ofInt_of_dvd {v : Int8} {x : Int} (h : (256 : Int) ∣ v.toInt - x) :
    v = Int8.ofInt x := by
  have hbmod := (Int.bmod_eq_iff (by decide)).mpr ⟨v.le_toInt, v.toInt_lt, h⟩
  exact ((Int8.ofInt_eq_iff_bmod_eq_toInt x v).mpr hbmod).symm

/-- **Uneven folds.**  A value that is not folded evenly ends 128 away from the bits that
are kept. -/
theorem normalize_cases (x : Int) :
    FoldsEvenly x ∧ normalize x = Int8.ofInt x ∨
      ¬ FoldsEvenly x ∧ normalize x = Int8.ofInt (x + 128) := by
  obtain ⟨⟨hlow, hhigh⟩, hinside, habove, hbelow⟩ := folded_normalize x
  by_cases h : FoldsEvenly x
  · refine .inl ⟨h, eq_ofInt_of_dvd ?_⟩
    unfold FoldsEvenly at h
    omega
  · refine .inr ⟨h, eq_ofInt_of_dvd ?_⟩
    unfold FoldsEvenly at h
    omega

/-- Adding 128 changes the top bit and no other one. -/
theorem ofInt_add_xor (x : Int) :
    Int8.ofInt (x + 128) ^^^ Int8.ofInt x = Int8.minValue := by
  have hbits : ∀ byte : BitVec 8, (byte + 128#8) ^^^ byte = 128#8 := by decide
  rw [Int8.ofInt_add, ← Int8.toBitVec_inj]
  exact hbits (Int8.ofInt x).toBitVec

/-- Where folding is not the same as dropping bits, the top bit differs and no other one. -/
theorem normalize_eq_or_xor (x : Int) :
    normalize x = Int8.ofInt x ∨ normalize x ^^^ Int8.ofInt x = Int8.minValue := by
  rcases normalize_cases x with ⟨-, heven⟩ | ⟨-, huneven⟩
  · exact .inl heven
  · rw [huneven]
    exact .inr (ofInt_add_xor x)

theorem normalize_eq_ofInt_iff (x : Int) : normalize x = Int8.ofInt x ↔ FoldsEvenly x := by
  rcases normalize_cases x with ⟨h, heven⟩ | ⟨h, huneven⟩
  · exact iff_of_true heven h
  · refine iff_of_false (fun heq => ?_) h
    have hxor := ofInt_add_xor x
    rw [← huneven, heq, Int8.xor_self] at hxor
    exact absurd hxor (by decide)

/-- What is out of the range by 128 at most is folded evenly. -/
theorem normalize_eq_ofInt {x : Int} (hlow : -256 ≤ x) (hhigh : x < 256) :
    normalize x = Int8.ofInt x :=
  (normalize_eq_ofInt_iff x).mpr (by unfold FoldsEvenly; omega)

/-! ## Shifts -/

/-- A shift to the left is a multiplication, also where nothing is left of the word. -/
theorem shiftLeft_eq (x : Int8) (count : Nat) :
    shiftLeft x count = Int8.ofInt (x.toInt * 2 ^ count) := by
  unfold shiftLeft
  split
  case isTrue => rw [Int.shiftLeft_eq]
  case isFalse hcount =>
    rw [shiftWidth] at hcount
    have hdvd : (256 : Int) ∣ 2 ^ count := pow_dvd_pow 2 (by omega : 8 ≤ count)
    refine eq_ofInt_of_dvd ?_
    rw [Int8.toInt_zero, Int.zero_sub, Int.dvd_neg]
    exact Int.dvd_mul_of_dvd_right hdvd

private theorem ediv_two_pow_range (x : Int8) (count : Nat) :
    -128 ≤ x.toInt / 2 ^ count ∧ x.toInt / 2 ^ count ≤ 127 := by
  obtain ⟨hlow, hhigh⟩ := toInt_range x
  have hpos : (0 : Int) < 2 ^ count := Int.pow_pos (by decide)
  constructor
  · exact Int.le_ediv_of_mul_le hpos (by omega)
  · exact Int.le_of_lt_add_one (Int.ediv_lt_of_lt_mul hpos (by omega))

/-- When seven bits have been dropped, the sign is what is left. -/
private theorem ediv_two_pow_of_le (x : Int8) {count : Nat} (h : 7 ≤ count) :
    x.toInt / 2 ^ count = if x.toInt < 0 then -1 else 0 := by
  obtain ⟨hlow, hhigh⟩ := toInt_range x
  have hpow : (2 : Int) ^ 7 ≤ 2 ^ count := pow_le_pow_right₀ (by decide) h
  split
  case isTrue hneg => exact Int.ediv_eq_neg_one_of_neg_of_le hneg (by omega)
  case isFalse hnonneg => exact Int.ediv_eq_zero_of_lt (by omega) (by omega)

/-- A shift to the right is a division that rounds down, also where the count is cut. -/
theorem toInt_shiftRight (x : Int8) (count : Nat) :
    (shiftRight x count).toInt = x.toInt / 2 ^ count := by
  have hcut : x.toInt / 2 ^ min count (shiftWidth - 1) = x.toInt / 2 ^ count := by
    rw [shiftWidth]
    by_cases h : count ≤ 31
    · rw [Nat.min_eq_left h]
    · rw [Nat.min_eq_right (by omega), ediv_two_pow_of_le x (by omega),
        ediv_two_pow_of_le x (by omega)]
  rw [shiftRight, Int.shiftRight_eq_div_pow, Int.natCast_pow, ← hcut]
  exact toInt_ofInt_of_range (ediv_two_pow_range x _)

/-! ## Words -/

/-- The values of a word of 32 bits. -/
def InWord (x : Int) : Prop :=
  -2147483648 ≤ x ∧ x ≤ 2147483647

instance (x : Int) : Decidable (InWord x) :=
  inferInstanceAs (Decidable (_ ∧ _))

/-- The result of an operation on words, unless it overflows. -/
def word (x : Int) : Option Int :=
  if InWord x then some x else none

/-- `foldUnderflow` on words. -/
def foldUnderflowWord (x : Int) : Option Int :=
  if -128 ≤ x then some x else word (x % 128)

/-- `foldOverflow` on words. -/
def foldOverflowWord (x : Int) : Option Int :=
  if x < 128 then some x else word (x % 128) >>= fun r => word (r - 128)

/-- `normalize` on words. -/
def normalizeWord (x : Int) : Option Int8 :=
  Int8.ofInt <$> (foldUnderflowWord x >>= foldOverflowWord)

/-- The value of a unary operation on words. -/
def Unary.onWords (x : Int8) : Unary → Option Int8
  | .neg => word (-x.toInt) >>= normalizeWord
  | u => some (u.result x)

/-- The value of a binary operation on words.  A remainder overflows where the quotient
does. -/
def Binary.onWords (source destination : Int8) : Binary → Option (Except Fault Int8)
  | .add => .ok <$> (word (source.toInt + destination.toInt) >>= normalizeWord)
  | .sub => .ok <$> (word (destination.toInt - source.toInt) >>= normalizeWord)
  | .mul => .ok <$> (word (source.toInt * destination.toInt) >>= normalizeWord)
  | .div =>
    if destination = 0 then some (.error .divisionByZero)
    else .ok <$> (word (source.toInt.tdiv destination.toInt) >>= normalizeWord)
  | .mod =>
    if destination = 0 then some (.error .divisionByZero)
    else .ok <$> (word (source.toInt.tdiv destination.toInt) >>= fun _ =>
      word (source.toInt.tmod destination.toInt) >>= normalizeWord)
  | b => some (b.result source destination)

theorem word_eq {x : Int} (h : InWord x) : word x = some x :=
  if_pos h

theorem foldUnderflowWord_eq (x : Int) : foldUnderflowWord x = some (foldUnderflow x) := by
  unfold foldUnderflowWord foldUnderflow
  split
  · rfl
  · exact word_eq (by unfold InWord; omega)

theorem foldOverflowWord_eq (x : Int) : foldOverflowWord x = some (foldOverflow x) := by
  unfold foldOverflowWord foldOverflow
  split
  · rfl
  · rw [word_eq (by unfold InWord; omega)]
    exact word_eq (by unfold InWord; omega)

theorem normalizeWord_eq (x : Int) : normalizeWord x = some (normalize x) := by
  rw [normalizeWord, foldUnderflowWord_eq, Option.bind_eq_bind, Option.bind_some,
    foldOverflowWord_eq]
  rfl

/-- What fits into a word is brought into the range without an overflow. -/
theorem word_bind_normalizeWord {x : Int} (h : InWord x) :
    word x >>= normalizeWord = some (normalize x) := by
  rw [word_eq h]
  exact normalizeWord_eq x

/-- A product of two values is the greatest of the values that the arithmetic meets. -/
private theorem inWord_of_natAbs_le {x : Int} (h : x.natAbs ≤ 128 * 128) : InWord x := by
  unfold InWord
  omega

theorem natAbs_toInt_le (x : Int8) : x.toInt.natAbs ≤ 128 := by
  obtain ⟨hlow, hhigh⟩ := toInt_range x
  omega

theorem natAbs_mul_le (x y : Int8) : (x.toInt * y.toInt).natAbs ≤ 128 * 128 := by
  rw [Int.natAbs_mul]
  exact Nat.mul_le_mul (natAbs_toInt_le x) (natAbs_toInt_le y)

theorem natAbs_tdiv_le (x y : Int8) : (x.toInt.tdiv y.toInt).natAbs ≤ 128 :=
  Nat.le_trans (Int.natAbs_tdiv_le_natAbs ..) (natAbs_toInt_le x)

theorem natAbs_tmod_le (x y : Int8) : (x.toInt.tmod y.toInt).natAbs ≤ 128 := by
  rw [Int.natAbs_tmod]
  exact Nat.le_trans (Nat.mod_le ..) (natAbs_toInt_le x)

/-- **No overflows.**  No step of a unary operation overflows. -/
theorem Unary.onWords_eq (x : Int8) (u : Unary) : u.onWords x = some (u.result x) := by
  have hx := natAbs_toInt_le x
  cases u with
  | neg => exact word_bind_normalizeWord (inWord_of_natAbs_le (by omega))
  | not | popcount | clz => rfl

/-- **No overflows.**  No step of a binary operation overflows. -/
theorem Binary.onWords_eq (source destination : Int8) (b : Binary) :
    b.onWords source destination = some (b.result source destination) := by
  have hsource := natAbs_toInt_le source
  have hdestination := natAbs_toInt_le destination
  have hquotient := natAbs_tdiv_le source destination
  have hremainder := natAbs_tmod_le source destination
  cases b with
  | add =>
      rw [Binary.onWords, word_bind_normalizeWord (inWord_of_natAbs_le (by omega))]
      rfl
  | sub =>
      rw [Binary.onWords, word_bind_normalizeWord (inWord_of_natAbs_le (by omega))]
      rfl
  | mul =>
      rw [Binary.onWords,
        word_bind_normalizeWord (inWord_of_natAbs_le (natAbs_mul_le source destination))]
      rfl
  | div =>
      rw [Binary.onWords, Binary.result,
        word_bind_normalizeWord (inWord_of_natAbs_le (by omega))]
      split <;> rfl
  | mod =>
      rw [Binary.onWords, Binary.result,
        word_bind_normalizeWord (inWord_of_natAbs_le (by omega)),
        word_eq (inWord_of_natAbs_le (by omega))]
      split <;> rfl
  | or | and | xor | shl | shr => rfl

/-! ## The arithmetic -/

/-- **The arithmetic.**  The folds make exactly one value of a value, in any order.  Sums,
differences, negations, quotients and remainders are the exact results without the bits
above the lowest eight.  So is a product unless folding is uneven, where it differs in the
top bit.  Shifts are multiplications and divisions by powers of two.  Quotients and remainders
fail where the destination is zero, and nothing overflows. -/
theorem arithmetic_exact :
    (∀ x v, Folded x v ↔ v = (normalize x).toInt) ∧
    (∀ x, foldOverflow (foldUnderflow x) = (normalize x).toInt ∧
      foldUnderflow (foldOverflow x) = (normalize x).toInt) ∧
    ∀ x y : Int8,
      Binary.add.result x y = .ok (.ofInt (x.toInt + y.toInt)) ∧
      Binary.sub.result x y = .ok (.ofInt (y.toInt - x.toInt)) ∧
      Unary.neg.result x = .ofInt (-x.toInt) ∧
      Binary.div.result x y =
        (if y = 0 then .error .divisionByZero else .ok (.ofInt (x.toInt.tdiv y.toInt))) ∧
      Binary.mod.result x y =
        (if y = 0 then .error .divisionByZero else .ok (.ofInt (x.toInt.tmod y.toInt))) ∧
      (∃ product, Binary.mul.result x y = .ok product ∧
        (product = .ofInt (x.toInt * y.toInt) ↔ FoldsEvenly (x.toInt * y.toInt)) ∧
        (product = .ofInt (x.toInt * y.toInt) ∨
          product ^^^ .ofInt (x.toInt * y.toInt) = Int8.minValue)) ∧
      Binary.shl.result x y = .ok (.ofInt (x.toInt * 2 ^ y.toUInt8.toNat)) ∧
      (∃ quotient, Binary.shr.result x y = .ok quotient ∧
        quotient.toInt = x.toInt / 2 ^ y.toUInt8.toNat) ∧
      (∀ u : Unary, u.onWords x = some (u.result x)) ∧
      ∀ b : Binary, b.onWords x y = some (b.result x y) := by
  refine ⟨folded_iff, fun x => ⟨?overflowLast, ?underflowLast⟩, fun x y =>
    ⟨?add, ?sub, ?neg, ?div, ?mod, ?mul, ?shl, ?shr, Unary.onWords_eq x,
      Binary.onWords_eq x y⟩⟩
  case overflowLast => exact (toInt_normalize x).symm
  case underflowLast => exact (folded_iff _ _).mp (folded_foldUnderflow_foldOverflow x)
  case mul =>
    exact ⟨_, rfl, normalize_eq_ofInt_iff _, normalize_eq_or_xor _⟩
  case shl => exact congrArg Except.ok (shiftLeft_eq _ _)
  case shr => exact ⟨_, rfl, toInt_shiftRight _ _⟩
  all_goals
    have hx := toInt_range x
    have hy := toInt_range y
    have hquotient := natAbs_tdiv_le x y
    have hremainder := natAbs_tmod_le x y
  case add => exact congrArg Except.ok (normalize_eq_ofInt (by omega) (by omega))
  case sub => exact congrArg Except.ok (normalize_eq_ofInt (by omega) (by omega))
  case neg => exact normalize_eq_ofInt (by omega) (by omega)
  case div => rw [Binary.result, normalize_eq_ofInt (by omega) (by omega)]
  case mod => rw [Binary.result, normalize_eq_ofInt (by omega) (by omega)]

/-- The square of 16 has its lowest eight bits clear, but is twice 128. -/
example : Binary.mul.result 16 16 = .ok (-128) := by decide

end ByteMachine
