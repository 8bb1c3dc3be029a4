import ByteMachine.Engine.Settings
import ByteMachine.Proofs.Text.Blank
import Mathlib.Algebra.Group.Nat.Defs

/-!
# Texts that settings understand

White space around a text is trimmed first.  What a count or a truth value consists of is never
white space, so that the texts which are understood can be told without trimming: white space,
a word of a certain form, and white space again.

* `Settings.readStepLimit_eq_some_iff` — the texts of counts;
* `Settings.readSwitch_eq_some_iff` — the texts of truth values;
* `Settings.ofEnvironment_fst` — each setting depends on its own variable alone;
* `Settings.ofEnvironment_of_trace`, `Settings.ofEnvironment_of_stepLimit` — a variable with a
  malformed value counts as one that is not set, except for a warning.
-/

namespace ByteMachine

namespace Settings

/-! ## Counts -/

/-- A text is white space, a plus sign or none, digits that denote a positive number of 64 bits,
and white space. -/
def IsCount (raw : String) (count : Nat) : Prop :=
  ∃ front sign digits back, raw.toList = front ++ (sign ++ digits) ++ back ∧
    Blank.IsBlank front ∧ Blank.IsBlank back ∧ (sign = [] ∨ sign = ['+']) ∧
    Decimal.isDigits digits = true ∧ Decimal.value digits = count ∧
    1 ≤ count ∧ count ≤ 2 ^ 64 - 1

theorem isBlank_of_isDigit {c : Char} (h : Decimal.isDigit c = true) :
    Blank.isBlank c = false := by
  simp only [Decimal.isDigit, Bool.and_eq_true, decide_eq_true_eq, Char.le_def,
    UInt32.le_iff_toNat_le] at h
  have hlow : 48 ≤ c.toNat := h.1
  have hhigh : c.toNat ≤ 57 := h.2
  simp only [Blank.isBlank, Blank.ranges, List.any_cons, List.any_nil, Bool.or_false,
    Bool.or_eq_false_iff, Bool.and_eq_false_iff, decide_eq_false_iff_not]
  omega

/-- What is in front of the digits of a count. -/
theorem exists_sign (text : List Char) :
    ∃ sign, (sign = [] ∨ sign = ['+']) ∧ text = sign ++ countDigits text := by
  unfold countDigits
  split
  · exact ⟨['+'], Or.inr rfl, rfl⟩
  · exact ⟨[], Or.inl rfl, rfl⟩

variable {sign digits : List Char}

theorem countDigits_append (hsign : sign = [] ∨ sign = ['+'])
    (hdigits : Decimal.isDigits digits = true) : countDigits (sign ++ digits) = digits := by
  obtain rfl | rfl := hsign
  · rw [List.nil_append]
    unfold countDigits
    split
    case h_1 rest => exact absurd hdigits (by simp [Decimal.isDigits, Decimal.isDigit])
    case h_2 => rfl
  · rfl

/-- No part of a count is white space. -/
theorem isBlank_of_mem_count (hsign : sign = [] ∨ sign = ['+'])
    (hdigits : Decimal.isDigits digits = true) :
    ∀ c ∈ sign ++ digits, Blank.isBlank c = false := by
  intro c hc
  rw [Decimal.isDigits, Bool.and_eq_true, List.all_eq_true] at hdigits
  rcases List.mem_append.mp hc with hc | hc
  · obtain rfl | rfl := hsign
    · cases hc
    · rw [List.mem_singleton.mp hc]
      decide
  · exact isBlank_of_isDigit (hdigits.2 c hc)

/-- **Counts.**  The texts that set a limit, and the limits that they set. -/
theorem readStepLimit_eq_some_iff {raw : String} {count : Nat} :
    readStepLimit raw = some count ↔ IsCount raw count := by
  constructor
  · intro h
    obtain ⟨front, back, htext, hfront, hback⟩ := Blank.exists_trim raw.toList
    obtain ⟨sign, hsign, hword⟩ := exists_sign (Blank.trim raw.toList)
    rw [hword] at htext
    simp only [readStepLimit, Option.ite_none_right_eq_some, Option.some.injEq] at h
    obtain ⟨hdigits, ⟨hpos, hmax⟩, rfl⟩ := h
    exact ⟨front, sign, _, back, htext, hfront, hback, hsign, hdigits, rfl, hpos, hmax⟩
  · rintro ⟨front, sign, digits, back, htext, hfront, hback, hsign, hdigits, rfl, hpos, hmax⟩
    have hsolid := isBlank_of_mem_count hsign hdigits
    have htrim : Blank.trim raw.toList = sign ++ digits := by
      rw [htext]
      exact Blank.trim_append hfront hback (fun c hc => hsolid c (List.mem_of_head? hc))
        (fun c hc => hsolid c (List.mem_of_getLast? hc))
    rw [readStepLimit, htrim, countDigits_append hsign hdigits, if_pos hdigits]
    exact if_pos ⟨hpos, hmax⟩

/-! ## Truth values -/

/-- The words for a truth value, in small letters. -/
def switchWords : Bool → List String
  | true => ["1", "true"]
  | false => ["0", "false", ""]

/-- A text is white space, a word for a truth value in letters of any size, and white space. -/
def IsSwitch (raw : String) (value : Bool) : Prop :=
  ∃ front word back, raw.toList = front ++ word ++ back ∧
    Blank.IsBlank front ∧ Blank.IsBlank back ∧
    String.ofList (word.map Char.toLower) ∈ switchWords value

/-- White space has no small letters of its own. -/
theorem toLower_of_isBlank {c : Char} (h : Blank.isBlank c = true) : c.toLower = c := by
  unfold Char.toLower
  split
  case isTrue hupper =>
    have hlow : 65 ≤ c.toNat := UInt32.le_iff_toNat_le.mp hupper.1
    have hhigh : c.toNat ≤ 90 := UInt32.le_iff_toNat_le.mp hupper.2
    simp only [Blank.isBlank, Blank.ranges, List.any_cons, List.any_nil, Bool.or_false,
      Bool.or_eq_true, Bool.and_eq_true, decide_eq_true_eq] at h
    omega
  case isFalse => rfl

/-- No part of a word for a truth value is white space. -/
theorem isBlank_of_mem_switchWord {word : List Char} {value : Bool}
    (h : String.ofList (word.map Char.toLower) ∈ switchWords value) :
    ∀ c ∈ word, Blank.isBlank c = false := by
  have hwords : (switchWords value).all (fun name => name.toList.all (!Blank.isBlank ·)) = true := by
    cases value <;> decide +kernel
  intro c hc
  cases hblank : Blank.isBlank c with
  | false => rfl
  | true =>
      have hmem : c.toLower ∈ (String.ofList (word.map Char.toLower)).toList := by
        rw [String.toList_ofList]
        exact List.mem_map_of_mem hc
      have hlower := List.all_eq_true.mp (List.all_eq_true.mp hwords _ h) _ hmem
      rw [toLower_of_isBlank hblank, hblank] at hlower
      cases hlower

/-- **Truth values.**  The texts that turn tracing on and those that leave it off. -/
theorem readSwitch_eq_some_iff {raw : String} {value : Bool} :
    readSwitch raw = some value ↔ IsSwitch raw value := by
  have hread : ∀ word, Blank.trim raw.toList = word →
      (readSwitch raw = some value ↔
        String.ofList (word.map Char.toLower) ∈ switchWords value) := by
    rintro word rfl
    rw [readSwitch]
    generalize String.ofList ((Blank.trim raw.toList).map Char.toLower) = name
    cases value <;> simp only [switchWords, List.mem_cons, List.not_mem_nil, or_false] <;> grind
  constructor
  · intro h
    obtain ⟨front, back, htext, hfront, hback⟩ := Blank.exists_trim raw.toList
    exact ⟨front, _, back, htext, hfront, hback, (hread _ rfl).mp h⟩
  · rintro ⟨front, word, back, htext, hfront, hback, hword⟩
    have hsolid := isBlank_of_mem_switchWord hword
    refine (hread word ?_).mpr hword
    rw [htext]
    exact Blank.trim_append hfront hback (fun c hc => hsolid c (List.mem_of_head? hc))
      (fun c hc => hsolid c (List.mem_of_getLast? hc))

/-! ## Variables -/

/-- The record that reports a variable with a malformed value. -/
def warning (name raw expected : String) : Record :=
  ⟨.warn, "Ignoring " ++ name ++ "=" ++ raw ++ ": expected " ++ expected⟩

variable {α : Type} {name expected : String} {read : String → Option α}

theorem readVariable_fst (value : Option String) :
    (readVariable name expected read value).1 = value.bind read := by
  cases value with
  | none => rfl
  | some raw =>
      rw [readVariable, Option.bind_some]
      cases read raw <;> rfl

/-- A variable with a malformed value is reported once. -/
theorem readVariable_of_malformed {raw : String} (h : read raw = none) :
    readVariable name expected read (some raw) = (none, [warning name raw expected]) := by
  rw [readVariable, h]
  rfl

/-- Any other variable is not reported. -/
theorem readVariable_snd {value : Option String}
    (h : ∀ raw, value = some raw → read raw ≠ none) :
    (readVariable name expected read value).2 = [] := by
  cases value with
  | none => rfl
  | some raw =>
      obtain ⟨result, hresult⟩ := Option.ne_none_iff_exists'.mp (h raw rfl)
      rw [readVariable, hresult]

variable {environment : Environment}

/-- **One variable for each setting.** -/
theorem ofEnvironment_fst :
    (ofEnvironment environment).1 =
      { trace := (environment.trace.bind readSwitch).getD default.trace
        stepLimit := environment.stepLimit.bind readStepLimit } := by
  rw [ofEnvironment, ← readVariable_fst, ← readVariable_fst]

/-- A run is traced if the variable says so. -/
theorem trace_ofEnvironment :
    (ofEnvironment environment).1.trace = true ↔
      ∃ raw, environment.trace = some raw ∧ readSwitch raw = some true := by
  rw [ofEnvironment_fst, ← Option.bind_eq_some_iff]
  cases environment.trace.bind readSwitch <;> simp [default]

/-- A malformed trace variable counts as none, except for a warning. -/
theorem ofEnvironment_of_trace {raw : String} (htrace : environment.trace = some raw)
    (hread : readSwitch raw = none) :
    ofEnvironment environment =
      ((ofEnvironment { environment with trace := none }).1,
        warning traceVariable raw "1, 0, true or false" ::
          (ofEnvironment { environment with trace := none }).2) := by
  rw [ofEnvironment, htrace, readVariable_of_malformed hread]
  rfl

/-- A malformed limit variable counts as none, except for a warning. -/
theorem ofEnvironment_of_stepLimit {raw : String} (hlimit : environment.stepLimit = some raw)
    (hread : readStepLimit raw = none) :
    ofEnvironment environment =
      ((ofEnvironment { environment with stepLimit := none }).1,
        (ofEnvironment { environment with stepLimit := none }).2 ++
          [warning stepLimitVariable raw "a positive integer"]) := by
  rw [ofEnvironment, hlimit, readVariable_of_malformed hread]
  simp only [ofEnvironment, readVariable, List.append_nil]

/-- There is no warning about variables that are not malformed. -/
theorem ofEnvironment_snd
    (htrace : ∀ raw, environment.trace = some raw → readSwitch raw ≠ none)
    (hlimit : ∀ raw, environment.stepLimit = some raw → readStepLimit raw ≠ none) :
    (ofEnvironment environment).2 = [] := by
  rw [ofEnvironment]
  exact List.append_eq_nil_iff.mpr ⟨readVariable_snd htrace, readVariable_snd hlimit⟩

end Settings

end ByteMachine
