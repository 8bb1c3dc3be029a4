import ByteMachine.Proofs.Assembly.Immediate
import ByteMachine.Proofs.Assembly.Strictness

/-!
# Forms of operands

An operand is a decimal number, a quoted literal, the name of a symbol, or the name of a label,
which is any other identifier.

No text has two of these forms.  The first character tells numbers and literals from each other
and from names: a minus sign or a digit starts a number, a quote starts a literal, and names
start with a letter or an underscore.  Two names are told apart by whether a symbol has them.  So
the forms can be tested in any order, since the first test that is passed is the only one.

* `Form.Fits`, `Form.fits_iff_test` — the forms, and the tests for them;
* `Form.Fits.unique` — no text has two forms;
* `encodeInOrder_eq` — the tests in any order;
* `Yields`, `encodeOperand_eq_iff` — what an operand is encoded to.
-/

namespace ByteMachine

/-- The forms of operands. -/
inductive Form where
  | decimal | quoted | symbol | label
deriving DecidableEq, Repr

/-- A letter from `a` to `z`, capital or small. -/
def IsLetter (c : Char) : Prop :=
  'A' ≤ c ∧ c ≤ 'Z' ∨ 'a' ≤ c ∧ c ≤ 'z'

namespace Form

/-- All forms, in the order in which the encoder tests them. -/
def all : List Form := [decimal, quoted, symbol, label]

/-- A text has a form. -/
inductive Fits (text : String) : Form → Prop
  | decimal {value : Int} (hdecimal : IsDecimal text.toList value) : Fits text decimal
  | quoted {rest : List Char} (htext : text.toList = quote :: rest) : Fits text quoted
  | symbol {s : Symbol} (hname : s.name = text) : Fits text symbol
  | label {first : Char} {rest : List Char} (htext : text.toList = first :: rest)
      (hfirst : IsLetter first ∨ first = '_')
      (hrest : ∀ c ∈ rest, IsLetter c ∨ c = '_' ∨ '0' ≤ c ∧ c ≤ '9')
      (hother : ∀ s : Symbol, s.name ≠ text) : Fits text label

/-- The encoder's test for a form. -/
def test (text : String) : Form → Bool
  | decimal => Decimal.isNumeral text.toList
  | quoted => isQuoted text
  | symbol => Symbol.isName text
  | label => isIdentifier text.toList && !Symbol.isName text

end Form

/-! ## Tests -/

theorem isAlpha_iff {c : Char} : c.isAlpha = true ↔ IsLetter c := by
  have hupper : c.isUpper = true ↔ 'A' ≤ c ∧ c ≤ 'Z' := decide_eq_true_iff
  have hlower : c.isLower = true ↔ 'a' ≤ c ∧ c ≤ 'z' :=
    Bool.and_eq_true_iff.trans (and_congr decide_eq_true_iff decide_eq_true_iff)
  exact Bool.or_eq_true_iff.trans (or_congr hupper hlower)

theorem isIdentifierStart_iff {c : Char} :
    isIdentifierStart c = true ↔ IsLetter c ∨ c = '_' := by
  rw [isIdentifierStart, Bool.or_eq_true, isAlpha_iff, beq_iff_eq]

/-- Identifiers, character by character. -/
theorem isIdentifier_iff {text : List Char} :
    isIdentifier text = true ↔ ∃ first rest, text = first :: rest ∧
      (IsLetter first ∨ first = '_') ∧
        ∀ c ∈ rest, IsLetter c ∨ c = '_' ∨ '0' ≤ c ∧ c ≤ '9' := by
  have hpart : ∀ c, (isIdentifierStart c || c.isDigit) = true ↔
      IsLetter c ∨ c = '_' ∨ '0' ≤ c ∧ c ≤ '9' := by
    intro c
    have hdigit : c.isDigit = true ↔ '0' ≤ c ∧ c ≤ '9' :=
      Bool.and_eq_true_iff.trans (and_congr decide_eq_true_iff decide_eq_true_iff)
    rw [Bool.or_eq_true, isIdentifierStart_iff, hdigit, or_assoc]
  cases text with
  | nil =>
      constructor
      · intro h
        cases h
      · intro h
        obtain ⟨first, rest, htext, -⟩ := h
        cases htext
  | cons first rest =>
      rw [isIdentifier, Bool.and_eq_true, isIdentifierStart_iff, List.all_eq_true]
      simp only [hpart]
      constructor
      · intro h
        exact ⟨first, rest, rfl, h⟩
      · intro h
        obtain ⟨_, _, htext, h⟩ := h
        cases htext
        exact h

theorem ofName?_eq_none_iff {text : String} :
    Symbol.ofName? text = none ↔ ∀ s : Symbol, s.name ≠ text := by
  constructor
  · intro h s hname
    rw [← hname, Symbol.ofName?_name] at h
    cases h
  · intro h
    rw [Option.eq_none_iff_forall_ne_some]
    intro s hs
    exact h s (Symbol.name_of_ofName? hs)

theorem Symbol.ofName_name (s : Symbol) : ofName s.name = .ok s :=
  ofName_eq_ok.mpr s.ofName?_name

theorem isName_iff {text : String} : Symbol.isName text = true ↔ ∃ s : Symbol, s.name = text := by
  rw [Symbol.isName, Option.isSome_iff_ne_none, ne_eq, ofName?_eq_none_iff]
  simp

/-- The operands that name labels are the texts of that form. -/
theorem namesLabel_iff {text : String} : NamesLabel text ↔ Form.Fits text .label := by
  constructor
  · intro h
    obtain ⟨hidentifier, hnone⟩ := h
    obtain ⟨first, rest, htext, hfirst, hrest⟩ := isIdentifier_iff.mp hidentifier
    exact .label htext hfirst hrest (ofName?_eq_none_iff.mp hnone)
  · intro h
    cases h with
    | label htext hfirst hrest hother =>
        exact ⟨isIdentifier_iff.mpr ⟨_, _, htext, hfirst, hrest⟩,
          ofName?_eq_none_iff.mpr hother⟩

/-- The names of symbols are identifiers. -/
theorem Symbol.isIdentifier_name (s : Symbol) : isIdentifier s.name.toList = true := by
  cases s with
  | register r => cases r <;> decide
  | flag f => cases f <;> decide

namespace Form

/-- **Tests.**  A text has a form exactly if it passes the encoder's test for it. -/
theorem fits_iff_test {text : String} {form : Form} :
    Fits text form ↔ form.test text = true := by
  cases form with
  | decimal =>
      constructor
      · intro h
        cases h with
        | decimal hdecimal => exact (isDecimal_iff.mp hdecimal).1
      · intro h
        exact .decimal (isDecimal_iff.mpr ⟨h, rfl⟩)
  | quoted =>
      rw [test, isQuoted, beq_iff_eq, List.head?_eq_some_iff]
      constructor
      · intro h
        cases h with
        | quoted htext => exact ⟨_, htext⟩
      · intro h
        obtain ⟨rest, htext⟩ := h
        exact .quoted htext
  | symbol =>
      rw [test, isName_iff]
      constructor
      · intro h
        cases h with
        | symbol hname => exact ⟨_, hname⟩
      · intro h
        obtain ⟨s, hname⟩ := h
        exact .symbol hname
  | label =>
      rw [← namesLabel_iff, test, Bool.and_eq_true, Bool.not_eq_true', Symbol.isName,
        Option.isSome_eq_false_iff, Option.isNone_iff_eq_none]
      exact ⟨fun h => ⟨h.identifier, h.noSymbol⟩, fun h => ⟨h.1, h.2⟩⟩

instance (text : String) (form : Form) : Decidable (Fits text form) :=
  decidable_of_iff _ fits_iff_test.symm

/-! ## No text has two forms -/

/-- The form that a first character tells, unless it starts a name. -/
def ofFirst? (c : Char) : Option Form :=
  if c = '-' ∨ Decimal.isDigit c = true then some decimal
  else if c = quote then some quoted
  else none

/-- The form that the first character of a text tells. -/
def told : Form → Option Form
  | decimal => some decimal
  | quoted => some quoted
  | symbol | label => none

/-- Names do not start as numbers and literals do. -/
theorem ofFirst?_of_isIdentifierStart {c : Char} (h : isIdentifierStart c = true) :
    ofFirst? c = none := by
  have hnumber : ¬ (c = '-' ∨ Decimal.isDigit c = true) := by
    rw [isDigit_of_isIdentifierStart h]
    intro hminus
    obtain rfl := hminus.resolve_right Bool.false_ne_true
    exact absurd h (by decide)
  have hquote : c ≠ quote := by
    intro hquote
    subst hquote
    exact absurd h (by decide)
  rw [ofFirst?, if_neg hnumber, if_neg hquote]

/-- An identifier does not start as numbers and literals do. -/
theorem exists_first_of_isIdentifier {text : List Char} (h : isIdentifier text = true) :
    ∃ c rest, text = c :: rest ∧ ofFirst? c = none := by
  obtain ⟨first, rest, htext, hfirst, -⟩ := isIdentifier_iff.mp h
  exact ⟨first, rest, htext, ofFirst?_of_isIdentifierStart (isIdentifierStart_iff.mpr hfirst)⟩

/-- **First characters.**  The first character of a text tells its form, up to names. -/
theorem Fits.exists_first {text : String} {form : Form} (h : Fits text form) :
    ∃ c rest, text.toList = c :: rest ∧ ofFirst? c = form.told := by
  cases h with
  | decimal hdecimal =>
      obtain ⟨c, rest, htext, hfirst⟩ := hdecimal.exists_first
      exact ⟨c, rest, htext, if_pos hfirst⟩
  | quoted htext => exact ⟨quote, _, htext, by decide⟩
  | @symbol s hname =>
      subst hname
      exact exists_first_of_isIdentifier s.isIdentifier_name
  | label htext hfirst hrest hother =>
      exact exists_first_of_isIdentifier (isIdentifier_iff.mpr ⟨_, _, htext, hfirst, hrest⟩)

/-- **No text has two forms.** -/
theorem Fits.unique {text : String} {form other : Form} (h : Fits text form)
    (h' : Fits text other) : form = other := by
  have htold : form.told = other.told := by
    obtain ⟨c, rest, htext, hform⟩ := h.exists_first
    obtain ⟨c', rest', htext', hother⟩ := h'.exists_first
    obtain ⟨rfl, -⟩ := List.cons.inj (htext.symm.trans htext')
    exact hform.symm.trans hother
  -- two names start alike, and are told apart by the symbols
  cases h with
  | decimal | quoted => cases other <;> first | rfl | cases htold
  | symbol hname =>
      cases h' with
      | decimal | quoted => cases htold
      | symbol => rfl
      | label _ _ _ hnone => exact absurd hname (hnone _)
  | label _ _ _ hnone =>
      cases h' with
      | decimal | quoted => cases htold
      | symbol hname => exact absurd hname (hnone _)
      | label => rfl

end Form

/-! ## The tests in any order -/

/-- What a text of a given form stands for. -/
def Form.encode (allowLabels : Bool) (text : String) : Form → Except Fault Element
  | decimal => .byte <$> encodeImmediate text
  | quoted => .byte <$> encodeCharLiteral text
  | symbol => (fun s => .byte s.index) <$> Symbol.ofName text
  | label => if allowLabels then .ok (.reference text) else .error (.unknownSymbol text)

/-- Encode an operand, with the forms tested in a given order. -/
def encodeInOrder (order : List Form) (allowLabels : Bool) (text : String) :
    Except Fault Element :=
  match order.find? fun form => form.test text with
  | some form => form.encode allowLabels text
  | none => .error (.invalidOperand text)

/-- The encoder tests the forms one after another. -/
theorem encodeOperand_eq_encodeInOrder (allowLabels : Bool) (text : String) :
    encodeOperand allowLabels text = encodeInOrder Form.all allowLabels text := by
  unfold encodeOperand encodeInOrder
  simp only [Form.all, List.find?_cons, Form.test, Symbol.isName]
  cases hnumeral : Decimal.isNumeral text.toList with
  | true => simp [Form.encode]
  | false =>
      cases hquoted : isQuoted text with
      | true => simp [Form.encode]
      | false =>
          cases hname : Symbol.ofName? text with
          | some s => simp [Form.encode, Symbol.ofName, hname, pure, Except.pure]
          | none =>
              cases hidentifier : isIdentifier text.toList <;> cases allowLabels <;> rfl

/-- **Any order.**  If the forms are tested in another order, the form that fits is found, or
none is. -/
theorem find?_test {order : List Form} (h : ∀ form, form ∈ order) {text : String} {form : Form} :
    (order.find? fun form => form.test text) = some form ↔ form.Fits text := by
  constructor
  · intro hfind
    exact Form.fits_iff_test.mpr (List.find?_some hfind)
  · intro hfits
    have hfound : (order.find? fun form => form.test text).isSome = true :=
      List.find?_isSome.mpr ⟨form, h form, Form.fits_iff_test.mp hfits⟩
    obtain ⟨other, hother⟩ := Option.isSome_iff_exists.mp hfound
    have hfits' : Form.Fits text other := Form.fits_iff_test.mpr (List.find?_some hother)
    rw [hother, hfits'.unique hfits]

theorem Form.mem_all (form : Form) : form ∈ all := by
  cases form <;> decide

/-- **Any order of the tests.**  The order in which the forms are tested does not matter. -/
theorem encodeInOrder_eq {order : List Form} (h : ∀ form, form ∈ order) (allowLabels : Bool)
    (text : String) : encodeInOrder order allowLabels text = encodeOperand allowLabels text := by
  have hfind : (order.find? fun form => form.test text) =
      Form.all.find? fun form => form.test text :=
    Option.ext fun form => (find?_test h).trans (find?_test Form.mem_all).symm
  rw [encodeOperand_eq_encodeInOrder, encodeInOrder, hfind, encodeInOrder]

theorem encodeOperand_of_fits {allowLabels : Bool} {text : String} {form : Form}
    (h : form.Fits text) : encodeOperand allowLabels text = form.encode allowLabels text := by
  rw [encodeOperand_eq_encodeInOrder, encodeInOrder, (find?_test Form.mem_all).mpr h]

theorem encodeOperand_of_not_fits {allowLabels : Bool} {text : String}
    (h : ∀ form : Form, ¬ form.Fits text) :
    encodeOperand allowLabels text = .error (.invalidOperand text) := by
  have hfind : (Form.all.find? fun form => form.test text) = none := by
    rw [Option.eq_none_iff_forall_ne_some]
    intro form hform
    exact h form ((find?_test Form.mem_all).mp hform)
  rw [encodeOperand_eq_encodeInOrder, encodeInOrder, hfind]

/-! ## What an operand is encoded to -/

/-- A text is an ASCII character between quotes. -/
def QuotesChar (text : String) (c : Char) : Prop :=
  text.toList = [quote, c, quote] ∧ c.toNat < 128

/-- What an operand is encoded to, or why it is refused, by its form. -/
inductive Yields (allowLabels : Bool) (text : String) : Except Fault Element → Prop
  | number {value : Int} {byte : UInt8} (hdecimal : IsDecimal text.toList value)
      (hrange : -128 ≤ value ∧ value ≤ 127) (hbyte : (byte.toNat : Int) = value % 256) :
      Yields allowLabels text (.ok (.byte byte))
  | outOfRange {value : Int} (hdecimal : IsDecimal text.toList value)
      (hrange : ¬ (-128 ≤ value ∧ value ≤ 127)) :
      Yields allowLabels text (.error (.immediateOutOfRange text))
  | character {c : Char} {byte : UInt8} (hquotes : QuotesChar text c)
      (hbyte : byte.toNat = c.toNat) : Yields allowLabels text (.ok (.byte byte))
  | malformed {rest : List Char} (htext : text.toList = quote :: rest)
      (hquotes : ∀ c, ¬ QuotesChar text c) :
      Yields allowLabels text (.error (.invalidCharLiteral text))
  | symbol {s : Symbol} (hname : s.name = text) : Yields allowLabels text (.ok (.byte s.index))
  | reference (hlabel : Form.Fits text .label) (hallowed : allowLabels = true) :
      Yields allowLabels text (.ok (.reference text))
  | unknown (hlabel : Form.Fits text .label) (hallowed : allowLabels = false) :
      Yields allowLabels text (.error (.unknownSymbol text))
  | invalid (hform : ∀ form : Form, ¬ form.Fits text) :
      Yields allowLabels text (.error (.invalidOperand text))

/-- The code of an ASCII character fits in a byte. -/
theorem toNat_code {c : Char} (h : c.toNat < 128) : (UInt8.ofNat c.toNat).toNat = c.toNat :=
  UInt8.toNat_ofNat_of_lt' (Nat.lt_trans h (by decide))

/-- A quoted literal is encoded to the code of its character. -/
theorem encodeCharLiteral_eq_ok {text : String} {byte : UInt8} :
    encodeCharLiteral text = .ok byte ↔ ∃ c, QuotesChar text c ∧ byte.toNat = c.toNat := by
  constructor
  · intro h
    unfold encodeCharLiteral at h
    split at h
    case h_1 first c last htext =>
      split at h
      case isTrue hquotes =>
        obtain ⟨rfl, rfl, hascii⟩ := hquotes
        obtain rfl := Except.ok.inj h
        exact ⟨c, ⟨htext, hascii⟩, toNat_code hascii⟩
      case isFalse => cases h
    case h_2 => cases h
  · intro h
    obtain ⟨c, ⟨htext, hascii⟩, hbyte⟩ := h
    rw [encodeCharLiteral, htext]
    dsimp only
    rw [if_pos ⟨rfl, rfl, hascii⟩, ← hbyte, UInt8.ofNat_toNat]

/-- Any other text is refused as a quoted literal. -/
theorem encodeCharLiteral_eq_error {text : String} {fault : Fault} :
    encodeCharLiteral text = .error fault ↔
      (∀ c, ¬ QuotesChar text c) ∧ fault = .invalidCharLiteral text := by
  have hcause : ∀ fault, encodeCharLiteral text = .error fault →
      fault = .invalidCharLiteral text := by
    intro fault h
    unfold encodeCharLiteral at h
    split at h
    case h_1 =>
      split at h
      case isTrue => cases h
      case isFalse => exact (Except.error.inj h).symm
    case h_2 => exact (Except.error.inj h).symm
  constructor
  · intro h
    refine ⟨fun c hquotes => ?_, hcause fault h⟩
    have hok := encodeCharLiteral_eq_ok.mpr ⟨c, hquotes, toNat_code hquotes.2⟩
    cases h.symm.trans hok
  · intro h
    obtain ⟨hquotes, rfl⟩ := h
    cases hencode : encodeCharLiteral text with
    | ok byte =>
        obtain ⟨c, hc, -⟩ := encodeCharLiteral_eq_ok.mp hencode
        exact absurd hc (hquotes c)
    | error fault => rw [hcause fault hencode]

/-- Every operand is encoded or refused as its form says. -/
theorem yields_encodeOperand (allowLabels : Bool) (text : String) :
    Yields allowLabels text (encodeOperand allowLabels text) := by
  by_cases hform : ∃ form : Form, form.Fits text
  · obtain ⟨form, hfits⟩ := hform
    rw [encodeOperand_of_fits hfits]
    cases hfits with
    | decimal hdecimal =>
        cases hencode : encodeImmediate text with
        | ok byte =>
            obtain ⟨hrange, hbyte⟩ := (encodeImmediate_eq_ok hdecimal).mp hencode
            rw [Form.encode, hencode]
            exact .number hdecimal hrange hbyte
        | error fault =>
            obtain ⟨hrange, rfl⟩ := (encodeImmediate_eq_error hdecimal).mp hencode
            rw [Form.encode, hencode]
            exact .outOfRange hdecimal hrange
    | quoted htext =>
        cases hencode : encodeCharLiteral text with
        | ok byte =>
            obtain ⟨c, hquotes, hbyte⟩ := encodeCharLiteral_eq_ok.mp hencode
            rw [Form.encode, hencode]
            exact .character hquotes hbyte
        | error fault =>
            obtain ⟨hquotes, rfl⟩ := encodeCharLiteral_eq_error.mp hencode
            rw [Form.encode, hencode]
            exact .malformed htext hquotes
    | @symbol s hname =>
        subst hname
        rw [Form.encode, s.ofName_name]
        exact .symbol rfl
    | label htext hfirst hrest hother =>
        have hlabel : Form.Fits text .label := .label htext hfirst hrest hother
        cases allowLabels with
        | true => exact .reference hlabel rfl
        | false => exact .unknown hlabel rfl
  · have hnone : ∀ form : Form, ¬ form.Fits text := fun form hfits => hform ⟨form, hfits⟩
    rw [encodeOperand_of_not_fits hnone]
    exact .invalid hnone

/-- **What an operand is encoded to.**  An operand is encoded to what its form says, and to
nothing else. -/
theorem encodeOperand_eq_iff {allowLabels : Bool} {text : String}
    {result : Except Fault Element} :
    encodeOperand allowLabels text = result ↔ Yields allowLabels text result := by
  constructor
  · intro h
    exact h ▸ yields_encodeOperand allowLabels text
  · intro h
    cases h with
    | number hdecimal hrange hbyte =>
        have hencode := (encodeImmediate_eq_ok hdecimal).mpr ⟨hrange, hbyte⟩
        rw [encodeOperand_of_fits (.decimal hdecimal), Form.encode, hencode]
        rfl
    | outOfRange hdecimal hrange =>
        have hencode := (encodeImmediate_eq_error hdecimal).mpr ⟨hrange, rfl⟩
        rw [encodeOperand_of_fits (.decimal hdecimal), Form.encode, hencode]
        rfl
    | character hquotes hbyte =>
        have hencode := encodeCharLiteral_eq_ok.mpr ⟨_, hquotes, hbyte⟩
        rw [encodeOperand_of_fits (.quoted hquotes.1), Form.encode, hencode]
        rfl
    | malformed htext hquotes =>
        have hencode := encodeCharLiteral_eq_error.mpr ⟨hquotes, rfl⟩
        rw [encodeOperand_of_fits (.quoted htext), Form.encode, hencode]
        rfl
    | @symbol s hname =>
        subst hname
        rw [encodeOperand_of_fits (.symbol rfl), Form.encode, s.ofName_name]
        rfl
    | reference hlabel hallowed | unknown hlabel hallowed =>
        subst hallowed
        exact encodeOperand_of_fits hlabel
    | invalid hform => exact encodeOperand_of_not_fits hform

end ByteMachine
