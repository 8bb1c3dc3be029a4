import ByteMachine.Machine.Dump
import ByteMachine.Proofs.Text.Lines
import ByteMachine.Proofs.Text.Numeral
import Mathlib.Data.List.Basic

/-!
# What a dump tells

A dump is read row by row.  The first two rows hold a field for each register and each flag,
which is a name and a number with an equals sign in between.  No field holds a space, so the
fields of a row come apart again.  Below a heading, each row shows a cell: its address stands
between brackets, among spaces that are no digits, and its value behind them.  A cell that no
row shows holds zero.

So everything that a machine holds can be read off its dump, and two machines with the same
dump are the same machine.

* `shownSymbol`, `shownCell` — what a dump says about a symbol and about a cell;
* `readField_fieldText`, `readRow_rowText` — fields and rows are read as they were written;
* `lookup_shownCells` — the cells that are left out;
* `lines_dump` — the rows of a dump;
* `dump_tells_machine` — what a dump says is what the machine holds.
-/

namespace ByteMachine

/-! ## Reading a dump -/

/-- The symbol and the number in a field, on both sides of an equals sign. -/
def readField (field : List Char) : Option (Symbol × Int) :=
  let name := field.takeWhile (· != '=')
  let value := (field.dropWhile (· != '=')).drop 1
  (Symbol.ofName? (String.ofList name)).map fun s => (s, Decimal.numeralValue value)

/-- The fields of a row, behind a heading of eleven characters. -/
def readFields (row : List Char) : List (Symbol × Int) :=
  ((row.drop 11).splitOn ' ').filterMap readField

/-- The address and the value in the row of a cell, in front of the closing bracket and behind
it. -/
def readRow (row : List Char) : Nat × Int8 :=
  let address := (row.takeWhile (· != ']')).filter Decimal.isDigit
  let value := (row.dropWhile (· != ']')).drop 4
  (Decimal.value address, Int8.ofInt (Decimal.numeralValue value))

/-- The value that a dump shows of a register or a flag. -/
def shownSymbol (dump : String) (s : Symbol) : Int8 :=
  let fields := ((lines dump.toList).take 2).flatMap readFields
  Int8.ofInt ((fields.lookup s).getD 0)

/-- The value that a dump shows of a cell, which is zero if no row shows the cell. -/
def shownCell (dump : String) (address : UInt8) : Int8 :=
  let rows := ((lines dump.toList).drop 3).map readRow
  (rows.lookup address.toNat).getD 0

/-! ## Fields -/

/-- The field of a symbol in a dump. -/
def fieldText (machine : Machine) (s : Symbol) : List Char :=
  s.name.toList ++ '=' :: (Decimal.ofInt (machine.get s).toInt).toList

/-- Names consist of lower case letters. -/
theorem Symbol.isLower_of_mem_name {s : Symbol} {c : Char} (h : c ∈ s.name.toList) :
    c.isLower = true := by
  have hall : s.name.toList.all Char.isLower = true := by
    cases s with
    | register r => cases r <;> decide
    | flag f => cases f <;> decide
  exact List.all_eq_true.mp hall c h

/-- The characters that numbers are written with. -/
def isNumeralChar (c : Char) : Bool :=
  c == '-' || Decimal.isDigit c

theorem isNumeralChar_of_mem_ofInt {x : Int} {c : Char} (h : c ∈ (Decimal.ofInt x).toList) :
    isNumeralChar c = true := by
  rw [isNumeralChar, Bool.or_eq_true, beq_iff_eq]
  exact Decimal.mem_ofInt h

/-- The characters that fields are written with. -/
def isFieldChar (c : Char) : Bool :=
  c.isLower || c == '=' || isNumeralChar c

theorem isFieldChar_of_mem_fieldText {machine : Machine} {s : Symbol} {c : Char}
    (h : c ∈ fieldText machine s) : isFieldChar c = true := by
  rw [isFieldChar, Bool.or_eq_true, Bool.or_eq_true, beq_iff_eq]
  rw [fieldText, List.mem_append, List.mem_cons] at h
  rcases h with hname | hequals | hvalue
  · exact .inl (.inl (Symbol.isLower_of_mem_name hname))
  · exact .inl (.inr hequals)
  · exact .inr (isNumeralChar_of_mem_ofInt hvalue)

/-- **Fields.**  A field is read as it was written. -/
theorem readField_fieldText (machine : Machine) (s : Symbol) :
    readField (fieldText machine s) = some (s, (machine.get s).toInt) := by
  have hname : ∀ c ∈ s.name.toList, (c != '=') = true := by
    intro c hc
    have hlower := Symbol.isLower_of_mem_name hc
    rw [bne_iff_ne]
    intro hequals
    rw [hequals] at hlower
    exact absurd hlower (by decide)
  have hfront : (fieldText machine s).takeWhile (· != '=') = s.name.toList := by
    rw [fieldText, List.takeWhile_append_of_pos hname, List.takeWhile_cons_of_neg (by decide),
      List.append_nil]
  have hback : (fieldText machine s).dropWhile (· != '=') =
      '=' :: (Decimal.ofInt (machine.get s).toInt).toList := by
    rw [fieldText, List.dropWhile_append_of_pos hname, List.dropWhile_cons_of_neg (by decide)]
  rw [readField, hfront, hback, String.ofList_toList, Symbol.ofName?_name, Option.map_some,
    List.drop_one, List.tail_cons, Decimal.numeralValue_ofInt]

/-- The fields of symbols in a row, behind a heading. -/
def fieldRow (machine : Machine) (heading : String) (symbols : List Symbol) : List Char :=
  heading.toList ++ [' '].intercalate (symbols.map (fieldText machine))

/-- **Rows of fields.**  All fields of a row are read, with their values. -/
theorem readFields_fieldRow (machine : Machine) {heading : String} {symbols : List Symbol}
    (hheading : heading.toList.length = 11) (hne : symbols ≠ []) :
    readFields (fieldRow machine heading symbols) =
      symbols.map fun s => (s, (machine.get s).toInt) := by
  have hspace : ∀ field ∈ symbols.map (fieldText machine), ' ' ∉ field := by
    intro field hfield hmem
    obtain ⟨s, -, rfl⟩ := List.mem_map.mp hfield
    exact absurd (isFieldChar_of_mem_fieldText hmem) (by decide)
  have hread : readField ∘ fieldText machine = some ∘ fun s => (s, (machine.get s).toInt) :=
    funext fun s => readField_fieldText machine s
  rw [readFields, fieldRow, List.drop_left' hheading,
    List.splitOn_intercalate ' ' hspace (by simpa using hne), List.filterMap_map, hread,
    List.filterMap_eq_map]

/-- A row of fields is one line. -/
theorem isOneLine_fieldRow (machine : Machine) {heading : String} (symbols : List Symbol)
    (hheading : IsOneLine heading.toList) : IsOneLine (fieldRow machine heading symbols) := by
  have hseparator : IsOneLine [' '] := by decide
  have hfields : ∀ field ∈ symbols.map (fieldText machine), IsOneLine field := by
    intro field hfield
    obtain ⟨s, -, rfl⟩ := List.mem_map.mp hfield
    exact isOneLine_of_forall (fun c hc => isFieldChar_of_mem_fieldText hc) rfl rfl
  exact hheading.append (isOneLine_intercalate hseparator hfields)

theorem toList_registersText (machine : Machine) :
    machine.registersText.toList =
      [' '].intercalate ((Register.all.map .register).map (fieldText machine)) := by
  have hfield : ∀ r : Register,
      (r.name ++ "=" ++ Decimal.ofInt (machine.register r).toInt).toList =
        fieldText machine (.register r) := by
    intro r
    rw [String.toList_append, String.toList_append, List.append_assoc]
    rfl
  unfold Machine.registersText
  rw [String.toList_intercalate, List.map_map, List.map_map]
  exact congrArg _ (List.map_congr_left fun r _ => hfield r)

theorem toList_flagsText (machine : Machine) :
    machine.flagsText.toList =
      [' '].intercalate ((Flag.all.map .flag).map (fieldText machine)) := by
  have hfield : ∀ f : Flag, (f.name ++ "=" ++ if machine.flag f then "1" else "0").toList =
      fieldText machine (.flag f) := by
    intro f
    have hvalue : Decimal.ofInt (machine.get (.flag f)).toInt =
        if machine.flag f then "1" else "0" := by
      rw [Machine.get]
      cases machine.flag f <;> decide +kernel
    rw [fieldText, hvalue, String.toList_append, String.toList_append, List.append_assoc]
    rfl
  unfold Machine.flagsText
  rw [String.toList_intercalate, List.map_map, List.map_map]
  exact congrArg _ (List.map_congr_left fun f _ => hfield f)

/-! ## Cells -/

/-- The row of a cell in a dump. -/
def rowText (position : Nat) (value : Int8) : List Char :=
  "  [".toList ++ (alignRight 3 (Decimal.ofNat position)).toList ++ "] = ".toList ++
    (Decimal.ofInt value.toInt).toList

/-- A row around its closing bracket. -/
theorem rowText_eq (position : Nat) (value : Int8) :
    rowText position value =
      ("  [".toList ++ List.replicate (3 - (Decimal.digits position).length) ' ' ++
        Decimal.digits position) ++ ']' :: (" = ".toList ++ (Decimal.ofInt value.toInt).toList) := by
  rw [rowText, Decimal.toList_alignRight_ofNat]
  simp

/-- **Rows of cells.**  A row is read as it was written. -/
theorem readRow_rowText (position : Nat) (value : Int8) :
    readRow (rowText position value) = (position, value) := by
  have hdigit : ∀ c ∈ Decimal.digits position, Decimal.isDigit c = true :=
    fun c hc => Decimal.isDigit_of_mem_digits hc
  have hbracket : ∀ c ∈ "  [".toList ++
      List.replicate (3 - (Decimal.digits position).length) ' ' ++ Decimal.digits position,
      (c != ']') = true := by
    intro c hc
    rw [List.mem_append, List.mem_append] at hc
    rw [bne_iff_ne]
    intro hclose
    subst hclose
    rcases hc with (hopen | hspace) | hmem
    · exact absurd hopen (by decide)
    · exact absurd (List.eq_of_mem_replicate hspace) (by decide)
    · exact absurd (hdigit _ hmem) (by decide)
  have haddress : ((rowText position value).takeWhile (· != ']')).filter Decimal.isDigit =
      Decimal.digits position := by
    rw [rowText_eq, List.takeWhile_append_of_pos hbracket,
      List.takeWhile_cons_of_neg (by decide), List.append_nil, List.filter_append,
      List.filter_append, List.filter_replicate_of_neg (by decide),
      List.filter_eq_self.mpr hdigit]
    rfl
  have hvalue : ((rowText position value).dropWhile (· != ']')).drop 4 =
      (Decimal.ofInt value.toInt).toList := by
    rw [rowText_eq, List.dropWhile_append_of_pos hbracket,
      List.dropWhile_cons_of_neg (by decide)]
    rfl
  rw [readRow, haddress, hvalue, Decimal.value_digits, Decimal.numeralValue_ofInt,
    Int8.ofInt_toInt]

/-- A row is one line. -/
theorem isOneLine_rowText (position : Nat) (value : Int8) :
    IsOneLine (rowText position value) := by
  have hopen : IsOneLine "  [".toList := by decide
  have hclose : IsOneLine "] = ".toList := by decide
  have hspaces : IsOneLine (List.replicate (3 - (Decimal.digits position).length) ' ') := by
    intro c hc
    rw [List.eq_of_mem_replicate hc]
    decide
  have hdigits : IsOneLine (Decimal.digits position) :=
    isOneLine_of_forall (fun c hc => Decimal.isDigit_of_mem_digits hc) rfl rfl
  have hvalue : IsOneLine (Decimal.ofInt value.toInt).toList :=
    isOneLine_of_forall (fun c hc => isNumeralChar_of_mem_ofInt hc) rfl rfl
  rw [rowText, Decimal.toList_alignRight_ofNat]
  exact ((hopen.append (hspaces.append hdigits)).append hclose).append hvalue

/-- The cells from a position on that a dump shows, which are those that do not hold zero. -/
def shownCells (position : Nat) : List Int8 → List (Nat × Int8)
  | [] => []
  | value :: rest =>
    if value = 0 then shownCells (position + 1) rest
    else (position, value) :: shownCells (position + 1) rest

theorem toList_cellText (position : Nat) (value : Int8) :
    (Machine.cellText position value).toList =
      if value = 0 then [] else rowText position value ++ ['\n'] := by
  rw [Machine.cellText]
  split
  case isTrue => rfl
  case isFalse => simp [rowText]

/-- Each cell that is shown has a row. -/
theorem toList_cells (position : Nat) (cells : List Int8) :
    (String.join ((cells.zipIdx position).map fun (value, position) =>
      Machine.cellText position value)).toList =
      (shownCells position cells).flatMap fun cell => rowText cell.1 cell.2 ++ ['\n'] := by
  rw [String.toList_join, List.flatMap_map]
  induction cells generalizing position with
  | nil => rfl
  | cons value rest ih =>
      rw [List.zipIdx_cons, List.flatMap_cons, ih, toList_cellText, shownCells]
      split
      case isTrue => rfl
      case isFalse => rfl

theorem lines_rows (cells : List (Nat × Int8)) :
    lines (cells.flatMap fun cell => rowText cell.1 cell.2 ++ ['\n']) =
      cells.map fun cell => rowText cell.1 cell.2 := by
  induction cells with
  | nil => rfl
  | cons cell cells ih =>
      rw [List.flatMap_cons, List.append_assoc, List.singleton_append,
        lines_append_newline (isOneLine_rowText cell.1 cell.2), ih, List.map_cons]

/-- **Cells.**  A cell has the value that is shown of it, and zero if it is not shown. -/
theorem lookup_shownCells (start address : Nat) (cells : List Int8) :
    ((shownCells start cells).lookup address).getD 0 =
      if start ≤ address then cells.getD (address - start) 0 else 0 := by
  induction cells generalizing start with
  | nil => simp [shownCells]
  | cons value rest ih =>
      by_cases hfirst : address = start
      · subst hfirst
        have hbehind : ((shownCells (address + 1) rest).lookup address).getD 0 = 0 := by
          rw [ih, if_neg (Nat.not_succ_le_self address)]
        have hvalue : ((shownCells address (value :: rest)).lookup address).getD 0 = value := by
          rw [shownCells]
          split
          case isTrue hzero => rw [hbehind, hzero]
          case isFalse => rw [List.lookup_cons_self, Option.getD_some]
        rw [hvalue, if_pos (Nat.le_refl address), Nat.sub_self, List.getD_cons_zero]
      · have hbehind : ((shownCells start (value :: rest)).lookup address).getD 0 =
            ((shownCells (start + 1) rest).lookup address).getD 0 := by
          rw [shownCells]
          split
          case isTrue => rfl
          case isFalse => rw [List.lookup_cons, beq_false_of_ne hfirst]
        rw [hbehind, ih]
        by_cases hle : start + 1 ≤ address
        · have hnext : address - start = address - (start + 1) + 1 := by omega
          rw [if_pos hle, if_pos (Nat.le_of_succ_le hle), hnext, List.getD_cons_succ]
        · rw [if_neg hle, if_neg (by omega)]

/-! ## Whole dumps -/

/-- A dump consists of two rows of fields, a heading and the rows of cells. -/
theorem toList_dump (machine : Machine) :
    machine.dump.toList =
      fieldRow machine "registers: " (Register.all.map .register) ++ '\n' ::
        (fieldRow machine "flags:     " (Flag.all.map .flag) ++ '\n' ::
          ("memory:".toList ++ '\n' ::
            (shownCells 0 machine.memory.cells.toList).flatMap fun cell =>
              rowText cell.1 cell.2 ++ ['\n'])) := by
  unfold Machine.dump
  rw [← toList_cells, fieldRow, fieldRow, ← toList_registersText, ← toList_flagsText]
  simp

/-- **The rows of a dump.** -/
theorem lines_dump (machine : Machine) :
    lines machine.dump.toList =
      fieldRow machine "registers: " (Register.all.map .register) ::
        fieldRow machine "flags:     " (Flag.all.map .flag) ::
          "memory:".toList ::
            (shownCells 0 machine.memory.cells.toList).map fun cell => rowText cell.1 cell.2 := by
  have hregisters : IsOneLine (fieldRow machine "registers: " (Register.all.map .register)) :=
    isOneLine_fieldRow machine _ (by decide)
  have hflags : IsOneLine (fieldRow machine "flags:     " (Flag.all.map .flag)) :=
    isOneLine_fieldRow machine _ (by decide)
  have hmemory : IsOneLine "memory:".toList := by decide
  rw [toList_dump, lines_append_newline hregisters, lines_append_newline hflags,
    lines_append_newline hmemory, lines_rows]

/-- A dump shows the values of all registers and all flags. -/
theorem shownSymbol_dump (machine : Machine) (s : Symbol) :
    shownSymbol machine.dump s = machine.get s := by
  have hfields : ((lines machine.dump.toList).take 2).flatMap readFields =
      Symbol.all.map fun s => (s, (machine.get s).toInt) := by
    rw [lines_dump, List.take_succ_cons, List.take_succ_cons, List.take_zero,
      List.flatMap_cons, List.flatMap_cons, List.flatMap_nil, List.append_nil,
      readFields_fieldRow machine rfl (by decide), readFields_fieldRow machine rfl (by decide),
      ← List.map_append]
    rfl
  have hmem : s ∈ Symbol.all := by
    cases s with
    | register r => cases r <;> decide
    | flag f => cases f <;> decide
  rw [shownSymbol, hfields, List.lookup_graph _ hmem, Option.getD_some, Int8.ofInt_toInt]

/-- A dump shows the values of all cells, zeros included. -/
theorem shownCell_dump (machine : Machine) (address : UInt8) :
    shownCell machine.dump address = machine.read address := by
  have hread : readRow ∘ (fun cell => rowText cell.1 cell.2) = id :=
    funext fun cell => readRow_rowText cell.1 cell.2
  have hrows : ((lines machine.dump.toList).drop 3).map readRow =
      shownCells 0 machine.memory.cells.toList := by
    rw [lines_dump, List.drop_succ_cons, List.drop_succ_cons, List.drop_succ_cons,
      List.drop_zero, List.map_map, hread, List.map_id]
  have hlt : address.toNat < machine.memory.cells.toList.length := by
    rw [Vector.length_toList]
    exact Memory.toNat_lt_memorySize address
  rw [shownCell, hrows, lookup_shownCells, if_pos (Nat.zero_le _), Nat.sub_zero,
    List.getD_eq_getElem?_getD, List.getElem?_eq_getElem hlt, Option.getD_some,
    Vector.getElem_toList]
  rfl

/-- **What a dump tells.**  The values of all registers, all flags and all cells can be read
off a dump, those of the cells included that are left out because they hold zero.  So machines
with the same dump are the same. -/
theorem dump_tells_machine :
    (∀ (machine : Machine) s, shownSymbol machine.dump s = machine.get s) ∧
    (∀ (machine : Machine) address, shownCell machine.dump address = machine.read address) ∧
    ∀ machine other : Machine, machine.dump = other.dump → machine = other := by
  refine ⟨shownSymbol_dump, shownCell_dump, ?_⟩
  intro machine other h
  apply Machine.ext_get_read
  · intro s
    rw [← shownSymbol_dump, h, shownSymbol_dump]
  · intro address
    rw [← shownCell_dump, h, shownCell_dump]

/-- A cell that is written and cleared again leaves no trace in a dump. -/
theorem dump_tells_machine_cleared :
    let machine := (Machine.cleared.setRegister .sp (-1)).write 255 (-128)
    let other := (((Machine.cleared.write 7 5).setRegister .sp (-1)).write 255 (-128)).write 7 0
    machine.dump =
        "registers: a=0 b=0 c=0 d=0 ip=0 sb=0 sp=-1\n" ++
        "flags:     cf=0 pf=0 zf=0 sf=0 of=0\n" ++
        "memory:\n" ++
        "  [255] = -128\n" ∧
      machine.dump = other.dump ∧ machine = other := by
  intro machine other
  have hsame : machine.dump = other.dump := by decide +kernel
  exact ⟨by decide +kernel, hsame, dump_tells_machine.2.2 machine other hsame⟩

end ByteMachine
