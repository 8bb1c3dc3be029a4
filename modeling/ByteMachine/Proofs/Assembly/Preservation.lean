import ByteMachine.Proofs.Assembly.Statement
import ByteMachine.Proofs.Instruction.Listing

/-!
# Programs survive assembly

A source text whose instructions start with mnemonics is assembled to an image that
disassembles to these instructions: as many of them, in the same order, each with
the operands that its line names.  Labels are where the line behind them is listed.

* `labelOffset` — where a label is in a listing;
* `codeOf_of_statements` — the code of statements is the code of the instructions
  that they spell;
* `preservation` — the listing of an assembled image.
-/

namespace ByteMachine

/-- The offset of a label in a listing of a program: that of the first listed
instruction behind the label's definition, or the size of the image if there is
none.  A listing has one entry for each statement with an instruction. -/
def labelOffset (program : List Statement) (listing : List (Nat × Instruction))
    (size : Nat) (name : String) : Option Nat :=
  (program.findIdx? fun statement => statement.label == some name).map fun line =>
    let before := (program.take line).countP Statement.hasInstruction
    ((listing[before]?).map Prod.fst).getD size

/-- The code of a single statement is that of the instruction which it spells, if it
holds one. -/
private theorem codeOf_of_statement {statement : Statement} {part : List Element}
    {table : LabelTable} {bytes : List UInt8}
    (hencode : statement.encode = .ok part) (hresolve : resolve table part = .ok bytes)
    (hstart : statement.hasInstruction → StartsWithMnemonic statement.instruction) :
    ∃ own : List Instruction, (∀ instruction ∈ own, instruction.WellFormed) ∧
      bytes = codeOf own ∧
      List.Forall₂ (fun statement => Spells (table.lookup ·) statement.instruction)
        ([statement].filter Statement.hasInstruction) own := by
  obtain ⟨encoded, hencoded, rfl⟩ := map_eq_ok.mp hencode
  have hrest : resolve table encoded = .ok bytes := by
    cases hlabel : statement.label <;>
      simpa [Statement.labelElements, hlabel, resolve] using hresolve
  by_cases hholds : statement.hasInstruction
  · obtain ⟨instruction, hformed, rfl, hspells⟩ :=
      spells_of_encodeTokens (hstart hholds) hencoded hrest
    refine ⟨[instruction], List.forall_mem_singleton.mpr hformed, ?_, ?_⟩
    · rw [codeOf, List.flatMap_singleton]
    · rw [List.filter_cons_of_pos hholds]
      exact .cons hspells .nil
  · have hnone : statement.instruction = [] := by
      simpa [Statement.hasInstruction] using hholds
    rw [hnone] at hencoded
    obtain rfl := Except.ok.inj hencoded
    refine ⟨[], List.forall_mem_nil _, (Except.ok.inj hrest).symm, ?_⟩
    rw [List.filter_cons_of_neg hholds]
    exact .nil

/-- **The code of statements.**  The code of statements whose instructions start
with mnemonics is that of the instructions which they spell, and up to any statement
it is that of the instructions so far. -/
theorem codeOf_of_statements {program : List Statement} {parts : List (List Element)}
    {table : LabelTable} {bytes : List UInt8}
    (hencode : List.Forall₂ (fun statement part => statement.encode = .ok part) program parts)
    (hresolve : resolve table parts.flatten = .ok bytes)
    (hstart : ∀ statement ∈ program, statement.hasInstruction →
      StartsWithMnemonic statement.instruction) :
    ∃ instructions : List Instruction,
      (∀ instruction ∈ instructions, instruction.WellFormed) ∧
      bytes = codeOf instructions ∧
      List.Forall₂ (fun statement => Spells (table.lookup ·) statement.instruction)
        (program.filter Statement.hasInstruction) instructions ∧
      ∀ line, objectSize (parts.take line).flatten =
        (codeOf (instructions.take
          ((program.take line).countP Statement.hasInstruction))).length := by
  induction hencode generalizing bytes with
  | nil =>
      obtain rfl := Except.ok.inj hresolve
      exact ⟨[], List.forall_mem_nil _, rfl, .nil, by simp [objectSize, codeOf]⟩
  | @cons statement part program parts hpart hrest ih =>
      rw [List.flatten_cons] at hresolve
      obtain ⟨first, second, hfirst, hsecond, rfl⟩ := resolve_append.mp hresolve
      obtain ⟨own, hown, rfl, hspell⟩ :=
        codeOf_of_statement hpart hfirst (hstart statement List.mem_cons_self)
      obtain ⟨instructions, hformed, rfl, hspells, hsizes⟩ :=
        ih hsecond (fun other hother => hstart other (List.mem_cons_of_mem _ hother))
      have hcount : own.length = [statement].countP Statement.hasInstruction := by
        rw [← hspell.length_eq, List.countP_eq_length_filter]
      refine ⟨own ++ instructions, ?_, (codeOf_append _ _).symm, ?_, ?_⟩
      · exact List.forall_mem_append.mpr ⟨hown, hformed⟩
      · rw [← List.singleton_append, List.filter_append]
        exact List.rel_append hspell hspells
      · intro line
        cases line with
        | zero => rfl
        | succ line =>
            rw [List.take_succ_cons, List.flatten_cons, objectSize_append, hsizes,
              ← length_of_resolve hfirst, List.take_succ_cons, ← List.singleton_append,
              List.countP_append, ← hcount, List.take_length_add_append, codeOf_append,
              List.length_append]

/-- **Programs survive assembly.**  A source text that assembles consists of
statements with different labels.  If the instructions all start with mnemonics,
then the image disassembles, and its listing holds one instruction for each
statement that has one, in order, and the one that the statement spells with the
labels where they are in the listing. -/
theorem preservation {source : String} {image : Image}
    (h : assembleImage source = .ok image) :
    ∃ program, statements source = .ok program ∧
      (program.filterMap Statement.label).Nodup ∧
      ((∀ statement ∈ program, statement.hasInstruction →
          StartsWithMnemonic statement.instruction) →
        ∃ listing, disassemble image.bytes = .ok listing ∧
          List.Forall₂ (fun statement entry =>
              Spells (labelOffset program listing image.size) statement.instruction entry.2)
            (program.filter Statement.hasInstruction) listing) := by
  obtain ⟨elements, helements, h⟩ := bind_eq_ok.mp h
  obtain ⟨table, htable, hresolve⟩ := link_eq_ok.mp h
  obtain ⟨program, parts, hprogram, hencode, rfl⟩ := exists_statements helements
  refine ⟨program, hprogram, ?_, fun hstart => ?_⟩
  · rw [← labelNames_flatten hencode]
    exact labelNames_nodup htable
  · obtain ⟨instructions, hformed, hbytes, hspells, hsizes⟩ :=
      codeOf_of_statements hencode hresolve hstart
    have hlabels : (table.lookup ·) =
        labelOffset program (placeFrom 0 instructions) image.size := by
      funext name
      rw [lookup_of_labelTable htable, positionOf_flatten hencode, labelOffset]
      congr 1
      funext line
      have hbefore : (program.take line).countP Statement.hasInstruction ≤
          instructions.length := by
        rw [← hspells.length_eq, ← List.countP_eq_length_filter]
        exact (List.take_sublist line program).countP_le
      have hoffset := getElem?_placeFrom_offset 0 hformed hbefore
      rw [Nat.zero_add, Nat.zero_add, ← hbytes] at hoffset
      rw [hsizes, ← hoffset]
      rfl
    refine ⟨placeFrom 0 instructions, ?_, ?_⟩
    · exact disassemble_eq_ok.mpr ⟨instructions, hformed, hbytes, rfl⟩
    · rw [hlabels] at hspells
      rw [← List.forall₂_map_right_iff, map_snd_placeFrom]
      exact hspells

/-- A loop with references in both directions, a label on a line of its own and a
label behind the last instruction. -/
theorem preservation_loop :
    ∃ program listing,
      statements "start:\n mov 'A', b\nloop: sub 1 b\n jz end\n\n add b zf\n jmp loop\nend:"
        = .ok program ∧
      disassemble [77, 65, 1, 35, 1, 1, 87, 12, 29, 25, 83, 3] = .ok listing ∧
      labelOffset program listing 12 "loop" = some 3 ∧
      labelOffset program listing 12 "end" = some 12 ∧
      List.Forall₂ (fun statement entry =>
          Spells (labelOffset program listing 12) statement.instruction entry.2)
        (program.filter Statement.hasInstruction) listing := by
  have himage : assembleImage
      "start:\n mov 'A', b\nloop: sub 1 b\n jz end\n\n add b zf\n jmp loop\nend:" =
        .ok ⟨[77, 65, 1, 35, 1, 1, 87, 12, 29, 25, 83, 3], by decide⟩ := by decide +kernel
  obtain ⟨program, hprogram, -, hlisting⟩ := preservation himage
  have hknown : statements
      "start:\n mov 'A', b\nloop: sub 1 b\n jz end\n\n add b zf\n jmp loop\nend:" =
        .ok [⟨some "start", []⟩, ⟨none, [⟨"mov", 2⟩, ⟨"'A'", 6⟩, ⟨"b", 11⟩]⟩,
          ⟨some "loop", [⟨"sub", 7⟩, ⟨"1", 11⟩, ⟨"b", 13⟩]⟩,
          ⟨none, [⟨"jz", 2⟩, ⟨"end", 5⟩]⟩, ⟨none, []⟩,
          ⟨none, [⟨"add", 2⟩, ⟨"b", 6⟩, ⟨"zf", 8⟩]⟩,
          ⟨none, [⟨"jmp", 2⟩, ⟨"loop", 6⟩]⟩, ⟨some "end", []⟩] := by decide +kernel
  obtain rfl := Except.ok.inj (hprogram.symm.trans hknown)
  obtain ⟨listing, hdisassemble, hspells⟩ := hlisting (by decide)
  have hentries : disassemble [77, 65, 1, 35, 1, 1, 87, 12, 29, 25, 83, 3] = .ok
      [(0, ⟨⟨77, by decide⟩, [.immediate 65, .symbol (.register .b)]⟩),
        (3, ⟨⟨35, by decide⟩, [.immediate 1, .symbol (.register .b)]⟩),
        (6, ⟨⟨87, by decide⟩, [.immediate 12]⟩),
        (8, ⟨⟨29, by decide⟩, [.symbol (.register .b), .symbol (.flag .zero)]⟩),
        (10, ⟨⟨83, by decide⟩, [.immediate 3]⟩)] := by decide +kernel
  obtain rfl := Except.ok.inj (hdisassemble.symm.trans hentries)
  exact ⟨_, _, hknown, hentries, by decide, by decide, hspells⟩

end ByteMachine
