import ByteMachine.Proofs.Command.Assembled

/-!
# What the assembler writes

The assembler reads a source, assembles it, and only then writes: one file, to the path of
the image.  Everything else is a matter of the log and the output.  So the files are what
they were, or they are what `write` makes of them.

Unless another path is given, the image goes to the path of the source with the extension
`bin`.  A source at another path is never touched, whatever its path looks like.  But a
source that has this extension itself is at the path of its image.  The assembler does not
refuse that, and the image replaces the source.

The files are those of a tree without links and permissions: no other path leads to the source
unless its pieces do, and what is assembled can be written wherever its path leads to a file or
to the name of a new one.

* `Assembler.source_and_image_of_read` — the two paths of a command that names only one;
* `Assembler.files_assembleTo_of_image`, `Assembler.files_assembleTo` — the files afterwards;
* `Assembler.files_command` — the same, after any command;
* `assembler_writes_image`, `assembler_overwrites_source` — what that means for the source.
-/

namespace ByteMachine

open World

namespace Assembler

variable {world : World} {arguments : List String} {options : Options} {content : List UInt8}
  {image : Image}

/-! ## The paths -/

/-- Further arguments do not change the paths if none of them announces one. -/
private theorem paths_of_readRest {source target : String} {listing : Bool}
    (hshort : "-o" ∉ arguments) (hlong : "--output" ∉ arguments)
    (h : Options.readRest ⟨source, target, listing⟩ arguments = .ok options) :
    options.source = source ∧ options.image = target := by
  induction arguments generalizing listing with
  | nil =>
      cases h
      exact ⟨rfl, rfl⟩
  | cons argument rest ih =>
      rw [List.mem_cons, not_or] at hshort hlong
      have hannounced : ¬ (argument == "-o" || argument == "--output") = true := by
        rw [Bool.or_eq_true, beq_iff_eq, beq_iff_eq]
        exact not_or.mpr ⟨Ne.symm hshort.1, Ne.symm hlong.1⟩
      rw [Options.readRest.eq_def] at h
      simp only [if_neg hannounced] at h
      by_cases hlisting : (argument == "-d" || argument == "--disassemble") = true
      · rw [if_pos hlisting] at h
        exact ih hshort.2 hlong.2 h
      · rw [if_neg hlisting] at h
        cases h

/-- A command that announces no other path writes the image to the path of the source with
the extension of images. -/
theorem source_and_image_of_read {source : String} (hshort : "-o" ∉ source :: arguments)
    (hlong : "--output" ∉ source :: arguments)
    (h : Options.read (source :: arguments) = .ok options) :
    options.source = source ∧ options.image = Path.withExtension source "bin" := by
  rw [List.mem_cons, not_or] at hshort hlong
  rw [Options.read] at h
  exact paths_of_readRest hshort.2 hlong.2 h

/-! ## The files -/

/-- A report is a matter of the log and the output. -/
theorem alike_report (files files' : FileTree) (options : Options) (image : Image) :
    Alike files files' (report options image) (report options image) := by
  refine (alike_log _).bind fun _ => ?_
  dsimp only
  split
  case' isTrue => refine (alike_log _).bind fun _ => ?_
  all_goals
    split
    · exact alike_pure 0
    · split
      · exact (alike_print _).bind fun _ => alike_pure 0
      · exact (alike_log _).bind fun _ => alike_pure 1

/-- A source that can be assembled is written, as far as that can be done. -/
theorem files_assembleTo_of_image (hread : world.files.read options.source = .ok content)
    (himage : imageOfSource options.source content = .ok image) :
    ((assembleTo options : StateM World UInt32).run world).2.files =
      match world.files.write options.image image.bytes with
      | .ok files => files
      | .error _ => world.files := by
  rw [run_assembleTo_of_image hread himage]
  cases world.files.write options.image image.bytes with
  | ok files =>
      have hreport : Alike (world.withFiles files).files (world.withFiles files).files
          (report options image) (report options image) := alike_report _ _ options image
      exact hreport.files_eq
  | error cause => rfl

/-- A source that cannot be read is reported at most. -/
theorem logs_assembleTo_of_unread {cause : AccessFault}
    (hread : world.files.read options.source = .error cause) :
    Logs (fun host => @assembleTo _ _ host options) 1 world := by
  refine (logs_exists options.source world).bind fun records => ?_
  split
  · exact (logs_log _ _).bind fun records => logs_pure _ _
  · refine Logs.bind (logs_assembleFile_of_unread hread) fun records => ?_
    exact (logs_log _ _).bind fun records => logs_pure _ _

/-- **The files after assembling.**  They are what they were, unless the source has been
assembled and written. -/
theorem files_assembleTo (options : Options) (world : World) :
    let after := ((assembleTo options : StateM World UInt32).run world).2.files
    after = world.files ∨
      ∃ content image, world.files.read options.source = .ok content ∧
        imageOfSource options.source content = .ok image ∧
        world.files.write options.image image.bytes = .ok after := by
  intro after
  cases hread : world.files.read options.source with
  | error cause => exact .inl (logs_assembleTo_of_unread hread).files_eq
  | ok content =>
      cases himage : imageOfSource options.source content with
      | error fault => exact .inl (logs_assembleTo hread himage).files_eq
      | ok image =>
          have hafter : after = _ := files_assembleTo_of_image hread himage
          cases hwrite : world.files.write options.image image.bytes with
          | error cause => exact .inl (hafter.trans (by rw [hwrite]))
          | ok files =>
              refine .inr ⟨content, image, rfl, himage, ?_⟩
              rw [hafter, hwrite]

/-- **The files after a command.**  They are what they were, unless the arguments have been
read and the source has been assembled and written. -/
theorem files_command (program : String) (arguments : List String) (world : World) :
    let after := ((command program arguments : StateM World UInt32).run world).2.files
    after = world.files ∨
      ∃ options content image, Options.read arguments = .ok options ∧
        world.files.read options.source = .ok content ∧
        imageOfSource options.source content = .ok image ∧
        world.files.write options.image image.bytes = .ok after := by
  intro after
  cases hhelp : arguments.any isHelp with
  | true =>
      left
      show ((command program arguments : StateM World UInt32).run world).2.files = _
      rw [command, hhelp]
      rfl
  | false =>
      cases hread : Options.read arguments with
      | error fault =>
          left
          show ((command program arguments : StateM World UInt32).run world).2.files = _
          rw [command, hhelp, hread]
          rfl
      | ok options =>
          have hcommand := command_eq_assembleTo hhelp hread inferInstance program
          have hafter : after = ((assembleTo options : StateM World UInt32).run world).2.files :=
            congrArg (·.run world |>.2.files) hcommand
          rcases files_assembleTo options world with hsame | ⟨content, image, hwritten⟩
          · exact .inl (hafter.trans hsame)
          · refine .inr ⟨options, content, image, rfl, ?_⟩
            rw [hafter]
            exact hwritten

end Assembler

/-- **The assembler writes the image and nothing else.**  Take any arguments that announce no
other path, and any files.

The files afterwards are what they were, or one file is different: the first argument is the
path of a source that can be assembled, the file is the one to which that path leads with the
extension of images, and its content is the image.

So if the path of the source changes with that extension, then the source is what it was,
whether it has been assembled or not.  If the path does not change and the command comes to
writing, then the image is where the source was. -/
theorem assembler_writes_image (program : String) (arguments : List String) (world : World)
    (hshort : "-o" ∉ arguments) (hlong : "--output" ∉ arguments) :
    let after :=
      ((Assembler.command program arguments : StateM World UInt32).run world).2.files
    (after = world.files ∨
      ∃ source content image place, arguments.head? = some source ∧
        world.files.read source = .ok content ∧ imageOfSource source content = .ok image ∧
        after.locate (Path.withExtension source "bin") = .ok place ∧
        after.at? place = some (.file image.bytes) ∧
        ∀ other, other ≠ place → after.at? other = world.files.at? other) ∧
    ∀ source, arguments.head? = some source →
      (Path.withExtension source "bin" ≠ source →
        after.read source = world.files.read source) ∧
      (Path.withExtension source "bin" = source →
        ∀ options content image, arguments.any Assembler.isHelp = false →
          Assembler.Options.read arguments = .ok options →
          world.files.read source = .ok content → imageOfSource source content = .ok image →
            after.read source = .ok image.bytes) := by
  intro after
  -- the options are read from the arguments, so there is a first one
  have hpaths : ∀ options, Assembler.Options.read arguments = .ok options →
      ∃ source, arguments.head? = some source ∧ options.source = source ∧
        options.image = Path.withExtension source "bin" := by
    intro options hoptions
    cases arguments with
    | nil => cases hoptions
    | cons source rest =>
        exact ⟨source, rfl, Assembler.source_and_image_of_read hshort hlong hoptions⟩
  have hfiles := Assembler.files_command program arguments world
  constructor
  · rcases hfiles with hsame | ⟨options, content, image, hoptions, hread, himage, hwrite⟩
    · exact .inl hsame
    · obtain ⟨source, hhead, hsource, htarget⟩ := hpaths options hoptions
      rw [hsource] at hread himage
      rw [htarget] at hwrite
      obtain ⟨place, hlocate, hput, hfree⟩ := FileTree.locate_of_write hwrite
      refine .inr ⟨source, content, image, place, hhead, hread, himage, hlocate, ?_, ?_⟩
      · rw [show after = _ from hput]
        exact FileTree.at?_put_self hfree _
      · intro other hne
        rw [show after = _ from hput]
        exact FileTree.at?_put_of_ne hne _
  · intro source hhead
    constructor
    · intro hne
      rcases hfiles with hsame | ⟨options, content, image, hoptions, hread, -, hwrite⟩
      · exact congrArg (FileTree.read · source) hsame
      · obtain ⟨first, hfirst, hsource, htarget⟩ := hpaths options hoptions
        obtain rfl := Option.some.inj (hfirst.symm.trans hhead)
        rw [hsource] at hread
        rw [htarget] at hwrite
        rw [hread]
        exact FileTree.read_of_write_withExtension (by decide) (by decide) hwrite hne hread
    · intro hself options content image hhelp hoptions hread himage
      obtain ⟨first, hfirst, hsource, htarget⟩ := hpaths options hoptions
      obtain rfl := Option.some.inj (hfirst.symm.trans hhead)
      obtain ⟨files, hwrite⟩ := FileTree.write_of_read hread image.bytes
      have hcommand := Assembler.command_eq_assembleTo hhelp hoptions inferInstance program
      have hafter : after = _ := (congrArg (fun run => (run.run world).2.files) hcommand).trans
        (Assembler.files_assembleTo_of_image (hsource.symm ▸ hread) (hsource.symm ▸ himage))
      rw [hafter, htarget, hself, hwrite]
      exact FileTree.read_of_write hwrite

/-- A source beside a source that has the extension of images. -/
theorem assembler_writes_image_hello :
    let source := "putc 'h'\nhalt".toUTF8.toList
    let files := (FileTree.empty.makeFile "hello.asm" source).makeFile "hello.bin" source
    let world := World.start files [] 0
    let after (path : String) :=
      ((Assembler.command "assembler" [path] : StateM World UInt32).run world).2.files
    (after "hello.asm").read "hello.asm" = .ok source ∧
      (after "hello.bin").read "hello.bin" = .ok [5, 104, 0] := by
  intro source files world after
  have hkept := (assembler_writes_image "assembler" ["hello.asm"] world (by decide)
    (by decide)).2 "hello.asm" rfl
  have hreplaced := (assembler_writes_image "assembler" ["hello.bin"] world (by decide)
    (by decide)).2 "hello.bin" rfl
  have hread : world.files.read "hello.asm" = .ok source := by decide +kernel
  constructor
  · exact (hkept.1 (by decide +kernel)).trans hread
  · exact hreplaced.2 (by decide +kernel) ⟨"hello.bin", "hello.bin", false⟩ source
      ⟨[5, 104, 0], by decide⟩ (by decide +kernel) (by decide +kernel) (by decide +kernel)
      (by decide +kernel)

/-- **A source is not safe from the assembler.**  A source with the extension of images, the
single instruction `halt`, is replaced by its image. -/
theorem assembler_overwrites_source :
    let files := FileTree.empty.makeFile "p.bin" "halt".toUTF8.toList
    let after := ((Assembler.command "assembler" ["p.bin"] : StateM World UInt32).run
      (World.start files [] 0)).2.files
    files.read "p.bin" = .ok "halt".toUTF8.toList ∧ after.read "p.bin" = .ok [0] ∧
      after.read "p.bin" ≠ files.read "p.bin" := by
  decide +kernel

end ByteMachine
