import ByteMachine.Command.Assembler
import ByteMachine.Command.Runner
import ByteMachine.Proofs.Command.World
import ByteMachine.Proofs.Files.Tree

/-!
# Programs that are assembled first

A program can be run from its source file, or it can be assembled into an image file that
is run then.  Both ways load the same image: the file of the image holds its bytes, and
nothing in the rest of the run depends on files.  The files are those of a tree without links
and permissions, where the file of the image can be read because it has been written.

* `imageOfSource` — what a source file stands for;
* `Runner.reads_load_image`, `Runner.reads_load_source` — the two ways to load an image;
* `Runner.alike_command` — the command does the same for both, whatever its options;
* `Runner.logs_command`, `Assembler.logs_assembleTo` — what cannot be assembled is neither
  run nor written;
* `Assembler.run_assembleTo` — what can be assembled is written;
* `assembled_runs_like_source` — the two commands together.
-/

namespace ByteMachine

open World

variable {world : World} {files files' : FileTree} {path : String} {content : List UInt8}
  {image : Image} {fault : Fault}

/-- The image of a source file, from its bytes. -/
def imageOfSource (path : String) (content : List UInt8) : Except Fault Image :=
  (decodeSource path content).bind assembleImage

namespace World

/-- A source file that can be assembled is assembled, and nothing is reported. -/
theorem reads_assembleFile (hread : files.read path = .ok content)
    (himage : imageOfSource path content = .ok image) :
    Reads files (Host.assembleFile path) (.ok image) := by
  obtain ⟨source, hdecode, hassemble⟩ := bind_eq_ok.mp himage
  refine (reads_readFile path).bind ?_
  rw [hread]
  simp only [Except.mapError, Except.bind, hdecode, hassemble]
  exact reads_pure _

/-- A source file that cannot be assembled is reported at most. -/
theorem logs_assembleFile (hread : world.files.read path = .ok content)
    (hfault : imageOfSource path content = .error fault) :
    Logs (fun host => @Host.assembleFile _ _ host path) (.error fault) world := by
  refine (logs_readFile path world).bind fun records => ?_
  rw [hread]
  rcases bind_eq_error.mp hfault with hdecode | ⟨source, hdecode, hassemble⟩
  · simp only [Except.mapError, Except.bind, hdecode]
    exact logs_pure _ _
  · simp only [Except.mapError, Except.bind, hdecode, hassemble]
    exact (logs_log _ _).bind fun records => logs_pure _ _

/-- A source file that cannot be read is not assembled. -/
theorem logs_assembleFile_of_unread {cause : AccessFault}
    (hread : world.files.read path = .error cause) :
    Logs (fun host => @Host.assembleFile _ _ host path) (.error (fileFault path cause)) world := by
  refine (logs_readFile path world).bind fun records => ?_
  rw [hread]
  exact logs_pure _ _

end World

namespace Runner

/-- Running an image does not depend on the files. -/
theorem alike_runLoaded (files files' : FileTree) (options : Options) (image : Image) :
    Alike files files' (runLoaded options image) (runLoaded options image) := by
  refine (alike_runImage options.settings image).bind fun report => ?_
  split
  · exact alike_pure none
  · refine (alike_print "\n").bind fun _ => ?_
    dsimp only
    split
    · refine (alike_print _).bind fun _ => ?_
      split <;> exact (alike_log _).bind fun _ => alike_pure _
    · split <;> exact (alike_log _).bind fun _ => alike_pure _

/-- An image file is loaded as it is. -/
theorem reads_load_image (hextension : Path.extension path = some "bin")
    (hread : files.read path = .ok image.bytes) : Reads files (load path) (.ok image) := by
  have hbytes : Image.ofBytes image.bytes = .ok image := dif_pos image.fits
  rw [load, if_pos (by rw [hextension]; rfl)]
  refine (reads_readFile path).bind ?_
  rw [hread]
  simp only [Except.mapError, Except.bind, hbytes]
  exact reads_pure _

/-- A source file is loaded through the assembler. -/
theorem reads_load_source (hextension : Path.extension path ≠ some "bin")
    (hread : files.read path = .ok content) (himage : imageOfSource path content = .ok image) :
    Reads files (load path) (.ok image) := by
  rw [load, if_neg (by simpa using hextension)]
  exact reads_assembleFile hread himage

/-- The program at a path is run after it has been loaded. -/
theorem run_runFile (hthere : files.contains path = true)
    (hload : Reads files (load path) (.ok image)) (options : Options) (world : World) :
    (runFile options path : StateM World (Option UInt32)).run (world.withFiles files) =
      (runLoaded options image : StateM World (Option UInt32)).run (world.withFiles files) := by
  rw [runFile, (reads_exists path).run_bind, hthere]
  exact hload.run_bind world

/-- Two files from which the same image is loaded are alike to run. -/
theorem alike_runFile {first second : String} (hfirst : files.contains first = true)
    (hloadFirst : Reads files (load first) (.ok image)) (hsecond : files'.contains second = true)
    (hloadSecond : Reads files' (load second) (.ok image)) (options : Options) :
    Alike files files' (runFile options first) (runFile options second) := by
  intro world
  rw [run_runFile hfirst hloadFirst, run_runFile hsecond hloadSecond]
  exact alike_runLoaded files files' options image world

/-- A source file that cannot be assembled is not loaded. -/
theorem logs_load (hextension : Path.extension path ≠ some "bin")
    (hread : world.files.read path = .ok content)
    (hfault : imageOfSource path content = .error fault) :
    Logs (fun host => @load _ _ host path) (.error fault) world := by
  have hsource : ¬ (Path.extension path == some "bin") = true := by simpa using hextension
  simp only [load, if_neg hsource]
  exact logs_assembleFile hread hfault

/-- A source file that cannot be assembled is not run. -/
theorem logs_runFile (hextension : Path.extension path ≠ some "bin")
    (hread : world.files.read path = .ok content)
    (hfault : imageOfSource path content = .error fault) (options : Options) :
    Logs (fun host => @runFile _ _ host options path) (some 1) world := by
  refine (logs_exists path world).bind fun records => ?_
  rw [FileTree.contains_of_read hread]
  refine Logs.bind (logs_load hextension hread hfault) fun records => ?_
  split
  case h_1 hok => cases hok
  case h_2 => exact logs_pure _ _
  case h_3 => exact (logs_log _ _).bind fun records => logs_pure _ _

/-- Two paths that are alike to run are alike to the command, which reads the same options
first. -/
theorem alike_command {first second : String} (hfirst : isHelp first = false)
    (hsecond : isHelp second = false)
    (hrun : ∀ options, Alike files files' (runFile options first) (runFile options second))
    (program : String) (options : List String) (environment : Environment) :
    Alike files files' (command program (first :: options) environment)
      (command program (second :: options) environment) := by
  simp only [command, hfirst, hsecond]
  refine (alike_forM _).bind fun _ => ?_
  split
  · exact hrun _
  · refine (alike_log _).bind fun _ => ?_
    split
    · exact (alike_log _).bind fun _ => alike_pure _
    · exact alike_pure _

/-- If the program at a path is not run, whatever the options are, then the command does
nothing but log. -/
theorem logs_command (hpath : isHelp path = false)
    (hrun : ∀ options records,
      Logs (fun host => @runFile _ _ host options path) (some 1) { world with records })
    (program : String) (options : List String) (environment : Environment) :
    Logs (fun host => @command _ _ host program (path :: options) environment) (some 1)
      world := by
  simp only [command, hpath]
  refine (logs_forM _ _).bind fun records => ?_
  split
  · exact hrun _ _
  · refine (logs_log _ _).bind fun records => ?_
    split
    · exact (logs_log _ _).bind fun records => logs_pure _ _
    · exact logs_pure _ _

end Runner

namespace Assembler

/-- Arguments that can be read, none of which asks for help. -/
theorem command_eq_assembleTo {arguments : List String} {options : Options}
    (hhelp : arguments.any isHelp = false) (hread : Options.read arguments = .ok options)
    (host : Host (StateM World)) (program : String) :
    @command _ _ host program arguments = @assembleTo _ _ host options := by
  rw [command, hhelp, hread]
  rfl

/-- Assembling one file into another one. -/
theorem command_eq {source image : String} (hsource : isHelp source = false)
    (himage : isHelp image = false) (host : Host (StateM World)) (program : String) :
    @command _ _ host program [source, "-o", image] =
      @assembleTo _ _ host ⟨source, image, false⟩ := by
  have hhelp : [source, "-o", image].any isHelp = false := by
    simp only [List.any_cons, hsource, himage]
    rfl
  have hread : Options.read [source, "-o", image] = .ok ⟨source, image, false⟩ := by
    simp [Options.read, Options.readRest]
  exact command_eq_assembleTo hhelp hread host program

/-- A report without a listing is a matter of the log. -/
theorem logs_report (source image : String) (written : Image) (world : World) :
    Logs (fun host => @report _ _ host ⟨source, image, false⟩ written) 0 world := by
  simp only [report]
  refine (logs_log _ _).bind fun records => ?_
  split
  · exact (logs_log _ _).bind fun records => logs_pure _ _
  · exact logs_pure _ _

/-- A source file that can be assembled is written, as far as that can be done, and the image
is reported. -/
theorem run_assembleTo_of_image {options : Options}
    (hread : world.files.read options.source = .ok content)
    (himage : imageOfSource options.source content = .ok image) :
    (assembleTo options : StateM World UInt32).run world =
      match world.files.write options.image image.bytes with
      | .ok files => (report options image : StateM World UInt32).run { world with files }
      | .error cause =>
        (do
          Host.error ("Failed to write " ++ options.image ++ ": " ++
            (fileFault options.image cause).message)
          return 1 : StateM World UInt32).run world := by
  -- everything in front of the write only reads the files of this world
  show (assembleTo _ : StateM World UInt32).run (world.withFiles world.files) = _
  rw [assembleTo, (reads_exists options.source).run_bind, FileTree.contains_of_read hread]
  refine ((reads_assembleFile hread himage).run_bind world).trans ?_
  show (Host.writeFile options.image image.bytes >>= _ : StateM World UInt32).run world = _
  have hwritten : (Host.writeFile options.image image.bytes : StateM World _).run world =
      World.writeFile options.image image.bytes world := rfl
  rw [StateT.run_bind, hwritten, World.writeFile]
  cases world.files.write options.image image.bytes <;> rfl

/-- A source file that can be assembled ends up as an image file. -/
theorem run_assembleTo {source target : String} (hread : world.files.read source = .ok content)
    (himage : imageOfSource source content = .ok image)
    (hwrite : world.files.write target image.bytes = .ok files) :
    ∃ records, (assembleTo ⟨source, target, false⟩ : StateM World UInt32).run world =
      (0, { world with files, records }) := by
  obtain ⟨records, hreport⟩ := logs_report source target image { world with files }
  refine ⟨records, ?_⟩
  rw [run_assembleTo_of_image hread himage]
  simp only [hwrite]
  exact hreport World.runImage

/-- A source file that cannot be assembled is reported at most, and nothing is written. -/
theorem logs_assembleTo {source target : String} {listing : Bool}
    (hread : world.files.read source = .ok content)
    (hfault : imageOfSource source content = .error fault) :
    Logs (fun host => @assembleTo _ _ host ⟨source, target, listing⟩) 1 world := by
  refine (logs_exists source world).bind fun records => ?_
  rw [FileTree.contains_of_read hread]
  refine Logs.bind (logs_assembleFile hread hfault) fun records => ?_
  exact (logs_log _ _).bind fun records => logs_pure _ _

end Assembler

/-- Both commands ask for help in the same way. -/
theorem assembler_isHelp_eq (argument : String) :
    Assembler.isHelp argument = Runner.isHelp argument :=
  Bool.or_comm _ _

/-- No path with an extension is a request for help. -/
theorem isHelp_of_extension {extension : String} (h : Path.extension path = some extension) :
    Runner.isHelp path = false := by
  have hlong : path ≠ "--help" := by
    rintro rfl
    rw [show Path.extension "--help" = none by decide +kernel] at h
    cases h
  have hshort : path ≠ "-h" := by
    rintro rfl
    rw [show Path.extension "-h" = none by decide +kernel] at h
    cases h
  simp [Runner.isHelp, hlong, hshort]

/-- **An image runs like its source.**  Take a source file, at a path that does not ask for
help and does not have the extension of an image, and a path for the image that has it.

If the source can be assembled and the image can be written, then the assembler writes just
the bytes of the image; and under whatever options, environment, input and patience, the
image file is run with the same exit code, output and log as the source file is, before or
after the image has been written.

If the source cannot be assembled, the assembler reports a failure and leaves all files as
they are; and the source file is not run, but reported as a failure too.  What `hostRunning`
would do with an image does not matter then. -/
theorem assembled_runs_like_source {source target : String}
    (hsource : Runner.isHelp source = false) (htext : Path.extension source ≠ some "bin")
    (hbinary : Path.extension target = some "bin")
    (hread : world.files.read source = .ok content) :
    (∀ image files, imageOfSource source content = .ok image →
      world.files.write target image.bytes = .ok files →
        (∀ program, ∃ records,
          (Assembler.command program [source, "-o", target] : StateM World UInt32).run world =
            (0, { world with files, records })) ∧
        files.read target = .ok image.bytes ∧ files.read source = .ok content ∧
        ∀ tree : FileTree, tree.read source = .ok content →
          ∀ program options environment input patience,
            let fromImage : Option UInt32 × World :=
              (Runner.command program (target :: options) environment : StateM World _).run
                (World.start files input patience)
            let fromSource : Option UInt32 × World :=
              (Runner.command program (source :: options) environment : StateM World _).run
                (World.start tree input patience)
            fromImage.1 = fromSource.1 ∧ fromImage.2.output = fromSource.2.output ∧
              fromImage.2.records = fromSource.2.records) ∧
    (∀ fault, imageOfSource source content = .error fault →
      (∀ program, ∃ records,
        (Assembler.command program [source, "-o", target] : StateM World UInt32).run world =
          (1, { world with records })) ∧
      ∀ program options environment input patience, ∃ records, ∀ run,
        (@Runner.command (StateM World) _ (World.hostRunning run) program (source :: options)
            environment).run (World.start world.files input patience) =
          (some 1, { World.start world.files input patience with records })) := by
  have htarget := isHelp_of_extension hbinary
  have hcommand := Assembler.command_eq ((assembler_isHelp_eq source).trans hsource)
    ((assembler_isHelp_eq target).trans htarget)
  constructor
  · intro image files himage hwrite
    have hreadImage := FileTree.read_of_write hwrite
    have hextension : Path.extension source ≠ Path.extension target := hbinary ▸ htext
    refine ⟨fun program => ?_, hreadImage,
      FileTree.read_of_write_of_extension_ne hwrite hextension hread, ?_⟩
    · rw [hcommand]
      exact Assembler.run_assembleTo hread himage hwrite
    · intro tree htree program options environment input patience
      have halike := Runner.alike_command htarget hsource
        (Runner.alike_runFile
          (FileTree.contains_of_read hreadImage) (Runner.reads_load_image hbinary hreadImage)
          (FileTree.contains_of_read htree) (Runner.reads_load_source htext htree himage))
        program options environment
      obtain ⟨answer, after, hone, htwo⟩ := halike (World.start files input patience)
      intro fromImage fromSource
      have himage : fromImage = (answer, after.withFiles files) := hone
      have hsource : fromSource = (answer, after.withFiles tree) := htwo
      rw [himage, hsource]
      exact ⟨rfl, rfl, rfl⟩
  · intro fault hfault
    refine ⟨fun program => ?_, fun program options environment input patience => ?_⟩
    · rw [hcommand]
      obtain ⟨records, hlogs⟩ := Assembler.logs_assembleTo hread hfault
      exact ⟨records, hlogs World.runImage⟩
    · have hthere : ∀ records,
          { World.start world.files input patience with records }.files.read source =
            .ok content := fun _ => hread
      exact Runner.logs_command hsource
        (fun options records => Runner.logs_runFile htext (hthere records) hfault options)
        program options environment

/-- Two sources next to a directory: one can be assembled, into an image whose path leads
through the directory, and the other one jumps to a label that it does not define. -/
theorem assembled_runs_like_source_echo :
    let echo := "in: getc\n putc\n cmp '.'\n jnz in\n halt".toUTF8.toList
    let lost := "jmp nowhere".toUTF8.toList
    let files := ((FileTree.empty.makeDirectory "out").makeFile "echo.asm" echo).makeFile
      "lost.asm" lost
    let world := World.start files [] 0
    let image : Image := ⟨[1, 2, 79, 46, 88, 0, 0], by decide⟩
    let target := "out/../echo.bin"
    let written := files.put (.file image.bytes) ["/", "echo.bin"]
    let options := ["--dump", "--step-limit", "9"]
    let environment : Environment := ⟨some "1", none, none, none⟩
    (imageOfSource "echo.asm" echo = .ok image ∧
      files.write target image.bytes = .ok written ∧
      ∀ input,
        let fromImage : Option UInt32 × World :=
          (Runner.command "vm" (target :: options) environment : StateM World _).run
            (World.start written input 0)
        let fromSource : Option UInt32 × World :=
          (Runner.command "vm" ("echo.asm" :: options) environment : StateM World _).run
            (World.start files input 0)
        fromImage.1 = fromSource.1 ∧ fromImage.2.output = fromSource.2.output ∧
          fromImage.2.records = fromSource.2.records) ∧
    imageOfSource "lost.asm" lost = .error (.undefinedLabel "nowhere") ∧
    ∃ records,
      (Assembler.command "assembler" ["lost.asm", "-o", target] : StateM World UInt32).run world =
        (1, { world with records }) := by
  intro echo lost files world image target written options environment
  have hbinary : Path.extension target = some "bin" := by decide +kernel
  have hecho : imageOfSource "echo.asm" echo = .ok image := by decide +kernel
  have hlost : imageOfSource "lost.asm" lost = .error (.undefinedLabel "nowhere") := by
    decide +kernel
  have hwrite : files.write target image.bytes = .ok written := by decide +kernel
  have hread : world.files.read "echo.asm" = .ok echo := by decide +kernel
  have hreadLost : world.files.read "lost.asm" = .ok lost := by decide +kernel
  have hfirst := assembled_runs_like_source (by decide +kernel) (by decide +kernel) hbinary hread
  have hsecond := assembled_runs_like_source (by decide +kernel) (by decide +kernel) hbinary
    hreadLost
  obtain ⟨-, -, -, hruns⟩ := hfirst.1 image written hecho hwrite
  exact ⟨⟨hecho, hwrite, fun input => hruns files hread "vm" options environment input 0⟩,
    hlost, (hsecond.2 _ hlost).1 "assembler"⟩

end ByteMachine
