import ByteMachine.Files.Tree
import ByteMachine.Proofs.Files.Path
import ByteMachine.Proofs.Success
import Mathlib.Tactic.SplitIfs

/-!
# Writing and reading files

To write a file puts one entry at the place to which its path leads.  Afterwards the path
leads there still, and so does every path that has led anywhere before: nothing goes away,
and no directory turns into a file.

A path that leads to a file ends in the name of that file, since only directories are
above a place or at the end of a step that stays.  Paths that lead to the same file
therefore have the same extension, whatever the pieces in front of the name are, and a file
whose extension is another one is not touched.

* `FileTree.Enters` — what it is to follow one piece of a path;
* `FileTree.Grounded` — a place such that every place above it is a directory, which all
  places are to which paths lead;
* `FileTree.Includes` — a tree in which all paths of an older one lead where they led;
* `FileTree.Creates` — what it is to write a file, and what every path to a file does;
* `FileTree.read_of_write`, `FileTree.read_of_write_of_extension_ne` — what is read after a
  file has been written;
* `FileTree.read_of_write_withExtension` — the same for a file and one beside it, whose path
  has another extension.
-/

namespace ByteMachine

namespace FileTree

variable {tree older newer : FileTree} {place next : Place} {piece path : String}

/-! ## Entries -/

theorem at?_of_isPrefixOf (h : place.isPrefixOf tree.home = true) :
    tree.at? place = some .directory :=
  if_pos h

theorem at?_of_not_isPrefixOf (h : ¬ place.isPrefixOf tree.home = true) :
    tree.at? place = tree.entries.lookup place :=
  if_neg h

/-- To leave out the entries at one place does not matter at another place. -/
private theorem lookup_filter_of_ne {other : Place} (h : other ≠ place)
    (entries : List (Place × Entry)) :
    (entries.filter fun old => old.1 != place).lookup other = entries.lookup other := by
  induction entries with
  | nil => rfl
  | cons old rest ih =>
      obtain ⟨known, entry⟩ := old
      by_cases hknown : known = place
      · have hother : (other == known) = false := beq_eq_false_iff_ne.mpr (hknown ▸ h)
        rw [List.filter_cons_of_neg (by simp [hknown]), ih, List.lookup_cons, hother]
      · rw [List.filter_cons_of_pos (by simp [hknown]), List.lookup_cons, List.lookup_cons, ih]

/-- An entry that has been put at a place is there, unless a directory was. -/
theorem at?_put_self (h : tree.at? place ≠ some .directory) (entry : Entry) :
    (tree.put entry place).at? place = some entry := by
  have hhome : ¬ place.isPrefixOf (tree.put entry place).home = true :=
    fun houter => h (at?_of_isPrefixOf houter)
  rw [at?_of_not_isPrefixOf hhome]
  exact List.lookup_cons_self

/-- Everything else is where it was. -/
theorem at?_put_of_ne {other : Place} (h : other ≠ place) (entry : Entry) :
    (tree.put entry place).at? other = tree.at? other := by
  have hlookup : (tree.put entry place).entries.lookup other = tree.entries.lookup other := by
    rw [put, List.lookup_cons, beq_eq_false_iff_ne.mpr h]
    exact lookup_filter_of_ne h tree.entries
  rw [at?, at?, hlookup]
  rfl

/-- A newer tree has everything that is in an older one, directories as directories. -/
structure Includes (newer older : FileTree) : Prop where
  home : newer.home = older.home
  directory : ∀ place, older.at? place = some .directory → newer.at? place = some .directory
  isSome : ∀ place, (older.at? place).isSome → (newer.at? place).isSome

/-- A tree includes what it was before an entry was put where no directory is. -/
theorem includes_put (h : tree.at? place ≠ some .directory) (entry : Entry) :
    (tree.put entry place).Includes tree where
  home := rfl
  directory other hother := by
    have hne : other ≠ place := fun heq => h (heq ▸ hother)
    rw [at?_put_of_ne hne, hother]
  isSome other hother := by
    by_cases heq : other = place
    · subst heq
      rw [at?_put_self h]
      rfl
    · rw [at?_put_of_ne heq]
      exact hother

/-! ## Following a path -/

/-- Following one piece of a path leads from a directory to a place. -/
inductive Enters (tree : FileTree) : Place → String → Place → Prop
  /-- The piece leads nowhere. -/
  | stays {place : Place} {piece : String} (hhere : tree.at? place = some .directory)
      (hidle : Path.isIdle piece = true) : Enters tree place piece place
  /-- The piece leads to the directory above. -/
  | leaves {place : Place} (hhere : tree.at? place = some .directory) :
      Enters tree place Path.parent (above place)
  /-- The piece names an entry. -/
  | names {place : Place} {piece : String} (hhere : tree.at? place = some .directory)
      (hname : Path.IsName piece) (hlength : piece.utf8ByteSize ≤ maxNameLength)
      (hthere : (tree.at? (below piece place)).isSome) :
      Enters tree place piece (below piece place)

theorem checkDirectory_eq_ok :
    tree.checkDirectory place = .ok () ↔ tree.at? place = some .directory := by
  rw [checkDirectory]
  split <;> simp_all

/-- In a directory, `enter` goes by the kind of the piece. -/
private theorem enter_of_directory (hhere : tree.at? place = some .directory) :
    tree.enter place piece =
      if Path.isIdle piece then .ok place
      else if piece = Path.parent then .ok (above place)
      else if maxNameLength < piece.utf8ByteSize then .error .nameTooLong
      else if (tree.at? (below piece place)).isSome then .ok (below piece place)
      else .error .notFound := by
  rw [enter, checkDirectory_eq_ok.mpr hhere]
  refine if_congr Iff.rfl rfl (if_congr beq_iff_eq rfl ?_)
  by_cases hlength : maxNameLength < piece.utf8ByteSize
  · simp only [if_pos hlength]
    rfl
  · simp only [if_neg hlength]
    cases tree.at? (below piece place) <;> rfl

/-- `enter` follows a piece where `Enters` says that it can be followed. -/
theorem enter_eq_ok : tree.enter place piece = .ok next ↔ tree.Enters place piece next := by
  constructor
  · intro h
    have hhere : tree.at? place = some .directory := by
      obtain ⟨⟨⟩, hcheck, -⟩ := bind_eq_ok.mp h
      exact checkDirectory_eq_ok.mp hcheck
    rw [enter_of_directory hhere] at h
    split_ifs at h with hidle hparent hlength hthere
    · obtain rfl := Except.ok.inj h
      exact .stays hhere hidle
    · obtain rfl := Except.ok.inj h
      rw [hparent]
      exact .leaves hhere
    · obtain rfl := Except.ok.inj h
      exact .names hhere ⟨Bool.eq_false_iff.mpr hidle, hparent⟩ (Nat.not_lt.mp hlength) hthere
  · intro h
    cases h with
    | stays hhere hidle => rw [enter_of_directory hhere, if_pos hidle]
    | leaves hhere =>
        rw [enter_of_directory hhere, if_neg (by decide), if_pos rfl]
    | names hhere hname hlength hthere =>
        rw [enter_of_directory hhere, if_neg (by simp [hname.notIdle]), if_neg hname.notParent,
          if_neg (Nat.not_lt.mpr hlength), if_pos hthere]

/-- What an older tree lets a path do, a newer one does. -/
theorem Enters.of_includes (hincludes : newer.Includes older) (h : older.Enters place piece next) :
    newer.Enters place piece next := by
  cases h with
  | stays hhere hidle => exact .stays (hincludes.directory _ hhere) hidle
  | leaves hhere => exact .leaves (hincludes.directory _ hhere)
  | names hhere hname hlength hthere =>
      exact .names (hincludes.directory _ hhere) hname hlength (hincludes.isSome _ hthere)

/-- Every place above this one is a directory. -/
def Grounded (tree : FileTree) (place : Place) : Prop :=
  ∀ outer, outer <+: place → outer ≠ place → tree.at? outer = some .directory

/-- A path starts in a directory, and all places above it are directories. -/
theorem at?_origin (tree : FileTree) (pieces : List String) {outer : Place}
    (houter : outer <+: tree.origin pieces) : tree.at? outer = some .directory := by
  have hhome : outer <+: tree.home := by
    rw [origin.eq_def] at houter
    split at houter
    · exact houter.trans List.nil_prefix
    · exact houter
  exact at?_of_isPrefixOf (List.isPrefixOf_iff_prefix.mpr hhome)

/-- A directory at a grounded place is a directory with all places above it. -/
theorem Grounded.directory (h : tree.Grounded place) (hhere : tree.at? place = some .directory)
    {outer : Place} (houter : outer <+: place) : tree.at? outer = some .directory := by
  by_cases heq : outer = place
  · rw [heq, hhere]
  · exact h outer houter heq

/-- **One step.**  From a grounded place, a piece leads to a grounded place. -/
theorem Enters.grounded (h : tree.Enters place piece next) (hground : tree.Grounded place) :
    tree.Grounded next := by
  cases h with
  | stays hhere hidle => exact hground
  | leaves hhere =>
      exact fun outer houter _ =>
        hground.directory hhere (houter.trans (List.dropLast_prefix place))
  | names hhere hname hlength hthere =>
      intro outer houter hne
      rcases List.prefix_concat_iff.mp houter with heq | houter
      · exact absurd heq hne
      · exact hground.directory hhere houter

/-- To follow one piece is to take one step. -/
private theorem foldlM_singleton (tree : FileTree) (place : Place) (piece : String) :
    [piece].foldlM tree.enter place = tree.enter place piece := by
  rw [List.foldlM_cons]
  cases tree.enter place piece <;> rfl

/-- **All steps.**  From a grounded place, pieces lead to a grounded place. -/
theorem grounded_of_foldlM {pieces : List String}
    (h : pieces.foldlM tree.enter place = .ok next) (hground : tree.Grounded place) :
    tree.Grounded next := by
  induction pieces generalizing place with
  | nil =>
      obtain rfl := pure_eq_ok.mp h
      exact hground
  | cons piece rest ih =>
      rw [List.foldlM_cons] at h
      obtain ⟨middle, hpiece, hrest⟩ := bind_eq_ok.mp h
      exact ih hrest ((enter_eq_ok.mp hpiece).grounded hground)

/-- Pieces lead in a newer tree where they led in an older one. -/
theorem foldlM_enter_of_includes {pieces : List String} (hincludes : newer.Includes older)
    (h : pieces.foldlM older.enter place = .ok next) :
    pieces.foldlM newer.enter place = .ok next := by
  induction pieces generalizing place with
  | nil => exact h
  | cons piece rest ih =>
      rw [List.foldlM_cons] at h ⊢
      obtain ⟨middle, hpiece, hrest⟩ := bind_eq_ok.mp h
      exact bind_eq_ok.mpr
        ⟨middle, enter_eq_ok.mpr ((enter_eq_ok.mp hpiece).of_includes hincludes), ih hrest⟩

theorem locate_eq_ok :
    tree.locate path = .ok place ↔ checkLength path = .ok () ∧
      (Path.pieces path).foldlM tree.enter (tree.origin (Path.pieces path)) = .ok place := by
  rw [locate, bind_eq_ok]
  constructor
  · rintro ⟨⟨⟩, hlength, h⟩
    exact ⟨hlength, h⟩
  · rintro ⟨hlength, h⟩
    exact ⟨(), hlength, h⟩

/-- A path starts in a newer tree where it started in an older one. -/
theorem origin_of_includes (hincludes : newer.Includes older) (pieces : List String) :
    newer.origin pieces = older.origin pieces := by
  rw [origin.eq_def, origin.eq_def, hincludes.home]

/-- A path leads in a newer tree where it led in an older one. -/
theorem locate_of_includes (hincludes : newer.Includes older)
    (h : older.locate path = .ok place) : newer.locate path = .ok place := by
  obtain ⟨hlength, h⟩ := locate_eq_ok.mp h
  rw [locate_eq_ok, origin_of_includes hincludes]
  exact ⟨hlength, foldlM_enter_of_includes hincludes h⟩

/-! ## Reading and writing -/

theorem read_eq_ok {content : List UInt8} :
    tree.read path = .ok content ↔
      ∃ place, tree.locate path = .ok place ∧ tree.at? place = some (.file content) := by
  rw [read, bind_eq_ok]
  refine exists_congr fun place => and_congr_right fun _ => ?_
  split <;> simp_all [pure, Except.pure, throw, throwThe, MonadExceptOf.throw]

/-- A path from which a file is read leads somewhere. -/
theorem contains_of_read {content : List UInt8} (h : tree.read path = .ok content) :
    tree.contains path = true := by
  obtain ⟨place, hlocate, -⟩ := read_eq_ok.mp h
  rw [contains, hlocate]

/-- A path ends in the name of a file that can be put below a directory, to which the pieces
in front of the name lead. -/
structure Creates (tree : FileTree) (path : String) (front : List String) (name : String)
    (directory : Place) : Prop where
  pieces : Path.pieces path = front ++ [name]
  isName : Path.IsName name
  pathLength : checkLength path = .ok ()
  nameLength : name.utf8ByteSize ≤ maxNameLength
  leads : front.foldlM tree.enter (tree.origin (Path.pieces path)) = .ok directory
  here : tree.at? directory = some .directory
  free : tree.at? (below name directory) ≠ some .directory

/-- **A path to a file ends in its name.**  Every other piece leads to a directory. -/
theorem creates_of_locate {content : List UInt8} (hlocate : tree.locate path = .ok place)
    (hfile : tree.at? place = some (.file content)) :
    ∃ front name directory, tree.Creates path front name directory ∧
      place = below name directory := by
  obtain ⟨hpath, hwalk⟩ := locate_eq_ok.mp hlocate
  have hstart : tree.Grounded (tree.origin (Path.pieces path)) :=
    fun outer houter _ => at?_origin tree _ houter
  have hnotDirectory : tree.at? place ≠ some .directory := by simp [hfile]
  rcases List.eq_nil_or_concat' (Path.pieces path) with hpieces | ⟨front, last, hpieces⟩
  · rw [hpieces] at hwalk
    obtain rfl := pure_eq_ok.mp hwalk
    exact absurd (at?_origin tree _ List.prefix_rfl) hnotDirectory
  · have hstep : (front ++ [last]).foldlM tree.enter (tree.origin (Path.pieces path)) =
        .ok place := hpieces ▸ hwalk
    rw [List.foldlM_append] at hstep
    obtain ⟨middle, hfront, hlast⟩ := bind_eq_ok.mp hstep
    have hmiddle := grounded_of_foldlM hfront hstart
    rw [foldlM_singleton] at hlast
    -- a last piece that stays or goes up ends in a directory, since `middle` is grounded
    cases enter_eq_ok.mp hlast with
    | stays hhere hidle => exact absurd hhere hnotDirectory
    | leaves hhere =>
        exact absurd (hmiddle.directory hhere (List.dropLast_prefix middle)) hnotDirectory
    | names hhere hname hlength hthere =>
        exact ⟨front, last, middle,
          ⟨hpieces, hname, hpath, hlength, hfront, hhere, hnotDirectory⟩, rfl⟩

/-- `write` puts a file where `Creates` says. -/
theorem creates_of_write {content : List UInt8} {files : FileTree}
    (h : tree.write path content = .ok files) :
    ∃ front name directory, tree.Creates path front name directory ∧
      files = tree.put (.file content) (below name directory) := by
  obtain ⟨⟨⟩, hpath, h⟩ := bind_eq_ok.mp h
  rcases List.eq_nil_or_concat' (Path.pieces path) with hpieces | ⟨front, last, hpieces⟩
  · rw [hpieces] at h
    cases h
  · simp only [hpieces, List.reverse_concat, List.getLast?_concat] at h
    cases hdrop : List.dropWhile (· == "") (last :: front.reverse) with
    | nil =>
      rw [hdrop] at h
      cases h
    | cons name before =>
      rw [hdrop] at h
      obtain ⟨directory, hleads, h⟩ := bind_eq_ok.mp h
      obtain ⟨⟨⟩, hhere, h⟩ := bind_eq_ok.mp h
      obtain ⟨hkind, h⟩ := throw_or_eq_ok.mp h
      obtain ⟨hlength, h⟩ := throw_or_eq_ok.mp h
      split at h
      · cases h
      · rename_i hfree
        obtain rfl := pure_eq_ok.mp h
        simp only [Bool.or_eq_true, beq_iff_eq, Option.some.injEq, not_or,
          Bool.not_eq_true] at hkind
        obtain ⟨⟨hidle, hparent⟩, hlast⟩ := hkind
        -- a path that ends in a slash has been refused, so the name is the last piece
        rw [List.dropWhile_cons_of_neg (by simpa using hlast)] at hdrop
        obtain ⟨rfl, rfl⟩ := List.cons.inj hdrop
        rw [List.reverse_reverse, ← hpieces] at hleads
        exact ⟨front, last, directory,
          ⟨hpieces, ⟨hidle, hparent⟩, hpath, Nat.not_lt.mp hlength, hleads,
            checkDirectory_eq_ok.mp hhere, hfree⟩, rfl⟩

/-- Wherever `Creates` says so, `write` puts a file. -/
theorem Creates.write_eq {front : List String} {name : String} {directory : Place}
    (h : tree.Creates path front name directory) (content : List UInt8) :
    tree.write path content = .ok (tree.put (.file content) (below name directory)) := by
  have hnotEmpty : ¬ (name == "") = true := fun heq => h.isName.ne_empty (beq_iff_eq.mp heq)
  have hkind : ¬ (Path.isIdle name || name == Path.parent ||
      (Path.pieces path).getLast? == some "") = true := by
    rw [h.pieces, List.getLast?_concat]
    simpa [h.isName.notIdle, h.isName.notParent] using hnotEmpty
  have hreversed : (Path.pieces path).reverse.dropWhile (· == "") = name :: front.reverse := by
    rw [h.pieces, List.reverse_concat]
    exact List.dropWhile_cons_of_neg hnotEmpty
  have hleads : front.reverse.reverse.foldlM tree.enter (tree.origin (Path.pieces path)) =
      .ok directory := by
    rw [List.reverse_reverse, h.leads]
  refine bind_eq_ok.mpr ⟨(), h.pathLength, ?_⟩
  simp only [hreversed]
  refine bind_eq_ok.mpr ⟨directory, hleads, ?_⟩
  refine bind_eq_ok.mpr ⟨(), checkDirectory_eq_ok.mpr h.here, ?_⟩
  refine throw_or_eq_ok.mpr ⟨hkind, throw_or_eq_ok.mpr ⟨Nat.not_lt.mpr h.nameLength, ?_⟩⟩
  split
  · rename_i hdirectory
    exact absurd hdirectory h.free
  · rfl

/-- A path to which a file has been written leads to that file. -/
theorem locate_of_write {content : List UInt8} {files : FileTree}
    (h : tree.write path content = .ok files) :
    ∃ place, files.locate path = .ok place ∧ files = tree.put (.file content) place ∧
      tree.at? place ≠ some .directory := by
  obtain ⟨front, name, directory, hcreates, rfl⟩ := creates_of_write h
  have hincludes := includes_put hcreates.free (.file content)
  have hthere := at?_put_self hcreates.free (.file content)
  have hlast : Enters (tree.put (.file content) (below name directory)) directory name
      (below name directory) :=
    .names (hincludes.directory _ hcreates.here) hcreates.isName hcreates.nameLength
      (hthere ▸ rfl)
  refine ⟨_, locate_eq_ok.mpr ⟨hcreates.pathLength, ?_⟩, rfl, hcreates.free⟩
  -- the front leads to the directory as before, and the name now leads to the file
  rw [origin_of_includes hincludes]
  nth_rewrite 2 [hcreates.pieces]
  rw [List.foldlM_append]
  exact bind_eq_ok.mpr ⟨directory, foldlM_enter_of_includes hincludes hcreates.leads,
    (foldlM_singleton ..).trans (enter_eq_ok.mpr hlast)⟩

/-- **What is read back.**  A file that has been written has the content that was written. -/
theorem read_of_write {content : List UInt8} {files : FileTree}
    (h : tree.write path content = .ok files) : files.read path = .ok content := by
  obtain ⟨place, hlocate, rfl, hfree⟩ := locate_of_write h
  exact read_eq_ok.mpr ⟨place, hlocate, at?_put_self hfree _⟩

/-- **What is left alone.**  A file at a path with another extension has the content that it
had before. -/
theorem read_of_write_of_extension_ne {other : String} {content old : List UInt8}
    {files : FileTree} (h : tree.write path content = .ok files)
    (hextension : Path.extension other ≠ Path.extension path)
    (hread : tree.read other = .ok old) : files.read other = .ok old := by
  obtain ⟨front, name, directory, hcreates, rfl⟩ := creates_of_write h
  obtain ⟨place, hlocate, hfile⟩ := read_eq_ok.mp hread
  have hne : place ≠ below name directory := by
    rintro rfl
    obtain ⟨before, ending, above, hother, hplace⟩ := creates_of_locate hlocate hfile
    obtain ⟨-, rfl⟩ := List.append_singleton_inj.mp hplace
    exact hextension ((Path.extension_of_pieces hother.pieces hother.isName).trans
      (Path.extension_of_pieces hcreates.pieces hcreates.isName).symm)
  exact read_eq_ok.mpr ⟨place, locate_of_includes (includes_put hcreates.free _) hlocate,
    (at?_put_of_ne hne _).trans hfile⟩

/-- A file that can be read can be written. -/
theorem write_of_read {old : List UInt8} (h : tree.read path = .ok old) (content : List UInt8) :
    ∃ files, tree.write path content = .ok files := by
  obtain ⟨place, hlocate, hfile⟩ := read_eq_ok.mp h
  obtain ⟨front, name, directory, hcreates, -⟩ := creates_of_locate hlocate hfile
  exact ⟨_, hcreates.write_eq content⟩

/-- **What is left alone beside a file with a new extension.**  A file whose path is changed
when its extension is replaced keeps its content when something is written to the changed
path. -/
theorem read_of_write_withExtension {ending : String} {content old : List UInt8}
    {files : FileTree} (hdot : '.' ∉ ending.toList) (hslash : '/' ∉ ending.toList)
    (hwrite : tree.write (Path.withExtension path ending) content = .ok files)
    (hne : Path.withExtension path ending ≠ path) (hread : tree.read path = .ok old) :
    files.read path = .ok old := by
  obtain ⟨front, name, directory, hcreates, -⟩ := creates_of_write hwrite
  by_cases hextension : Path.extension path = some ending
  · obtain ⟨place, hlocate, hfile⟩ := read_eq_ok.mp hread
    obtain ⟨before, old, above, hold, -⟩ := creates_of_locate hlocate hfile
    rcases Path.withExtension_eq_self hold.pieces hold.isName hextension with heq | hup
    · exact absurd heq hne
    · obtain ⟨-, hparent⟩ := List.append_singleton_inj.mp (hcreates.pieces.symm.trans hup)
      exact absurd hparent hcreates.isName.notParent
  · refine read_of_write_of_extension_ne hwrite (fun h => hextension (h.trans ?_)) hread
    exact Path.extension_withExtension hdot hslash hcreates.pieces hcreates.isName

end FileTree

end ByteMachine
