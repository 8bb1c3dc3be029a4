import ByteMachine.Files.Path

/-!
# File trees

A file tree is what lies below the root.  Paths are followed piece by piece, from the root
if they start with a slash and from the working directory otherwise: a single dot stays, two
dots go to the directory above, and a name goes to the entry with that name.  The directory
above the root is the root.  Every piece but the last must lead to a directory, and a slash
at the end asks for a directory too.  The length of a path and the length of each name in it
are limited.

The working directory is there in every tree, with the directories above it.

A tree has no links and no permissions.  Each place has a content of its own: what is written
at a place shows there and nowhere else, and two paths share a file only if their pieces lead
to the same place.  Every file can be read and replaced, and every directory takes new files, so
what has been written can be read again.  An access fails for its path alone, which leads
nowhere, to a directory or through a file, or is too long.  What is proved about commands and
their files is proved of such trees.
-/

namespace ByteMachine

/-- Why a path could not be used. -/
inductive AccessFault where
  | notFound | notDirectory | isDirectory | nameTooLong
deriving DecidableEq, Repr

/-- The words of the operating system. -/
def AccessFault.reason : AccessFault → String
  | notFound => "No such file or directory (os error 2)"
  | notDirectory => "Not a directory (os error 20)"
  | isDirectory => "Is a directory (os error 21)"
  | nameTooLong => "File name too long (os error 36)"

/-- What a name can stand for. -/
inductive Entry where
  | file (content : List UInt8)
  | directory
deriving DecidableEq, Repr

/-- A place in a tree: the names that lead to it from the root. -/
abbrev Place := List String

/-- The place of the working directory, and the entries with their places.  An entry is found
at its own place only, since there are no links, and it can always be read and replaced, since
there are no permissions. -/
structure FileTree where
  home : Place
  entries : List (Place × Entry)
deriving DecidableEq, Repr

namespace FileTree

/-- The greatest length of a name in bytes. -/
def maxNameLength : Nat := 255

/-- The greatest length of a path in bytes. -/
def maxPathLength : Nat := 4095

/-- The tree without entries.  The name of its working directory is not known: it is one
that no piece of a path spells. -/
def empty : FileTree := ⟨["/"], []⟩

/-- What is at a place. -/
def at? (tree : FileTree) (place : Place) : Option Entry :=
  if place.isPrefixOf tree.home then some .directory else tree.entries.lookup place

/-- Replace or add the entry at a place. -/
def put (tree : FileTree) (entry : Entry) (place : Place) : FileTree :=
  { tree with entries := (place, entry) :: tree.entries.filter fun old => old.1 != place }

/-- The place of a name in the directory at a place. -/
def below (name : String) (place : Place) : Place :=
  place ++ [name]

/-- The directory above a place. -/
def above (place : Place) : Place :=
  place.dropLast

/-- Fail unless a directory is at a place. -/
def checkDirectory (tree : FileTree) (place : Place) : Except AccessFault Unit :=
  match tree.at? place with
  | some .directory => .ok ()
  | some (.file _) => .error .notDirectory
  | none => .error .notFound

/-- Follow one piece of a path. -/
def enter (tree : FileTree) (place : Place) (piece : String) :
    Except AccessFault Place := do
  checkDirectory tree place
  if Path.isIdle piece then return place
  if piece == Path.parent then return above place
  if maxNameLength < piece.utf8ByteSize then throw .nameTooLong
  match tree.at? (below piece place) with
  | some _ => return below piece place
  | none => throw .notFound

/-- The place at which a path with the given pieces starts. -/
def origin (tree : FileTree) : List String → Place
  | "" :: _ => []
  | _ => tree.home

/-- Fail if a path is empty or too long to be followed at all. -/
def checkLength (path : String) : Except AccessFault Unit :=
  if path == "" then .error .notFound
  else if maxPathLength < path.utf8ByteSize then .error .nameTooLong
  else .ok ()

/-- Follow a path to the end. -/
def locate (tree : FileTree) (path : String) : Except AccessFault Place := do
  checkLength path
  let pieces := Path.pieces path
  pieces.foldlM tree.enter (tree.origin pieces)

/-- Does a path lead to a file or to a directory? -/
def contains (tree : FileTree) (path : String) : Bool :=
  match tree.locate path with
  | .ok _ => true
  | .error _ => false

/-- The content of the file to which a path leads. -/
def read (tree : FileTree) (path : String) : Except AccessFault (List UInt8) := do
  match tree.at? (← tree.locate path) with
  | some (.file content) => return content
  | some .directory => throw .isDirectory
  | none => throw .notFound

/-- Replace the content of a file, which is created if it does not exist. -/
def write (tree : FileTree) (path : String) (content : List UInt8) :
    Except AccessFault FileTree := do
  checkLength path
  let pieces := Path.pieces path
  match pieces.reverse.dropWhile (· == "") with
  | [] => throw .isDirectory
  | name :: before =>
    let place ← before.reverse.foldlM tree.enter (tree.origin pieces)
    checkDirectory tree place
    if Path.isIdle name || name == Path.parent || pieces.getLast? == some "" then
      throw .isDirectory
    if maxNameLength < name.utf8ByteSize then throw .nameTooLong
    match tree.at? (below name place) with
    | some .directory => throw .isDirectory
    | _ => return tree.put (.file content) (below name place)

/-- Follow one piece of a path, and make the directory that it names if there is
nothing of that name. -/
def descend (state : FileTree × Place) (piece : String) : FileTree × Place :=
  let (tree, place) := state
  if Path.isIdle piece then state
  else if piece == Path.parent then (tree, above place)
  else
    let next := below piece place
    if (tree.at? next).isSome then (tree, next) else (tree.put .directory next, next)

/-- Add the directory at a path, with all directories that the path leads
through. -/
def makeDirectory (tree : FileTree) (path : String) : FileTree :=
  let pieces := Path.pieces path
  (pieces.foldl descend (tree, tree.origin pieces)).1

/-- Add the file at a path, with all directories that the path leads through. -/
def makeFile (tree : FileTree) (path : String) (content : List UInt8) : FileTree :=
  match Path.splitName path with
  | none => tree
  | some (before, name) =>
    let (tree, place) := before.foldl descend (tree, tree.origin (Path.pieces path))
    tree.put (.file content) (below name place)

/-- The files below the working directory that are not in an older tree with the same
content, each with the names that lead to it from there. -/
def changesSince (tree older : FileTree) : List (List String × List UInt8) :=
  tree.entries.filterMap fun (place, entry) =>
    match entry with
    | .directory => none
    | .file content =>
      if !tree.home.isPrefixOf place || older.at? place == some entry then none
      else some (place.drop tree.home.length, content)

end FileTree

end ByteMachine
