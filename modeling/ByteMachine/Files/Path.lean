/-!
# Paths

A path is a text whose pieces are separated by slashes.  The last piece names
the file, once pieces at the end that are empty or a single dot are left out.
The part of a file name behind its last dot is its extension, unless nothing
stands in front of that dot.
-/

namespace ByteMachine

namespace Path

/-- The pieces of a path between its slashes, of which there is at least
one. -/
def split : List Char → List (List Char)
  | [] => [[]]
  | '/' :: rest => [] :: split rest
  | c :: rest =>
    match split rest with
    | [] => [[c]]
    | piece :: more => (c :: piece) :: more

/-- The pieces of a path. -/
def pieces (path : String) : List String :=
  (split path.toList).map String.ofList

/-- Does a piece lead nowhere? -/
def isIdle (piece : String) : Bool :=
  piece == "" || piece == "."

/-- The directory above. -/
def parent : String := ".."

/-- The pieces in front of the file name, and the file name itself, if the path
has one. -/
def splitName (path : String) : Option (List String × String) :=
  match (pieces path).reverse.dropWhile isIdle with
  | [] => none
  | name :: before => if name == parent then none else some (before.reverse, name)

/-- A file name as stem and extension, split at its last dot. -/
def splitExtension (name : String) : String × Option String :=
  let reversed := name.toList.reverse
  match reversed.dropWhile (· != '.') with
  | [] => (name, none)
  | _ :: [] => (name, none)
  | _ :: stem =>
    (String.ofList stem.reverse,
      some (String.ofList (reversed.takeWhile (· != '.')).reverse))

/-- The extension of the file name of a path. -/
def extension (path : String) : Option String :=
  match splitName path with
  | none => none
  | some (_, name) => (splitExtension name).2

/-- A path of which the end has been cut off by as many characters as the
extension has.  If the path ends in its file name, that leaves the dot. -/
def cutExtension (path : String) : String :=
  match extension path with
  | none => path
  | some old => String.ofList (path.toList.take (path.length - old.length))

/-- A path with its extension replaced or, if it has none, added.  The old
extension is cut off first, and where no file name is left then, nothing is
added: a name that starts with two dots and has no further ones leads to the
directory above. -/
def withExtension (path newExtension : String) : String :=
  let stem := cutExtension path
  match splitName stem with
  | none => stem
  | some (before, name) =>
    let newName := (splitExtension name).1 ++ "." ++ newExtension
    "/".intercalate (before ++ [newName])

end Path

end ByteMachine
