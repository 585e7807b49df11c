import LuaMachine.Machine.Error

/-!
# The working directory

The files that the program sees, by their paths from the working directory. A directory is there when
a file lies in it.
-/

namespace LuaMachine

/-- The files below the working directory. A path is a list of names. -/
structure Directory where
  files : List (List String × List UInt8) := []
deriving Repr, Inhabited

namespace Directory

/-- What a path leads to. -/
inductive Node where
  | file (content : List UInt8)
  | directory
deriving DecidableEq, Repr

def node? (d : Directory) (path : List String) : Option Node :=
  match d.files.find? (·.1 == path) with
  | some (_, content) => some (.file content)
  | none =>
    if path.isEmpty || d.files.any (path.isPrefixOf ·.1) then some .directory else none

/-- The names on the way of a path text. -/
def names (path : String) : List String := path.splitOn "/"

/-- Follow all names but the last, starting in a directory. Gives the directory that is reached and
the last name. Whatever lies outside of the working directory is not there. -/
def follow (d : Directory) : List String → List String → Except IoError (List String × String)
  | here, [] => .ok (here, "")
  | here, [last] => .ok (here, last)
  | here, name :: rest =>
    if name == "" || name == "." then d.follow here rest
    else if name == ".." then
      if here.isEmpty then .error .notFound else d.follow here.dropLast rest
    else match d.node? (here ++ [name]) with
      | some .directory => d.follow (here ++ [name]) rest
      | some (.file _) => .error .notADirectory
      | none => .error .notFound

/-- The full path that a path text stands for, or why there can be none. -/
def resolve (d : Directory) (path : String) : Except IoError (List String) := do
  if path.isEmpty || path.startsWith "/" then throw .notFound
  let (reached, last) ← d.follow [] (names path)
  if last == "" || last == "." then return reached
  else if last == ".." then
    if reached.isEmpty then throw .notFound else return reached.dropLast
  else return reached ++ [last]

/-- The content of a file. -/
def read (d : Directory) (path : String) : Except IoError (List UInt8) := do
  match d.node? (← d.resolve path) with
  | some (.file content) => return content
  | some .directory => throw .isADirectory
  | none => throw .notFound

/-- Write a file; its directory has to be there. -/
def write (d : Directory) (path : String) (content : List UInt8) : Except IoError Directory := do
  let full ← d.resolve path
  if d.node? full == some .directory || path.endsWith "/" then throw .isADirectory
  return ⟨(full, content) :: d.files.filter (·.1 != full)⟩

/-- A directory of given files. -/
def ofFiles (files : List (String × List UInt8)) : Directory :=
  ⟨files.map fun (path, content) => (names path, content)⟩

end Directory

end LuaMachine
