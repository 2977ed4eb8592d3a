import CodeLayout.Error
import CodeLayout.Text.Fields

/-!
# File trees

The files below the working directory as a value.  A path is walked from name
to name; every name but the last has to be that of a directory.  Two points lead
to the directory above, also above the working directory.  Paths that start with
a slash lead to a second root beside it, whose name is a slash.
-/

namespace CodeLayout

/-- What stands at a place in a tree. -/
inductive FileTree.Node where
  | file (content : ByteArray)
  | directory

/-- The files and directories below the roots, by the names on the way to them.
The roots are directories and not listed. -/
structure FileTree where
  nodes : List (List String × FileTree.Node)

namespace FileTree

/-- What a path leads to: a name in a directory, and whether the path ends with
a slash and so can only mean a directory. -/
structure Place where
  directory : List String
  name : String
  asDirectory : Bool
deriving DecidableEq, Repr

def empty : FileTree := ⟨[]⟩

instance : Inhabited FileTree := ⟨empty⟩

/-- The root of the paths that start with a slash. -/
def slash : String := "/"

/-- The names of the directories that are not listed: the roots, and those above
the working directory. -/
def isRoot (names : List String) : Bool :=
  names = [slash] || names.all fun name => name = ".."

/-- What stands at a place. -/
def node? (t : FileTree) (names : List String) : Option Node :=
  if isRoot names then some .directory else t.nodes.lookup names

/-- Put a node at a place. -/
def put (t : FileTree) (names : List String) (node : Node) : FileTree :=
  ⟨(names, node) :: t.nodes.filter fun entry => entry.1 ≠ names⟩

/-- Take away what stands at a place. -/
def drop (t : FileTree) (names : List String) : FileTree :=
  ⟨t.nodes.filter fun entry => entry.1 ≠ names⟩

/-- Bytes in the longest name. -/
def maxName : Nat := 255

/-- Bytes in the longest path. -/
def maxPath : Nat := 4095

/-- The names that a name leads to from a directory. -/
def step (from_ : List String) (name : String) : List String :=
  if name = "." then from_
  else if name = ".." then
    if from_ = [slash] then from_ else if isRoot from_ then from_ ++ [".."] else from_.dropLast
  else from_ ++ [name]

/-- Look a name up in a directory. -/
def enter (from_ : List String) (name : String) : Except FileError (List String) :=
  if maxName < name.utf8ByteSize then .error .nameTooLong else .ok (step from_ name)

/-- The names on a path. -/
def namesOf (path : String) : List String :=
  let names := (Fields.ofText '/' path).filter fun name => name ≠ ""
  if path.toList.head? = some '/' then slash :: names else names

/-- What is wrong with a path whatever stands in the tree. -/
def fault? (path : String) : Option FileError :=
  if path.toList.contains '\x00' then some .invalidPath
  else if maxPath < path.utf8ByteSize then some .nameTooLong
  else none

/-- Walk names from a directory, each of them that of a directory. -/
def walk (t : FileTree) (from_ : List String) : List String → Except FileError (List String)
  | [] => .ok from_
  | name :: rest => do
    let next ← enter from_ name
    match t.node? next with
    | some .directory => walk t next rest
    | some (.file _) => .error .notADirectory
    | none => .error .notFound

/-- Walk a path up to its last name. -/
def resolve (t : FileTree) (path : String) : Except FileError Place :=
  match fault? path, (namesOf path).getLast? with
  | some e, _ => .error e
  | none, none => .error .notFound
  | none, some name => do
    let directory ← t.walk [] (namesOf path).dropLast
    return ⟨directory, name, path.toList.getLast? = some '/'⟩

/-- The names and the node that a path leads to. -/
def find (t : FileTree) (path : String) : Except FileError (List String × Node) := do
  let place ← t.resolve path
  let names ← enter place.directory place.name
  match t.node? names with
  | none => .error .notFound
  | some (.file content) =>
    if place.asDirectory then .error .notADirectory else .ok (names, .file content)
  | some .directory => .ok (names, .directory)

/-- Something stands at the path. -/
def has (t : FileTree) (path : String) : Bool :=
  (t.find path).isOk

/-- The content of a file. -/
def readBytes (t : FileTree) (path : String) : Except FileError ByteArray := do
  match ← t.find path with
  | (_, .file content) => .ok content
  | (_, .directory) => .error .isADirectory

/-- The content of a file as text. -/
def readText (t : FileTree) (path : String) : Except FileError String := do
  match String.fromUTF8? (← t.readBytes path) with
  | some text => .ok text
  | none => .error .invalidData

/-- Write a file, replacing one that exists.  Its directory has to exist. -/
def writeBytes (t : FileTree) (path : String) (content : ByteArray) :
    Except FileError FileTree := do
  let place ← t.resolve path
  if place.asDirectory then throw .isADirectory
  let names ← enter place.directory place.name
  match t.node? names with
  | some .directory => .error .isADirectory
  | _ => .ok (t.put names (.file content))

def writeText (t : FileTree) (path text : String) : Except FileError FileTree :=
  t.writeBytes path text.toUTF8

/-- Remove a file. -/
def remove (t : FileTree) (path : String) : Except FileError FileTree := do
  match ← t.find path with
  | (names, .file _) => .ok (t.drop names)
  | (_, .directory) => .error .isADirectory

/-- The names on a path that lead on from where they stand; a point does so only
at the start of a path. -/
def components (path : String) : List String :=
  match namesOf path with
  | [] => []
  | first :: rest => first :: rest.filter fun name => name ≠ "."

/-- Create a directory in one that exists. -/
def createDirectory (t : FileTree) (names : List String) : Except FileError FileTree := do
  let above ← t.walk [] names.dropLast
  let place ← enter above (names.getLastD ".")
  match t.node? place with
  | some _ => .error .alreadyExists
  | none => .ok (t.put place .directory)

/-- Create a directory unless it is there. -/
def requireDirectory (t : FileTree) (names : List String) : Except FileError FileTree :=
  match t.createDirectory names with
  | .error .alreadyExists => (t.walk [] names).toOption.elim (.error .alreadyExists) fun _ => .ok t
  | result => result

/-- Create a directory, given by its names from the last to the first.  If the one
above it is missing, that one is created first. -/
def createAll (t : FileTree) : List String → Except FileError FileTree
  | [] => .ok t
  | name :: above =>
    match t.requireDirectory (name :: above).reverse with
    | .error .notFound => do (← t.createAll above).requireDirectory (name :: above).reverse
    | result => result

/-- Create a directory with all directories on the way to it. -/
def createDirectories (t : FileTree) (path : String) : Except FileError FileTree :=
  match fault? path with
  | some e => .error e
  | none => t.createAll (components path).reverse

/-- The directory part of a path: the path without its last component.  It is
empty if there is only one. -/
def parent (path : String) : String :=
  match (components path).dropLast with
  | [] => ""
  | first :: rest =>
    if first = slash then slash ++ String.intercalate "/" rest
    else String.intercalate "/" (first :: rest)

end FileTree

end CodeLayout
