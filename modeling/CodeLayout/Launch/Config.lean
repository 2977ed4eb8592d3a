import CodeLayout.FileTree
import CodeLayout.Launch.Error
import CodeLayout.Options.Environment
import CodeLayout.Options.Record
import CodeLayout.Toml.Printer
import CodeLayout.Toml.Statement

/-!
# Configuration files

A configuration holds options and how the log is written.  Options that a file
does not mention come from the environment, but only if the file has no table
of options at all.
-/

namespace CodeLayout

/-- What a configuration file says. -/
structure Config where
  options : Options
  /-- Write the log as JSON. -/
  json : Bool
deriving DecidableEq, Repr

namespace Config

/-- The configuration in force without a file. -/
def ofEnvironment (env : Environment) : Config where
  options := Options.ofEnvironment env
  json := false

/-- The entries of the table about the log. -/
def logFields : List (String × (Bool → Document → Option Bool)) :=
  [("json", fun _ d => d.flag?)]

/-- The two tables of a configuration. -/
def fields : List (String × (Config → Document → Option Config)) :=
  [("vm", fun c d => (Options.ofDocument? d).map fun options => { c with options }),
   ("log", fun c d => (Document.record? logFields false d).map fun json => { c with json })]

/-- Read the text of a configuration file. -/
def ofText (env : Environment) (text : String) : Except LaunchError Config :=
  match (Toml.ofText? text).bind (Document.record? fields (ofEnvironment env)) with
  | some config => .ok config
  | none => .error (.config "Failed to parse configuration")

/-- Load a configuration file. -/
def load (env : Environment) (files : FileTree) (path : String) : Except LaunchError Config :=
  if files.has path then
    match files.readText path with
    | .ok text => ofText env text
    | .error cause => .error (.file cause)
  else .error (.config ("Configuration file not found: " ++ path))

def fileName : String := "jboltctl.toml"

/-- The directory for configurations: a given one, if its path starts with a
slash, else one below the home directory. -/
def directory (home given : Option String) : Option String :=
  match given.filter fun dir => dir.startsWith "/" with
  | some dir => some dir
  | none => home.map fun dir => dir ++ "/.config"

/-- Where a configuration file is looked for: in the working directory, below
the home directory, and in the directory for configurations. -/
def places (home configHome : Option String) : List String :=
  fileName ::
    ((home.map fun dir => dir ++ "/.config/jboltctl/" ++ fileName).toList ++
      (configHome.map fun dir => dir ++ "/jboltctl/" ++ fileName).toList)

/-- Load the first configuration file there is. -/
def loadFirst (env : Environment) (files : FileTree) (places : List String) :
    Except LaunchError Config :=
  match places.find? files.has with
  | some path => load env files path
  | none => .ok (ofEnvironment env)

/-- The text of a configuration file, unless a size is too large for it. -/
def text? (c : Config) : Option String :=
  Toml.sections? [("vm", c.options.toEntries), ("log", [("json", .flag c.json)])]

/-- Save a configuration, making the directories on the way to the file. -/
def save (c : Config) (files : FileTree) (path : String) : Except LaunchError FileTree := do
  let files ← (files.createDirectories (FileTree.parent path)).mapError .file
  match c.text? with
  | none => throw (.config "Failed to serialize configuration")
  | some text => (files.writeText path text).mapError .file

end Config

end CodeLayout
