import CodeLayout.Launch.Arguments
import CodeLayout.Options.Environment

/-!
# Command lines

The arguments that are left when the machine arguments are taken out.  Each
option may be given once, under its full name or, if it has one, its letter;
its value follows as the next argument, or behind an equals sign.
-/

namespace CodeLayout

/-- What the command line asks for. -/
structure CommandLine where
  /-- Print the version. -/
  version : Bool
  /-- Print the state of the machine. -/
  status : Bool
  /-- Path of the configuration file. -/
  config : Option String
  /-- Compile and reorder so many methods. -/
  demo : Option Nat
  /-- Keep running for so many seconds. -/
  runFor : Option Nat
deriving DecidableEq, Repr, Inhabited

namespace CommandLine

def empty : CommandLine := ⟨false, false, none, none, none⟩

/-- The options that are followed by a value. -/
inductive Valued where
  | config
  | demo
  | runFor
deriving DecidableEq, Repr

def Valued.ofName? : String → Option Valued
  | "config" => some .config
  | "demo" => some .demo
  | "run-for" => some .runFor
  | _ => none

/-- Read a number of 64 bits. -/
def number? (text : String) : Option Nat :=
  (Digits.parsePlus? text.toList).bind fun n => if n < Size.wordLimit then some n else none

/-- Give an option its value; an option that has one already takes no second. -/
def give (c : CommandLine) (option : Valued) (value : String) : Option CommandLine :=
  match option with
  | .config =>
    if c.config.isSome || value.isEmpty then none else some { c with config := some value }
  | .demo =>
    if c.demo.isSome then none else (number? value).map fun n => { c with demo := some n }
  | .runFor =>
    if c.runFor.isSome then none else (number? value).map fun n => { c with runFor := some n }

/-- Set a switch that is not set yet. -/
def turnOn (c : CommandLine) (name : String) : Option CommandLine :=
  if name = "version" && !c.version then some { c with version := true }
  else if name = "status" && !c.status then some { c with status := true }
  else none

/-- The next argument can be the value of an option: it does not look like an
option itself. -/
def isValue (argument : String) : Bool :=
  argument = "-" || argument.toList.head? ≠ some '-'

/-- What one argument stands for. -/
inductive Word where
  /-- Two hyphens and nothing else. -/
  | separator
  /-- A switch or an option whose value follows. -/
  | bare (name : String)
  | withValue (name value : String)
  | other

/-- The option with a letter of its own. -/
def letter : Char := 'c'

/-- What an argument stands for. -/
def Word.ofText (argument : String) : Word :=
  match argument.toList with
  | ['-', '-'] => .separator
  | '-' :: '-' :: body =>
    match Fields.splitOnce '=' body with
    | some (name, value) => .withValue (String.ofList name) (String.ofList value)
    | none => .bare (String.ofList body)
  | ['-', c] => if c = letter then .bare "config" else .other
  | '-' :: c :: '=' :: value =>
    if c = letter then .withValue "config" (String.ofList value) else .other
  | '-' :: c :: value =>
    if c = letter then .withValue "config" (String.ofList value) else .other
  | _ => .other

/-- Read arguments from left to right. -/
def read (c : CommandLine) : List String → Option CommandLine
  | [] => some c
  | argument :: rest =>
    match Word.ofText argument with
    | .separator => if rest.isEmpty then some c else none
    | .other => none
    | .withValue name value => do
      let c ← c.give (← Valued.ofName? name) value
      c.read rest
    | .bare name =>
      match Valued.ofName? name, rest with
      | some option, value :: rest =>
        if isValue value then do
          let c ← c.give option value
          c.read rest
        else none
      | some _, [] => none
      | none, rest => do
        let c ← c.turnOn name
        c.read rest

/-- What is said about a command line that cannot be read. -/
def usage : String :=
  "Usage: jboltctl [--version] [-c FILE | --config FILE] [--status] [--demo METHODS] " ++
    "[--run-for SECONDS] [-X...]"

/-- The variable that names the configuration file where no argument does. -/
def configVariable : String := "JBOLTCTL_CONFIG"

/-- Read the arguments behind the name of the program. -/
def ofArguments (env : Environment) (arguments : List String) : Option CommandLine := do
  let c ← read empty arguments
  match c.config, env.lookup configVariable with
  | none, some path => c.give .config path
  | _, _ => some c

end CommandLine

end CodeLayout
