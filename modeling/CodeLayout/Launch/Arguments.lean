import CodeLayout.Launch.Error
import CodeLayout.Launch.LogSettings
import CodeLayout.Options.Setting
import CodeLayout.Text.Fields

/-!
# Machine arguments

The arguments that start with `-X`.  Each is read by itself, whatever stands
around it, into the changes that it asks for; these are then applied from left
to right, so that of two settings for one option the later one counts.  An
argument that is rejected ends the reading, but what it asked for before its
fault, like everything to the left of it, has been applied.
-/

namespace CodeLayout

/-- One change that a machine argument asks for. -/
inductive LaunchChange where
  | set (setting : Setting)
  | interpretOnly
  | select (tag : String) (level : Option Level)
  | logTo (output : LogOutput)
deriving DecidableEq, Repr

/-- What the machine arguments determine. -/
structure LaunchSettings where
  options : Options
  log : LogSettings
deriving DecidableEq, Repr, Inhabited

namespace LaunchSettings

def apply (s : LaunchSettings) : LaunchChange → LaunchSettings
  | .set setting => { s with options := setting.apply s.options }
  | .interpretOnly => { s with options := { s.options with interpreterOnly := true } }
  | .select tag level => { s with log := s.log.select tag level }
  | .logTo output => { s with log := { s.log with output } }

end LaunchSettings

/-- What one argument asks for: some changes, and perhaps a fault behind
them. -/
structure LaunchArgument where
  changes : List LaunchChange
  fault : Option LaunchError
deriving DecidableEq, Repr

namespace LaunchArgument

/-- An argument without a fault. -/
def sound (changes : List LaunchChange) : LaunchArgument := ⟨changes, none⟩

/-- An argument that is nothing but a fault. -/
def refused (e : LaunchError) : LaunchArgument := ⟨[], some e⟩

/-- Changes in front of those of an argument. -/
def after (changes : List LaunchChange) (a : LaunchArgument) : LaunchArgument :=
  { a with changes := changes ++ a.changes }

/-- `text` behind `start`, if it begins with it. -/
def behind? (start : String) (text : String) : Option String :=
  if start.toList.isPrefixOf text.toList then
    some (String.ofList (text.toList.drop start.length))
  else none

/-- Read what follows `-XX:`: a sign and a name, or a name and a value. -/
def readSetting (body : String) : Except ConfigError Setting :=
  match body.toList with
  | '+' :: name => Setting.ofSign (String.ofList name) true
  | '-' :: name => Setting.ofSign (String.ofList name) false
  | _ =>
    match Fields.onceOfText '=' body with
    | some (name, value) => Setting.ofText name value
    | none => .error (.unrecognizedOption body)

/-- Read a level word; `off` stands for no level at all. -/
def readLevel? : String → Option (Option Level)
  | "off" => some none
  | "error" => some (some .error)
  | "warning" => some (some .warn)
  | "warn" => some (some .warn)
  | "info" => some (some .info)
  | "debug" => some (some .debug)
  | "trace" => some (some .trace)
  | _ => none

/-- Read a tag: stars at its end do not count, it may have none elsewhere, and
`all` is the tag of the events. -/
def readTag? (text : String) : Option String :=
  let tag := (text.toList.reverse.dropWhile (· = '*')).reverse
  if tag.isEmpty || tag.contains '*' then none
  else if tag = "all".toList then some LogLine.eventTarget
  else some (String.ofList tag)

/-- Read one selector: a tag, and behind an equals sign its level, which is
`info` where it is not given. -/
def readSelector? (selector : String) : Option LaunchChange :=
  match Fields.onceOfText '=' selector with
  | some (tags, level) => do
    let level ← readLevel? level
    let tag ← readTag? tags
    some (.select tag level)
  | none => (readTag? selector).map fun tag => .select tag (some .info)

/-- Read selectors up to the first that is faulty. -/
def readSelectors (fault : LaunchError) : List String → LaunchArgument
  | [] => sound []
  | selector :: rest =>
    match readSelector? selector with
    | some change => after [change] (readSelectors fault rest)
    | none => refused fault

/-- Read what follows `-Xlog:`: the word `disable`, or selectors and behind a
colon the output.  The output is set before the selectors are looked at. -/
def readLog (spec : String) : LaunchArgument :=
  let fault := LaunchError.invalidLogOption ("-Xlog:" ++ spec)
  if spec = "disable" then sound [.select LogLine.eventTarget none]
  else
    match Fields.onceOfText ':' spec with
    | none => readSelectors fault (Fields.ofText ',' spec)
    | some (selection, output) =>
      match LogOutput.ofName? output with
      | some output =>
        after [.logTo output] (readSelectors fault (Fields.ofText ',' selection))
      | none => refused fault

/-- Read one argument. -/
def ofText (argument : String) : LaunchArgument :=
  match behind? "-XX:" argument with
  | some body =>
    match readSetting body with
    | .ok setting => sound [.set setting]
    | .error cause => refused (.option cause)
  | none =>
    if argument = "-Xint" then sound [.interpretOnly]
    else if argument = "-Xlog" then sound [.select LogLine.eventTarget (some .info)]
    else
      match behind? "-Xlog:" argument with
      | some spec => readLog spec
      | none => refused (.unrecognizedOption argument)

/-- Machine arguments start with `-X`. -/
def isMachine (argument : String) : Bool :=
  (behind? "-X" argument).isSome

/-- Separate the machine arguments from the others.  The first argument is the
name of the program, whatever it looks like. -/
def split : List String → List String × List String
  | [] => ([], [])
  | program :: rest =>
    let (machine, other) := rest.partition isMachine
    (machine, program :: other)

end LaunchArgument

namespace LaunchSettings

/-- Apply arguments from left to right up to the first fault. -/
def applyAll (s : LaunchSettings) : List String → LaunchSettings × Option LaunchError
  | [] => (s, none)
  | argument :: rest =>
    let read := LaunchArgument.ofText argument
    let s := read.changes.foldl apply s
    match read.fault with
    | some e => (s, some e)
    | none => s.applyAll rest

end LaunchSettings

end CodeLayout
