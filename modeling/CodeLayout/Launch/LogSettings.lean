import CodeLayout.Event.Log

/-!
# Log settings

What the `-Xlog` arguments say: a level for each tag that was selected, and
where the lines go.  The tags are kept in the order in which they were last
selected, each of them once.
-/

namespace CodeLayout

/-- Where log lines are written. -/
inductive LogOutput where
  | stdout
  | stderr
deriving DecidableEq, Repr, Inhabited

namespace LogOutput

def name : LogOutput → String
  | stdout => "stdout"
  | stderr => "stderr"

def ofName? : String → Option LogOutput
  | "stdout" => some stdout
  | "stderr" => some stderr
  | _ => none

end LogOutput

/-- The level of one tag; no level switches the tag off. -/
structure LogDirective where
  tag : String
  level : Option Level
deriving DecidableEq, Repr

namespace LogDirective

/-- The word for a level, or for none. -/
def levelName (level : Option Level) : String :=
  (level.map Level.name).getD "off"

def text (d : LogDirective) : String :=
  d.tag ++ "=" ++ levelName d.level

end LogDirective

/-- The log settings that have come together so far. -/
structure LogSettings where
  /-- Oldest selection first. -/
  directives : List LogDirective
  /-- The level of the tag under which events appear. -/
  eventLevel : Option Level
  output : LogOutput
  /-- Some tag was selected. -/
  explicit : Bool
deriving DecidableEq, Repr

namespace LogSettings

/-- Warnings and errors about events, on standard output. -/
def default : LogSettings where
  directives := [⟨LogLine.eventTarget, some .warn⟩]
  eventLevel := some .warn
  output := .stdout
  explicit := false

instance : Inhabited LogSettings := ⟨default⟩

/-- Select a tag.  The first selection does away with the defaults; a tag that
was selected before goes to the end. -/
def select (s : LogSettings) (tag : String) (level : Option Level) : LogSettings :=
  let kept := if s.explicit then s.directives.filter (·.tag ≠ tag) else []
  { s with
    directives := kept ++ [⟨tag, level⟩]
    eventLevel := if tag = LogLine.eventTarget then level else s.eventLevel
    explicit := true }

/-- All directives in one text. -/
def filter (s : LogSettings) : String :=
  String.intercalate "," (s.directives.map LogDirective.text)

end LogSettings

end CodeLayout
