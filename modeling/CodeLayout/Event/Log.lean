import CodeLayout.Event
import CodeLayout.Text.Characters

/-!
# Event logs

A log passes events on as lines, keeps them, or both.  Events less severe than
its level, and all events while it is disabled, leave no trace.
-/

namespace CodeLayout

/-- What a log does with its events. -/
structure EventLog.Config where
  /-- Least severe level that is taken. -/
  level : Level
  /-- Pass events on as lines. -/
  forward : Bool
  /-- Write the lines as JSON. -/
  json : Bool
  /-- Keep the events. -/
  record : Bool
deriving DecidableEq, Repr

/-- A line for the log output. -/
structure LogLine where
  level : Level
  target : String
  text : String
deriving DecidableEq, Repr

namespace LogLine

/-- The target under which all events appear. -/
def eventTarget : String := "jbolt"

/-- Names of what a line carries.  A line about an event says besides its message
where it comes from. -/
def fields (l : LogLine) : List String :=
  let origin := ["log.target", "log.module_path", "log.file", "log.line"]
  "message" :: if l.target = eventTarget then origin else []

/-- The line as a terminal may get it. -/
def visible (l : LogLine) : LogLine :=
  { l with text := Control.visible l.text }

/-- Level, target and text. -/
def display (l : LogLine) : String :=
  l.level.label ++ " " ++ l.target ++ ": " ++ l.text

end LogLine

/-- A log with what it has taken so far. -/
structure EventLog where
  config : EventLog.Config
  enabled : Bool
  /-- Events kept, oldest first. -/
  events : List Event
  /-- Lines passed on, oldest first. -/
  lines : List LogLine

namespace EventLog

/-- Every level, passed on as text, nothing kept. -/
def Config.default : Config where
  level := .trace
  forward := true
  json := false
  record := false

def ofConfig (config : Config) : EventLog where
  config
  enabled := true
  events := []
  lines := []

/-- The log takes the event. -/
def takes (l : EventLog) (e : Event) : Bool :=
  l.enabled && e.level.within l.config.level

/-- An event as a line. -/
def line (config : Config) (e : Event) : LogLine where
  level := e.level
  target := LogLine.eventTarget
  text := if config.json then Json.compact e.toDocument else e.text

/-- Take an event, if the log takes it at all. -/
def log (l : EventLog) (e : Event) : EventLog :=
  if l.takes e then
    { l with
      events := if l.config.record then l.events ++ [e] else l.events
      lines := if l.config.forward then l.lines ++ [line l.config e] else l.lines }
  else l

def enable (l : EventLog) : EventLog := { l with enabled := true }
def disable (l : EventLog) : EventLog := { l with enabled := false }

/-- Forget the events that were kept. -/
def clear (l : EventLog) : EventLog := { l with events := [] }

/-- The texts of the events that were kept. -/
def messages (l : EventLog) : List String :=
  l.events.map Event.text

/-- Events kept that are at least as severe as a level. -/
def countWithin (l : EventLog) (limit : Level) : Nat :=
  l.events.countP fun e => e.level.within limit

end EventLog

end CodeLayout
