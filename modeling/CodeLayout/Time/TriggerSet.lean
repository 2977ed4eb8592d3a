import CodeLayout.Event
import CodeLayout.Text.Fields

/-!
# Trigger sets

The daily times of automatic reordering: ascending, without repeats, at most
`capacity` of them.  They are read from a text of times separated by commas;
one comma at the end is tolerated.
-/

namespace CodeLayout

/-- Daily times, earliest first. -/
structure TriggerSet where
  times : List TimeOfDay
deriving DecidableEq, Repr, Inhabited

namespace TriggerSet

/-- Most times that are kept. -/
def capacity : Nat := 10

/-- Most bytes that a text of times may have. -/
def longestText : Nat := 1024

/-- Keep the earliest of the given times, none of which is repeated, in order. -/
def earliest (distinct : List TimeOfDay) : TriggerSet :=
  ⟨(distinct.mergeSort TimeOfDay.le).take capacity⟩

/-- The set of the earliest of the given times, which may be repeated. -/
def ofTimes (times : List TimeOfDay) : TriggerSet :=
  ⟨((times.mergeSort TimeOfDay.le).eraseReps).take capacity⟩

/-- Refuse the empty text and one that is too long, without reading it. -/
def checkLength (text : String) : Except ConfigError Unit :=
  if text.isEmpty then .error .scheduleEmpty
  else if longestText < text.utf8ByteSize then .error .scheduleTooLong
  else .ok ()

/-- The tokens of a text: its fields between commas, without an empty last one
that follows a comma. -/
def tokens (text : String) : List String :=
  match (Fields.ofText ',' text).reverse with
  | "" :: before :: earlier => (before :: earlier).reverse
  | fields => fields.reverse

/-- Read tokens from the left.  The result is the list of distinct times in
the order of their first occurrence, after those in `seen`; every repeated time
is reported, up to the first token that cannot be read. -/
def readTokens (seen : List TimeOfDay) :
    List String → Except ConfigError (List TimeOfDay) × List Event
  | [] => (.ok seen, [])
  | token :: rest =>
    match TimeOfDay.parse token with
    | .error e => (.error e, [])
    | .ok time =>
      if seen.contains time then
        let (result, events) := readTokens seen rest
        (result, .duplicatedTime time :: events)
      else readTokens (seen ++ [time]) rest

/-- Read a text of times, with what is reported on the way. -/
def parse (text : String) : Except ConfigError TriggerSet × List Event :=
  match checkLength text with
  | .error e => (.error e, [])
  | .ok () =>
    match readTokens [] (tokens text) with
    | (.error e, events) => (.error e, events)
    | (.ok distinct, events) =>
      let set := earliest distinct
      let excess := if capacity < distinct.length then [.tooManyTriggers] else []
      (.ok set, events ++ excess ++ set.times.map .triggerSet)

/-- The first moment after `now` at which some time of the set is reached. -/
def nextAfter (s : TriggerSet) (now : Moment) : Option Moment :=
  match s.times.find? fun t => now < t.on now.day with
  | some t => some (t.on now.day)
  | none => s.times.head?.map fun t => t.on (now.day + 1)

end TriggerSet

end CodeLayout
