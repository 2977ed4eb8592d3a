import CodeLayout.Decimal.Binary
import CodeLayout.Json
import CodeLayout.Partition
import CodeLayout.Time.TimeOfDay

/-!
# Events

Everything that is reported while the machine runs: each event has a level, a
line of text and a form for other programs.
-/

namespace CodeLayout

/-- Severity of an event, most severe first. -/
inductive Level where
  | error
  | warn
  | info
  | debug
  | trace
deriving DecidableEq, Repr, Inhabited

namespace Level

def all : List Level := [error, warn, info, debug, trace]

/-- Zero for the most severe level. -/
def rank : Level → Nat
  | error => 0
  | warn => 1
  | info => 2
  | debug => 3
  | trace => 4

/-- At least as severe as `limit`. -/
def within (level limit : Level) : Bool :=
  decide (level.rank ≤ limit.rank)

/-- The word used in settings. -/
def name : Level → String
  | error => "error"
  | warn => "warn"
  | info => "info"
  | debug => "debug"
  | trace => "trace"

/-- The word used in log lines. -/
def label : Level → String
  | error => "ERROR"
  | warn => "WARN"
  | info => "INFO"
  | debug => "DEBUG"
  | trace => "TRACE"

end Level

/-- Something worth a line in the log. -/
inductive Event where
  /-- A reordering time was kept. -/
  | triggerSet (time : TimeOfDay)
  /-- A reordering time occurred before. -/
  | duplicatedTime (time : TimeOfDay)
  | tooManyTriggers
  | reschedulingIgnored
  | orderFileIgnored
  | orderFileOverwritten (path : String)
  /-- The control loop goes to sleep until then. -/
  | nextTrigger (moment : Moment)
  | triggerFired (time : TimeOfDay)
  | passStart (pass ranked : Nat)
  | passEnd (pass relocated bytesMoved unplaced : Nat) (milliseconds : Float)
  | methodRelocated (method : String) (source target : Partition) (size : Nat)
  /-- A method found no room and stays where it is. -/
  | placementFailed (method : String) (target : Partition) (size : Nat)
  | heapFull (partition : Partition)
  /-- The ranked methods exceed the hot partition. -/
  | heapTooSmall (configured needed : Nat)
  | orderDumped (path : String) (methods : Nat)
  | orderLoaded (path : String) (methods : Nat)
  /-- A size was chosen for the managed partitions. -/
  | heapSizeChosen (size : Nat) (fitted : Bool)

namespace Event

def level : Event → Level
  | triggerSet _ | methodRelocated .. => .trace
  | passStart .. => .debug
  | nextTrigger _ | triggerFired _ | passEnd .. | orderDumped .. | orderLoaded ..
  | heapSizeChosen .. => .info
  | duplicatedTime _ | tooManyTriggers | reschedulingIgnored | orderFileIgnored
  | orderFileOverwritten _ | placementFailed .. | heapFull _ | heapTooSmall .. => .warn

/-- Year, month and day without padding, then the time, separated by points.
Leap seconds are not shown. -/
def pointedMoment (m : Moment) : String :=
  let c := m.toCalendar
  Digits.signed c.year ++ "." ++ Digits.text c.month ++ "." ++ Digits.text c.day ++ "." ++
    Digits.padded 2 c.hour ++ ":" ++ Digits.padded 2 c.minute ++ ":" ++ Digits.padded 2 c.second

/-- Year, month, day, the letter `T` and the time, leap seconds included.  A
year has at least four digits; beyond four digits a positive one gets a
sign. -/
def isoMoment (m : Moment) : String :=
  let c := m.toCalendar
  let sign := if c.year < 0 then "-" else if 9999 < c.year then "+" else ""
  sign ++ Digits.padded 4 c.year.natAbs ++ "-" ++ Digits.padded 2 c.month ++ "-" ++
    Digits.padded 2 c.day ++ "T" ++ Digits.padded 2 c.hour ++ ":" ++
    Digits.padded 2 c.minute ++ ":" ++ Digits.padded 2 c.shownSecond

/-- The event as a line of text. -/
def text : Event → String
  | triggerSet time => "Set time trigger at " ++ time.display
  | duplicatedTime time => "time " ++ time.display ++ " is duplicated in JBoltRescheduling"
  | tooManyTriggers =>
    "JBoltRescheduling support up to 10 time settings, any excess will be ignored."
  | reschedulingIgnored => "JBoltRescheduling is ignored because it is not in auto mode."
  | orderFileIgnored => "JBoltOrderFile is ignored because it is in auto mode."
  | orderFileOverwritten path =>
    "JBoltOrderFile to dump already exists and will be overwritten: file=" ++ path ++ "."
  | nextTrigger m => "next trigger is at " ++ pointedMoment m
  | triggerFired time => "successfully trigger at " ++ time.display
  | passStart pass ranked =>
    "Reordering pass " ++ Digits.text pass ++ " started (" ++ Digits.text ranked ++
      " ranked methods)"
  | passEnd pass relocated bytesMoved unplaced milliseconds =>
    "Reordering pass " ++ Digits.text pass ++ " completed (" ++ Decimal.fixed 2 milliseconds ++
      "ms, relocated " ++ Digits.text relocated ++ " methods, " ++ Digits.text bytesMoved ++
      " bytes moved, " ++ Digits.text unplaced ++ " unplaced)"
  | methodRelocated method source target size =>
    "Relocated " ++ method ++ " (" ++ Digits.text size ++ " bytes): " ++ source.name ++ " -> " ++
      target.name
  | placementFailed method target size =>
    "No room for " ++ method ++ " (" ++ Digits.text size ++ " bytes) in " ++ target.name ++
      " or its overflow heaps, left in place"
  | heapFull partition => partition.name ++ " is full"
  | heapTooSmall configured needed =>
    "JBolt reordering not complete because JBolt CodeHeap is too small to place all " ++
      "ordered methods. Please use -XX:JBoltCodeHeapSize to enlarge. JBoltCodeHeapSize=" ++
      Digits.text configured ++ " B ( need " ++ Digits.text needed ++ " B)."
  | orderDumped path methods =>
    "Dumped " ++ Digits.text methods ++ " methods to JBoltOrderFile: file=" ++ path ++ "."
  | orderLoaded path methods =>
    "Loaded " ++ Digits.text methods ++ " methods from JBoltOrderFile: file=" ++ path ++ "."
  | heapSizeChosen size fitted =>
    (if fitted then "Auto" else "Default") ++ " set JBoltCodeHeapSize=" ++ Digits.text size ++
      " B (" ++ Digits.text (size / Size.mib) ++ " MB)."

/-- The event for other programs, its entries in the order of their names. -/
def toDocument : Event → Document
  | triggerSet time => .table [("time", .text time.display), ("type", .text "trigger_set")]
  | duplicatedTime time =>
    .table [("time", .text time.display), ("type", .text "duplicated_time")]
  | tooManyTriggers => .table [("type", .text "too_many_triggers")]
  | reschedulingIgnored => .table [("type", .text "rescheduling_ignored")]
  | orderFileIgnored => .table [("type", .text "order_file_ignored")]
  | orderFileOverwritten path =>
    .table [("path", .text path), ("type", .text "order_file_overwritten")]
  | nextTrigger m => .table [("at", .text (isoMoment m)), ("type", .text "next_trigger")]
  | triggerFired time => .table [("time", .text time.display), ("type", .text "trigger_fired")]
  | passStart pass ranked =>
    .table [("pass", .integer pass), ("ranked", .integer ranked), ("type", .text "pass_start")]
  | passEnd pass relocated bytesMoved unplaced milliseconds =>
    .table [("bytes_moved", .integer bytesMoved), ("capacity_exhausted", .integer unplaced),
      ("duration_ms", .real milliseconds), ("pass", .integer pass),
      ("relocated", .integer relocated), ("type", .text "pass_end")]
  | methodRelocated method source target size =>
    .table [("from", .integer source.id), ("method", .text method), ("size", .integer size),
      ("to", .integer target.id), ("type", .text "method_relocated")]
  | placementFailed method target size =>
    .table [("method", .text method), ("size", .integer size), ("target", .integer target.id),
      ("type", .text "placement_failed")]
  | heapFull partition =>
    .table [("heap", .integer partition.id), ("type", .text "heap_full")]
  | heapTooSmall configured needed =>
    .table [("configured", .integer configured), ("needed", .integer needed),
      ("type", .text "heap_too_small")]
  | orderDumped path methods =>
    .table [("methods", .integer methods), ("path", .text path), ("type", .text "order_dumped")]
  | orderLoaded path methods =>
    .table [("methods", .integer methods), ("path", .text path), ("type", .text "order_loaded")]
  | heapSizeChosen size fitted =>
    .table [("auto", .flag fitted), ("size", .integer size), ("type", .text "code_heap_size_set")]

end Event

end CodeLayout
