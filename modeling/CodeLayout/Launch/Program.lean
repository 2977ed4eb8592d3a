import CodeLayout.Launch.CommandLine
import CodeLayout.Launch.Config
import CodeLayout.Launch.LogFilter
import CodeLayout.Startup

/-!
# The program

A run of the program on a command line: load the configuration, apply the
machine arguments, start a session, do what the command line asks for, and stop
the session.  What the run would show is collected in order; the first error
ends it, and the lines already collected stay.
-/

namespace CodeLayout

/-- Everything outside the program that a run depends on. -/
structure Surroundings where
  environment : Environment
  /-- The home directory. -/
  home : Option String
  /-- The directory for configurations. -/
  configHome : Option String
  files : FileTree
  host : Host
  /-- What the clock shows. -/
  now : Moment

/-- One thing that a run lets its surroundings see. -/
inductive Action where
  /-- A line of the program's own on standard output. -/
  | print (line : String)
  | log (output : LogOutput) (line : LogLine)
  /-- A line of the program's own on standard error. -/
  | complain (line : String)
  /-- Let so many seconds pass. -/
  | pause (seconds : Nat)
deriving DecidableEq, Repr

/-- What a run leaves behind. -/
structure Outcome where
  /-- Zero after success, one after an error, two where the command line cannot
  be read. -/
  exit : Nat
  /-- Oldest first. -/
  actions : List Action
  files : FileTree

/-- What a run has changed so far. -/
structure Program.State where
  files : FileTree
  actions : List Action

/-- A part of a run, which may fail. -/
abbrev Program := ExceptT LaunchError (StateM Program.State)

namespace Program

/-- Where the program writes its log, and what of it. -/
structure Logging where
  config : EventLog.Config
  filter : LogFilter
  output : LogOutput

def act (actions : List Action) : Program Unit :=
  modify fun s => { s with actions := s.actions ++ actions }

def print (line : String) : Program Unit :=
  act [.print line]

/-- A result that may be an error. -/
def lift (result : Except LaunchError α) : Program α :=
  match result with
  | .ok value => pure value
  | .error e => throw e

/-- Show the lines that the filter admits. -/
def show_ (l : Logging) (lines : List LogLine) : Program Unit :=
  act ((lines.filter l.filter.admits).map fun line => .log l.output line.visible)

/-- Log events. -/
def logEvents (l : Logging) (events : List Event) : Program Unit :=
  show_ l (events.foldl EventLog.log (EventLog.ofConfig l.config)).lines

/-- The target of the program's own log lines. -/
def target : String := "jboltctl"

def debug (l : Logging) (text : String) : Program Unit :=
  show_ l [⟨.debug, target, text⟩]

/-- The places of the configuration where the command line names none. -/
def configPlaces (w : Surroundings) : List String :=
  Config.places w.home w.configHome

/-- The configuration: the file that the command line names, or the first one
in the usual places. -/
def loadConfig (w : Surroundings) (c : CommandLine) : Except LaunchError Config :=
  match c.config with
  | some path => Config.load w.environment w.files path
  | none => Config.loadFirst w.environment w.files (configPlaces w)

/-- The options of a configuration with the machine arguments applied. -/
def settings (config : Config) (arguments : List String) : Except LaunchError LaunchSettings :=
  match LaunchSettings.applyAll ⟨config.options, LogSettings.default⟩ arguments with
  | (settings, none) => .ok settings
  | (_, some e) => .error e

/-- The variable that holds a log filter for runs without log arguments. -/
def filterVariable : String := "JBOLTCTL_LOG"

/-- The filter for log lines: that of the arguments if they select anything,
else that of the environment if it can be read. -/
def chooseFilter (w : Surroundings) (log : LogSettings) : LogFilter :=
  let own := LogFilter.ofTextLoosely log.filter
  if log.explicit then own
  else ((w.environment.lookup filterVariable).bind LogFilter.ofText?).getD own

/-- What is said about the filter of the arguments. -/
def filterComplaints (log : LogSettings) : List String :=
  if log.explicit then LogFilter.complaints log.filter else []

/-- How a run logs. -/
def logging (w : Surroundings) (config : Config) (log : LogSettings) : Logging where
  config :=
    { level := log.eventLevel.getD .error
      forward := log.eventLevel.isSome
      json := config.json
      record := false }
  filter := chooseFilter w log
  output := log.output

/-- Start a session and log what it reports. -/
def start (w : Surroundings) (l : Logging) (o : Options) : Program Session := do
  let (result, after) := Startup.run (Startup.session o w.host w.now 0) (← get).files
  modify fun s => { s with files := after.files }
  logEvents l after.events
  match result with
  | .ok s => return s.drain.2
  | .error fault => throw (.startup fault)

/-- Take a step of a session and log what it reports. -/
def step (l : Logging) (result : Except Fault α × Session) : Program (α × Session) := do
  let (events, s) := result.2.drain
  modify fun t => { t with files := s.files }
  logEvents l events
  match result.1 with
  | .ok value => return (value, s)
  | .error fault => throw (.startup fault)

/-- The methods of the demonstration. -/
def demoMethod (i : Nat) : Method :=
  ⟨"demo/Workload", "m" ++ Digits.text i, "()V"⟩

/-- Sizes from 256 bytes up, spread over less than four kibibytes. -/
def demoSize (i : Nat) : Nat :=
  256 + i * 97 % 3840

def demoCode (i : Nat) : ByteArray :=
  ⟨Array.replicate (demoSize i) 0xCC⟩

/-- Compile the methods of the demonstration. -/
def compileDemo (l : Logging) : Session → List Nat → Program Session
  | s, [] => return s
  | s, i :: rest => do
    let (_, s) ← step l (s.compile (demoMethod i) (demoCode i) .nonProfiled)
    compileDemo l s rest

/-- Ten samples more for each method than for the one in front of it. -/
def sampleDemo (h : Hotness) (count : Nat) : Hotness :=
  (List.range count).foldl
    (fun h i => h.sample (demoMethod i) (UInt64.ofNat ((i + 1) * 10))) h

/-- A pass in one line. -/
def passLine (r : PassReport) : String :=
  "Pass " ++ Digits.text r.pass ++ ": ranked " ++ Digits.text r.ranked ++ ", relocated " ++
    Digits.text r.relocated ++ ", evicted " ++ Digits.text r.evicted ++ ", " ++
    Digits.text r.bytesMoved ++ " bytes moved, " ++ Digits.text r.unplaced ++ " without space"

/-- Compile methods, sample them and reorder them. -/
def demo (l : Logging) (s : Session) (count : Nat) : Program Session := do
  let s ← compileDemo l s (List.range count)
  if s.store.engine?.isNone then
    print ("Compiled " ++ Digits.text count ++ " methods; JBolt is off, nothing to reorder")
    return s
  let s := { s with hotness := sampleDemo s.hotness count }
  let (report, s) ← step l (s.reorder 0)
  print (passLine report)
  match report.dumped with
  | some path => print ("Order written to " ++ path)
  | none => pure ()
  return s

/-- Let the control loop reach its moments up to the end of a pause; there is at
most one in a minute. -/
def wakeUntil (until_ : Moment) : Nat → Session → Session
  | 0, s => s
  | limit + 1, s =>
    match s.loop.bind ControlLoop.target with
    | some moment => if moment ≤ until_ then wakeUntil until_ limit (s.wake moment 0) else s
    | none => s

/-- Keep running for some seconds. -/
def rest (w : Surroundings) (l : Logging) (s : Session) (seconds : Nat) : Program Session := do
  act [.pause seconds]
  let (_, s) ← step l (.ok (), wakeUntil (w.now.later seconds) (seconds / 60 + 1) s)
  return s

/-- The name and the version of the program and of its library. -/
def versionLine : String := "jboltctl 0.1.0 (jbolt 0.1.0)"

/-- Stop a session. -/
def finish (l : Logging) (s : Session) : Program Unit := do
  let (report, _) ← step l (s.shutdown 0)
  match report with
  | some r =>
    debug l ("final pass " ++ Digits.text r.pass ++ " recorded " ++ Digits.text r.ranked ++
      " methods")
  | none => pure ()

/-- Do what a command line asks for. -/
def perform (w : Surroundings) (c : CommandLine) (arguments : List String) : Program Unit := do
  let config ← lift (loadConfig w c)
  let settings ← lift (settings config arguments)
  let l := logging w config settings.log
  act ((filterComplaints settings.log).map .complain)
  let s ← start w l settings.options
  debug l ("VM started, JBolt mode " ++ s.mode.name)
  let s ← match c.demo with
    | some count => demo l s count
    | none => pure s
  let s ← match c.runFor with
    | some seconds => rest w l s seconds
    | none => pure s
  if c.status then
    (Fields.ofText '\n' (Json.indented 0 (s.status (c.runFor.getD 0)))).forM print
  if c.version then print versionLine
  finish l s

/-- All variables of the environment that a run looks at. -/
def variableNames : List String :=
  Options.variableNames ++ [CommandLine.configVariable, filterVariable]

/-- The command line and the machine arguments; the first argument is the name
of the program. -/
def read (w : Surroundings) (arguments : List String) : Option CommandLine × List String :=
  let (machine, other) := LaunchArgument.split arguments
  (CommandLine.ofArguments w.environment (other.drop 1), machine)

/-- The order file that a run may read or write. -/
def orderFile? (w : Surroundings) (arguments : List String) : Option String := do
  let (c, machine) := read w arguments
  let config ← (loadConfig w (← c)).toOption
  let settings ← (settings config machine).toOption
  settings.options.orderFile

/-- Run the program. -/
def run (w : Surroundings) (arguments : List String) : Outcome :=
  match read w arguments with
  | (none, _) => ⟨2, [], w.files⟩
  | (some c, machine) =>
    match StateT.run (ExceptT.run (perform w c machine)) ⟨w.files, []⟩ with
    | (.ok (), s) => ⟨0, s.actions, s.files⟩
    | (.error e, s) => ⟨1, s.actions ++ e.report.map Action.print, s.files⟩

end Program

end CodeLayout
