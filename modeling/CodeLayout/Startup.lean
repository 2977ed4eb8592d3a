import CodeLayout.Options.Check
import CodeLayout.Session

/-!
# Starting a session

The start makes one check after the other; the first that fails ends it.  What
it has reported and done to files until then stays reported and done.
-/

namespace CodeLayout

/-- What the start has changed so far. -/
structure Startup.State where
  files : FileTree
  events : List Event

/-- A step of the start, which may fail. -/
abbrev Startup := ExceptT Fault (StateM Startup.State)

namespace Startup

def announce (events : List Event) : Startup Unit :=
  modify fun s => { s with events := s.events ++ events }

/-- A check of the options. -/
def check (result : Except ConfigError α) : Startup α :=
  match result with
  | .ok value => pure value
  | .error cause => throw (.config cause)

/-- A result that may be a fault. -/
def lift (result : Except Fault α) : Startup α :=
  match result with
  | .ok value => pure value
  | .error fault => throw fault

/-- The order file to use.  An old one is removed before dumping, and one to
load has to exist. -/
def chooseOrderFile (o : Options) : Startup (Option String) := do
  if o.isAuto then
    if o.orderFile.isSome then announce [.orderFileIgnored]
    return none
  match o.orderFile with
  | none => throw (.config .orderFileUnset)
  | some path =>
    let files := (← get).files
    if files.has path then
      if o.isDump then
        announce [.orderFileOverwritten path]
        match files.remove path with
        | .ok files => modify fun s => { s with files }
        | .error cause => throw (.file cause)
    else if o.isLoad then throw (.config (.orderFileInaccessible path))
    return some path

/-- The times of automatic reordering.  In the other modes only the length of
the text is checked. -/
def chooseTriggers (o : Options) : Startup (Option TriggerSet) := do
  match o.rescheduling with
  | none => return none
  | some text =>
    check (TriggerSet.checkLength text)
    if o.isAuto then
      let (set, events) := TriggerSet.parse text
      announce events
      return some (← check set)
    else
      announce [.reschedulingIgnored]
      return none

/-- Read the order to load. -/
def loadOrder (path : String) : Startup Order := do
  match (← get).files.readText path with
  | .error _ => throw (.config (.orderFileInaccessible path))
  | .ok text =>
    match Order.parse text.toList with
    | .error e => throw e.toFault
    | .ok order =>
      announce [.orderLoaded path order.size]
      return order

/-- Size of a managed partition that holds a whole order. -/
def fittedSize (order : Order) : Nat :=
  max (Size.alignUp order.paddedSize Size.heapAlignment) Size.heapAlignment

/-- Choose the size of the managed partitions where it was not given. -/
def chooseHeapSize (o : Options) (seed : Option Order) : Startup Options := do
  if o.hotHeapSize.isSome || o.isDump then return o
  match seed with
  | some order =>
    if Size.largest - Size.heapAlignment < order.paddedSize then
      throw (.config (.heapTooLarge order.paddedSize))
    let size := fittedSize order
    announce [.heapSizeChosen size true]
    return { o with hotHeapSize := some (UInt64.ofNat size) }
  | none =>
    announce [.heapSizeChosen o.hotHeap false]
    return o

/-- The empty cache that the options call for. -/
def reserveCache (o : Options) (host : Host) : Startup Cache := do
  let segmentation ← check (Segmentation.ofOptions o)
  lift (Cache.reserve segmentation host)

/-- A session without reordering. -/
def startPlain (o : Options) (host : Host) : Startup Session := do
  let cache ← reserveCache o host
  let s ← get
  return {
    options := o
    mode := .off
    store := .plain cache s.events
    hotness := Hotness.empty
    triggers := none
    loop := none
    initialPass := none
    files := s.files }

/-- The engine of a mode, with the events of the start so far. -/
def prepareEngine (mode : Mode) (cache : Cache) (path : Option String) (seed : Option Order) :
    Startup Engine := do
  let engine := Engine.start (mode = .dump) cache
  let engine := if mode = .dump then { engine with dumpPath := path } else engine
  let engine := match seed with
    | some order => engine.withSeed order
    | none => engine
  return engine.report (← get).events

/-- The pass made at the start. -/
def firstPass (engine : Engine) (elapsed : Nat) : Startup (PassReport × Engine) := do
  let outcome := engine.runWith (← get).files [] elapsed
  set ({ files := outcome.files, events := outcome.engine.events } : State)
  let report ← lift outcome.result
  return (report, outcome.engine)

/-- Start the control loop of the automatic mode, if there are times for it. -/
def startLoop (s : Session) (now : Moment) : Startup Session := do
  match s.triggers with
  | none => return s
  | some set =>
    if s.mode = .auto && !set.times.isEmpty then
      let loop ← lift (ControlLoop.ofTriggers set).start
      let started := (s.lookOnce loop now).2
      modify fun t => { t with events := started.store.events }
      return started
    else return s

/-- A session with reordering. -/
def startReordering (o : Options) (host : Host) (now : Moment) (elapsed : Nat) :
    Startup Session := do
  let mode := Mode.ofOptions o
  check o.checkMode
  check o.checkDependency
  let path ← chooseOrderFile o
  let triggers ← chooseTriggers o
  let seed ← match mode, path with
    | .load, some path => (loadOrder path).map some
    | _, _ => pure none
  let o ← chooseHeapSize o seed
  let cache ← reserveCache o host
  let engine ← prepareEngine mode cache path seed
  let (initialPass, engine) ← firstPass engine elapsed
  startLoop
    { options := o
      mode
      store := .reordered engine
      hotness := Hotness.empty
      triggers
      loop := none
      initialPass := some initialPass
      files := (← get).files }
    now

/-- Start a session with heaps at the given addresses.  `now` is what the clock
shows, `elapsed` the time that the first pass takes. -/
def session (o : Options) (host : Host) (now : Moment) (elapsed : Nat) :
    Startup Session := do
  check o.checkDependents
  if o.enabled then startReordering o host now elapsed else startPlain o host

/-- Run the start on a file tree. -/
def run (start : Startup Session) (files : FileTree) : Except Fault Session × State :=
  StateT.run (ExceptT.run start) { files, events := [] }

end Startup

end CodeLayout
