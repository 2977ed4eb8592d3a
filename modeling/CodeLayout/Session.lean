import CodeLayout.Engine.Pass
import CodeLayout.Hotness
import CodeLayout.Time.ControlLoop

/-!
# Sessions

A session is a running machine as far as its code cache is concerned: the
options it was started with, the installed code, the samples, and the control
loop of the automatic mode.  With reordering off there is only the code cache.
-/

namespace CodeLayout

/-- Where code is installed. -/
inductive CodeStore where
  /-- A cache that nobody reorders. -/
  | plain (cache : Cache) (events : List Event)
  | reordered (engine : Engine)

namespace CodeStore

def cache : CodeStore → Cache
  | plain cache _ => cache
  | reordered engine => engine.cache

/-- All events so far, oldest first. -/
def events : CodeStore → List Event
  | plain _ events => events
  | reordered engine => engine.events

def engine? : CodeStore → Option Engine
  | plain _ _ => none
  | reordered engine => some engine

def withCache (s : CodeStore) (cache : Cache) : CodeStore :=
  match s with
  | plain _ events => plain cache events
  | reordered engine => reordered { engine with cache }

def withEvents (s : CodeStore) (events : List Event) : CodeStore :=
  match s with
  | plain cache _ => plain cache events
  | reordered engine => reordered { engine with events }

def report (s : CodeStore) (events : List Event) : CodeStore :=
  s.withEvents (s.events ++ events)

end CodeStore

/-- A running machine. -/
structure Session where
  options : Options
  mode : Mode
  store : CodeStore
  hotness : Hotness
  /-- Times of automatic reordering. -/
  triggers : Option TriggerSet
  loop : Option ControlLoop
  /-- The pass made at the start. -/
  initialPass : Option PassReport
  files : FileTree

namespace Session

def report (s : Session) (events : List Event) : Session :=
  { s with store := s.store.report events }

/-- Take the events reported so far. -/
def drain (s : Session) : List Event × Session :=
  (s.store.events, { s with store := s.store.withEvents [] })

/-- Install compiled code; a compilation counts in the ranking even if its
code finds no room. -/
def compile (s : Session) (m : Method) (code : ByteArray) (p : Partition) :
    Except Fault Blob × Session :=
  match s.store with
  | .reordered engine =>
    let (result, engine) := engine.install m code p
    (result, { s with store := .reordered engine, hotness := s.hotness.compile m })
  | .plain cache events =>
    let served := cache.allocate p m code
    (served.answer, { s with store := .plain served.cache (events ++ served.events) })

/-- Run a pass of the engine with the samples at hand. -/
def runPass (s : Session) (engine : Engine) (elapsed : Nat) : Except Fault PassReport × Session :=
  let outcome := engine.runWith s.files s.hotness.ranking elapsed
  (outcome.result, { s with store := .reordered outcome.engine, files := outcome.files })

/-- Run a pass now. -/
def reorder (s : Session) (elapsed : Nat) : Except Fault PassReport × Session :=
  match s.store with
  | .reordered engine => s.runPass engine elapsed
  | .plain _ _ => (.error (.internal "JBolt is not enabled"), s)

/-- Let the control loop look at the clock. -/
def lookOnce (s : Session) (c : ControlLoop) (reading : Moment) : Option TimeOfDay × Session :=
  let seen := c.look reading
  (seen.call, { s.report seen.events with loop := some seen.loop })

/-- Let the control loop work at a clock reading until it waits again.  Where
its moment is reached a pass is run, and the next moment is chosen after it. -/
def wake (s : Session) (reading : Moment) (elapsed : Nat) : Session :=
  match s.loop with
  | none => s
  | some c =>
    match s.lookOnce c reading with
    | (none, s) => s
    | (some _, s) =>
      let s := (s.reorder elapsed).2
      match s.loop with
      | some c => (s.lookOnce c reading).2
      | none => s

/-- Stop the control loop; when recording, write the final order. -/
def shutdown (s : Session) (elapsed : Nat) : Except Fault (Option PassReport) × Session :=
  let s := { s with loop := s.loop.map ControlLoop.stop }
  match s.store with
  | .reordered engine =>
    if engine.recording then
      let (result, s) := s.runPass engine elapsed
      (result.map some, s)
    else (.ok none, s)
  | .plain _ _ => (.ok none, s)

/-- One active partition in figures. -/
def partitionStatus (h : Heap) : Document :=
  .table [("name", .text h.partition.name), ("capacity", .integer h.capacity),
    ("used", .integer h.used), ("methods", .integer h.blobs.length)]

/-- The sums over all passes, `uptime` in seconds. -/
def statisticsStatus (s : Statistics) (uptime : Nat) : Document :=
  .table [("passes", .integer s.passes.toNat), ("dump_passes", .integer s.dumpPasses.toNat),
    ("relocations", .integer s.relocations.toNat), ("evictions", .integer s.evictions.toNat),
    ("bytes_moved", .integer s.bytesMoved.toNat),
    ("capacity_exhausted", .integer s.unplaced.toNat),
    ("avg_pass_ms", .real s.meanMilliseconds), ("max_pass_ms", .real s.longestMilliseconds),
    ("uptime_secs", .integer uptime)]

/-- Everything worth knowing about a session, for other programs. -/
def status (s : Session) (uptime : Nat) : Document :=
  let times := (s.triggers.map TriggerSet.times).getD []
  .table [("mode", .text s.mode.name),
    ("partitions", .list (s.store.cache.heaps.map partitionStatus)),
    ("triggers", .list (times.map fun t => .text t.display)),
    ("scheduler_running", .flag ((s.loop.map ControlLoop.running).getD false)),
    ("stats", match s.store.engine? with
      | some engine => statisticsStatus engine.statistics uptime
      | none => .null)]

end Session

end CodeLayout
