import CodeLayout.Cache
import CodeLayout.FileTree
import CodeLayout.Forwarding
import CodeLayout.Order.Text
import CodeLayout.Placement
import CodeLayout.Safepoint
import CodeLayout.Statistics

/-!
# The reordering engine

The engine knows the installed code of every method.  It installs compiled
code, takes code out again, and runs passes: in the moving mode a pass brings
the methods where a ranking wants them, in the recording mode it only writes
the order down.

An order may be given as a seed: its methods are compiled straight into the
managed partition whose budget they fall into, and the first pass follows the
seed instead of the ranking at hand.
-/

namespace CodeLayout

/-- Code with all that is known about it. -/
structure Engine where
  /-- Passes write the order down and move nothing. -/
  recording : Bool
  cache : Cache
  safepoint : Safepoint
  placements : Placements
  /-- Moves of the last pass that moved code. -/
  forwarding : Forwarding
  passes : Nat
  /-- Installations so far. -/
  compilations : Nat
  /-- File to which recording passes write. -/
  dumpPath : Option String
  seed : Option Order
  /-- The seed has been followed. -/
  seedUsed : Bool
  /-- Partitions for the methods of the seed. -/
  seedTargets : List (Method × Partition)
  /-- Order of the last pass. -/
  lastOrder : Option Order
  statistics : Statistics
  /-- All events so far, oldest first. -/
  events : List Event

namespace Engine

/-- An engine on an empty cache. -/
def start (recording : Bool) (cache : Cache) : Engine where
  recording
  cache
  safepoint := Safepoint.initial
  placements := []
  forwarding := Forwarding.empty 0
  passes := 0
  compilations := 0
  dumpPath := none
  seed := none
  seedUsed := false
  seedTargets := []
  lastOrder := none
  statistics := Statistics.empty
  events := []

/-- Add events to the log. -/
def report (e : Engine) (events : List Event) : Engine :=
  { e with events := e.events ++ events }

/-- Budgets of the managed partitions while a seed is spread over them. -/
structure SeedBudget where
  hotUsed : Nat
  tmpUsed : Nat
  targets : List (Method × Partition)

/-- The next method of a seed goes to the hot partition, else to the tmp one,
else nowhere in particular. -/
def SeedBudget.assign (s : Segmentation) (b : SeedBudget) (m : Method) (size : Nat) : SeedBudget :=
  let padded := Size.padded size
  if b.hotUsed + padded ≤ Plan.budget s .hot then
    { b with hotUsed := b.hotUsed + padded, targets := b.targets ++ [(m, .hot)] }
  else if b.tmpUsed + padded ≤ Plan.budget s .tmp then
    { b with tmpUsed := b.tmpUsed + padded, targets := b.targets ++ [(m, .tmp)] }
  else b

/-- The partitions for the methods of a seed. -/
def seedTargetsOf (s : Segmentation) (order : Order) : List (Method × Partition) :=
  let start : SeedBudget := ⟨0, 0, []⟩
  (order.methods.foldl (fun b (m, size) => b.assign s m size) start).targets

/-- Use an order as the seed. -/
def withSeed (e : Engine) (order : Order) : Engine :=
  { e with seed := some order, seedTargets := seedTargetsOf e.cache.segmentation order }

/-- The partition into which a method is compiled. -/
def preferred (e : Engine) (m : Method) (requested : Partition) : Partition :=
  (e.seedTargets.lookup m).getD requested

/-- Install compiled code.  It replaces earlier code of the same method, which
is only released once the new code has found its place. -/
def install (e : Engine) (m : Method) (code : ByteArray) (requested : Partition) :
    Except Fault Blob × Engine :=
  let served := e.cache.allocate (e.preferred m requested) m code
  let e := { e.report served.events with cache := served.cache }
  match served.answer with
  | .error fault => (.error fault, e)
  | .ok blob =>
    let placed : Placement :=
      { method := m, blob, rank := none, compiled := e.compilations + 1 }
    let settle (cache : Cache) : Except Fault Blob × Engine :=
      (.ok blob,
        { e with
          cache
          placements := e.placements.erase m ++ [placed]
          compilations := e.compilations + 1 })
    match e.placements.find? m with
    | none => settle e.cache
    | some earlier =>
      match e.cache.release earlier.blob with
      | .error fault => (.error fault, { e with placements := e.placements.erase m })
      | .ok (_, cache) => settle cache

/-- Take the code of a method out. -/
def unload (e : Engine) (m : Method) : Except Fault Unit × Engine :=
  match e.placements.find? m with
  | none => (.error (.unknownMethod m.display), e)
  | some placed =>
    let e := { e with placements := e.placements.erase m }
    match e.cache.release placed.blob with
    | .error fault => (.error fault, e)
    | .ok (_, cache) => (.ok (), { e with cache })

/-- The address at which the code of a method starts. -/
def entry? (e : Engine) (m : Method) : Option Nat :=
  (e.placements.find? m).map Placement.address

/-- The address that takes the place of a possibly outdated one. -/
def resolve (e : Engine) (address : Nat) : Nat :=
  e.forwarding.forward address

/-- The order that a ranking gives to the installed methods. -/
def orderOf (ranking : List Method) (placements : Placements) : Order :=
  Order.ofMethods (ranking.filterMap fun m => (placements.find? m).map fun p => (m, p.size))

/-- Write the order of the last pass to a file. -/
def dumpOrder (e : Engine) (files : FileTree) (path : String) :
    Except Fault Nat × Engine × FileTree :=
  match e.lastOrder with
  | none => (.error .noOrder, e, files)
  | some order =>
    match files.writeText path (String.ofList order.render) with
    | .error cause => (.error (.file cause), e, files)
    | .ok files => (.ok order.size, e.report [.orderDumped path order.size], files)

end Engine

end CodeLayout
