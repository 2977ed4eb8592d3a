import CodeLayout.Engine.Termination

/-!
# Passes

A recording pass turns the ranking into an order and writes it down.  A moving
pass plans, stops the machine if there is anything to move, moves, and lets the
machine go on.  Whatever happens to a pass, its number is spent and the moves
made so far stay made; only a pass that ends well is reported and counted in
the statistics.

The time that a pass takes is measured by the caller and handed in.
-/

namespace CodeLayout

/-- What an operation of the engine that may write files leaves behind. -/
structure Engine.Outcome (α : Type) where
  result : Except Fault α
  engine : Engine
  files : FileTree

namespace Engine

/-- Write the order down. -/
def recordOrder (e : Engine) (files : FileTree) (ranking : List Method) (report : PassReport) :
    Outcome PassReport :=
  let order := orderOf ranking e.placements
  let report := { report with ranked := order.size }
  match e.dumpPath with
  | none => ⟨.ok report, { e with lastOrder := some order }, files⟩
  | some path =>
    match files.writeText path (String.ofList order.render) with
    | .error cause => ⟨.error (.file cause), e, files⟩
    | .ok files =>
      let e := e.report [.orderDumped path order.size]
      ⟨.ok { report with dumped := some path }, { e with lastOrder := some order }, files⟩

/-- Give every installed method the rank that a plan has for it. -/
def applyRanks (plan : Plan) (placements : Placements) : Placements :=
  placements.map fun placed => { placed with rank := plan.rankOf placed.method }

/-- The warning that the hot partition cannot hold all ranked methods. -/
def shortage (s : Segmentation) (plan : Plan) : List Event :=
  if s.isActive .hot && decide (s.capacity .hot < plan.needed) then
    [.heapTooSmall (s.capacity .hot) plan.needed]
  else []

/-- The state in which the moves of a plan are begun. -/
def transit (e : Engine) (pass : Nat) (moves : List Move) : Transit where
  safepoint := e.safepoint
  cache := e.cache
  placements := e.placements
  forwarding := Forwarding.empty pass
  pending := moves
  parked := []
  compacted := []
  moved := []
  bytesMoved := 0
  evicted := 0
  unplaced := 0
  events := []

/-- Carry out the moves of a plan at a safepoint. -/
def executeMoves (e : Engine) (pass : Nat) (moves : List Move) : Except Fault Unit × Transit :=
  (transit { e with safepoint := e.safepoint.synchronize } pass moves).run

/-- Bring the methods where the ranking wants them. -/
def reorder (e : Engine) (ranking : List Method) (report : PassReport) :
    Except Fault PassReport × Engine :=
  let plan := Plan.ofRanking e.cache.segmentation e.placements ranking
  let e :=
    { e with
      placements := applyRanks plan e.placements
      lastOrder := some (orderOf ranking e.placements)
      events := e.events ++ shortage e.cache.segmentation plan }
  let report := { report with ranked := plan.ranks.length }
  if plan.moves.isEmpty then
    (.ok report, { e with forwarding := (Forwarding.empty report.pass).close })
  else
    let (result, t) := e.executeMoves report.pass plan.moves
    let e :=
      { e with
        cache := t.cache
        placements := t.placements
        safepoint := t.safepoint.release
        forwarding := t.forwarding.close
        events := e.events ++ t.events }
    (result.map fun () =>
      { report with
        relocated := t.moved.length
        evicted := t.evicted
        bytesMoved := t.bytesMoved
        unplaced := t.unplaced }, e)

/-- Note the end of a pass. -/
def finishPass (e : Engine) (report : PassReport) : Engine :=
  let e := e.report
    [.passEnd report.pass report.relocated report.bytesMoved report.unplaced
      (PassReport.milliseconds report.elapsed)]
  { e with statistics := e.statistics.record report }

/-- Run a pass for a ranking, hottest method first.  `elapsed` is the time the
pass takes in nanoseconds. -/
def runPass (e : Engine) (files : FileTree) (ranking : List Method) (elapsed : Nat) :
    Outcome PassReport :=
  let pass := e.passes + 1
  let e := { e with passes := pass }.report [.passStart pass ranking.length]
  let outcome : Outcome PassReport :=
    if e.recording then e.recordOrder files ranking (PassReport.start pass)
    else
      let (result, e) := e.reorder ranking (PassReport.start pass)
      ⟨result, e, files⟩
  match outcome.result with
  | .error fault => { outcome with result := .error fault }
  | .ok report =>
    let report := { report with elapsed }
    { outcome with result := .ok report, engine := outcome.engine.finishPass report }

/-- Run a pass that follows the seed the first time and `ranking` after that. -/
def runWith (e : Engine) (files : FileTree) (ranking : List Method) (elapsed : Nat) :
    Outcome PassReport :=
  match e.seed with
  | some order =>
    if e.seedUsed then e.runPass files ranking elapsed
    else { e with seedUsed := true }.runPass files order.ranking elapsed
  | none => e.runPass files ranking elapsed

end Engine

end CodeLayout
