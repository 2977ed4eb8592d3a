import CodeLayout.Time.TriggerSet

/-!
# The control loop

The loop chooses the next trigger moment after the clock reading at hand, waits
until a reading reaches it, fires, and chooses again.  It never goes back
behind the moment that fired last, so a clock that is set back cannot make it
fire twice.  All it knows of the time are the readings handed to it.

Whether it is to go on, the loop only asks when it looks at the clock.  A moment
that was reached is reported, counted and handed on in separate steps, between
which the loop may be told to stop; it brings the firing to its end all the same.
-/

namespace CodeLayout

/-- What the loop does next. -/
inductive ControlLoop.Stage where
  /-- Look at the clock. -/
  | watching
  /-- Report the moment that was reached. -/
  | reporting (moment : Moment)
  /-- Count its firing. -/
  | counting (moment : Moment)
  /-- Hand its time on. -/
  | calling (moment : Moment)
  /-- Nothing; the loop is not under way. -/
  | ended
deriving DecidableEq, Repr

/-- The state of the loop between two steps. -/
structure ControlLoop where
  triggers : TriggerSet
  running : Bool
  /-- The moment that fired last since the loop was started. -/
  lastFired : Option Moment
  /-- The moment that is waited for. -/
  target : Option Moment
  /-- Number of firings, over all starts. -/
  fired : Nat
  stage : ControlLoop.Stage
deriving DecidableEq, Repr

namespace ControlLoop

def ofTriggers (triggers : TriggerSet) : ControlLoop where
  triggers
  running := false
  lastFired := none
  target := none
  fired := 0
  stage := .ended

/-- What some steps lead to. -/
structure Deed where
  loop : ControlLoop
  events : List Event
  /-- The time that is handed on. -/
  call : Option TimeOfDay

/-- Choose the moment to wait for. -/
def choose (c : ControlLoop) (reading : Moment) : Deed :=
  let from_ := (c.lastFired.map fun fired => Moment.latest fired reading).getD reading
  match c.triggers.nextAfter from_ with
  | some target => ⟨{ c with target := some target }, [.nextTrigger target], none⟩
  | none => ⟨{ c with stage := .ended }, [], none⟩

/-- See whether the moment waited for is reached. -/
def await (c : ControlLoop) (target reading : Moment) : Deed :=
  if target ≤ reading then ⟨{ c with target := none, stage := .reporting target }, [], none⟩
  else ⟨c, [], none⟩

/-- The next step of the loop; where it looks at the clock, this shows `reading`. -/
def step (c : ControlLoop) (reading : Moment) : Deed :=
  match c.stage with
  | .watching =>
    if !c.running then ⟨{ c with stage := .ended }, [], none⟩
    else match c.target with
      | none => c.choose reading
      | some target => c.await target reading
  | .reporting moment =>
    ⟨{ c with lastFired := some moment, stage := .counting moment },
      [.triggerFired (TimeOfDay.ofMoment moment)], none⟩
  | .counting moment => ⟨{ c with fired := c.fired + 1, stage := .calling moment }, [], none⟩
  | .calling moment => ⟨{ c with stage := .watching }, [], some (TimeOfDay.ofMoment moment)⟩
  | .ended => ⟨c, [], none⟩

/-- Go one step further. -/
def Deed.next (d : Deed) (reading : Moment) : Deed :=
  let further := d.loop.step reading
  ⟨further.loop, d.events ++ further.events, d.call <|> further.call⟩

/-- One look at the clock and what follows from it: a firing that it leads to is brought
to its end. -/
def look (c : ControlLoop) (reading : Moment) : Deed :=
  let seen := c.step reading
  match seen.loop.stage with
  | .reporting _ => ((seen.next reading).next reading).next reading
  | _ => seen

/-- Set the loop going.  It has to stand still and to have a time to wait
for. -/
def start (c : ControlLoop) : Except Fault ControlLoop :=
  if c.running then .error (.internal "JBolt control thread already started")
  else if c.triggers.times.isEmpty then
    .error (.internal "JBolt control thread needs at least one trigger")
  else .ok { c with running := true, lastFired := none, stage := .watching }

/-- Tell the loop to stop. -/
def stop (c : ControlLoop) : ControlLoop :=
  { c with running := false, target := none }

end ControlLoop

end CodeLayout
