import CodeLayout.Proofs.Time.Triggers
import CodeLayout.Time.ControlLoop

/-!
# Firings of the control loop

A loop takes its steps while the clock may stand, leap or be set back, and it may be told
to stop between any two of them.  A moment fires when the loop finds it reached; what is
reported, counted and handed on follows in the next steps.  The moments that fire grow
strictly, whatever the clock shows: each is the least trigger moment after the one before
it and after the reading at which it was chosen, and it fires at a reading that has reached
it.  Once the loop was told to stop no moment fires any more; one that was firing already
is brought to its end, and then the loop ends.
-/

namespace CodeLayout

/-- The time whose firing an event reports. -/
def Event.firedTime? : Event → Option TimeOfDay
  | triggerFired time => some time
  | _ => none

namespace ControlLoop

namespace Stage

/-- The time of a firing that is still to be reported. -/
def unreported : Stage → List TimeOfDay
  | reporting moment => [TimeOfDay.ofMoment moment]
  | _ => []

/-- The time of a firing that is still to be counted. -/
def uncounted : Stage → List TimeOfDay
  | reporting moment | counting moment => [TimeOfDay.ofMoment moment]
  | _ => []

/-- The time of a firing that is still to be handed on. -/
def uncalled : Stage → List TimeOfDay
  | reporting moment | counting moment | calling moment => [TimeOfDay.ofMoment moment]
  | _ => []

/-- Number of steps after which a firing that is under way has come to its end. -/
def remaining : Stage → Nat
  | reporting _ => 3
  | counting _ => 2
  | calling _ => 1
  | watching | ended => 0

/-- No firing is under way. -/
def isResting : Stage → Bool
  | watching | ended => true
  | _ => false

theorem unreported_of_resting {stage : Stage} (resting : stage.isResting = true) :
    stage.unreported = [] := by
  cases stage <;> first | rfl | cases resting

theorem uncounted_of_resting {stage : Stage} (resting : stage.isResting = true) :
    stage.uncounted = [] := by
  cases stage <;> first | rfl | cases resting

theorem uncalled_of_resting {stage : Stage} (resting : stage.isResting = true) :
    stage.uncalled = [] := by
  cases stage <;> first | rfl | cases resting

end Stage

/-- What happens to a loop: it takes a step, at which the clock shows a reading should it look
there, or it is told to stop. -/
inductive Input where
  | step (reading : Moment)
  | shutdown
deriving DecidableEq, Repr

/-- A moment that fired. -/
structure Firing where
  moment : Moment
  /-- The reading at which the moment was chosen. -/
  chosenAt : Moment
  /-- The reading at which it fired. -/
  reading : Moment
deriving DecidableEq, Repr

/-- The time of day at which a moment fired. -/
def Firing.time (f : Firing) : TimeOfDay :=
  TimeOfDay.ofMoment f.moment

/-- A loop with what it has done since it was started. -/
structure Watched where
  loop : ControlLoop
  /-- The reading at which the loop last chose a moment to wait for. -/
  chosenAt : Option Moment
  /-- All events, oldest first. -/
  events : List Event
  /-- The times that were handed on. -/
  calls : List TimeOfDay
  firings : List Firing

namespace Watched

/-- The firing that a step begins, if it does: the moment waited for is found reached. -/
def firing? (w : Watched) (reading : Moment) : Option Firing :=
  match w.loop.target, w.chosenAt, (w.loop.step reading).loop.stage with
  | some moment, some chosenAt, .reporting _ => some ⟨moment, chosenAt, reading⟩
  | _, _, _ => none

/-- The loop takes an input. -/
def take (w : Watched) : Input → Watched
  | .shutdown => { w with loop := w.loop.stop }
  | .step reading =>
    let done := w.loop.step reading
    { loop := done.loop
      chosenAt :=
        if w.loop.target.isNone && done.loop.target.isSome then some reading else w.chosenAt
      events := w.events ++ done.events
      calls := w.calls ++ done.call.toList
      firings := w.firings ++ (w.firing? reading).toList }

/-- The loop takes some inputs. -/
def takeAll (w : Watched) (inputs : List Input) : Watched :=
  inputs.foldl take w

end Watched

/-- A loop that has just been started. -/
def watch (c : ControlLoop) : Watched where
  loop := c
  chosenAt := none
  events := []
  calls := []
  firings := []

/-- The later one of the moment that fired before, if one did, and of a reading. -/
def threshold (previous : Option Moment) (reading : Moment) : Moment :=
  previous.elim reading fun fired => max fired reading

/-- The least trigger moment after the one that fired before it and after the reading at
which it is chosen. -/
def IsNext (s : TriggerSet) (previous : Option Moment) (reading next : Moment) : Prop :=
  IsLeast {m | m ∈ s.moments ∧ threshold previous reading < m} next

/-- What a loop has done is in order. -/
structure Punctual (s : TriggerSet) (w : Watched) : Prop where
  /-- No moment fires twice, and none after a later one. -/
  increasing : (w.firings.map Firing.moment).Pairwise (· < ·)
  /-- The time of a firing belongs to the set, and its moment has come on some day. -/
  ofTrigger : ∀ f ∈ w.firings, f.time ∈ s.times ∧ ∃ day, f.time.on day = f.moment
  wholeMinute : ∀ f ∈ w.firings, f.moment.nanosecond = 0 ∧ Moment.minuteLength ∣ f.moment.second
  /-- Nothing fires early. -/
  reached : ∀ f ∈ w.firings, f.moment ≤ f.reading
  isNext : ∀ before f behind, w.firings = before ++ f :: behind →
    IsNext s (before.getLast?.map Firing.moment) f.chosenAt f.moment
  /-- Every firing is reported, counted and handed on, but for what is still to be done about
  the one under way. -/
  events : w.events.filterMap Event.firedTime? ++ w.loop.stage.unreported =
    w.firings.map Firing.time
  count : w.loop.fired + w.loop.stage.uncounted.length = w.firings.length
  calls : w.calls ++ w.loop.stage.uncalled = w.firings.map Firing.time

/-- Every firing has been reported, counted and handed on. -/
structure Settled (w : Watched) : Prop where
  events : w.events.filterMap Event.firedTime? = w.firings.map Firing.time
  count : w.loop.fired = w.firings.length
  calls : w.calls = w.firings.map Firing.time

/-- No moment fires any more.  Of the firing that is under way in the earlier state, if there
is one, nothing is done twice and nothing is left out. -/
structure Finishes (w after : Watched) : Prop where
  stopped : after.loop.running = false
  firings : after.firings = w.firings
  events : after.events ++ after.loop.stage.unreported.map Event.triggerFired =
    w.events ++ w.loop.stage.unreported.map Event.triggerFired
  count : after.loop.fired + after.loop.stage.uncounted.length =
    w.loop.fired + w.loop.stage.uncounted.length
  calls : after.calls ++ after.loop.stage.uncalled = w.calls ++ w.loop.stage.uncalled

/-- The later state has seen no event and no firing beyond those of the earlier one. -/
structure Silent (w after : Watched) : Prop where
  stopped : after.loop.running = false
  events : after.events = w.events
  calls : after.calls = w.calls
  firings : after.firings = w.firings
  count : after.loop.fired = w.loop.fired

/-- A running loop does not sleep: it chooses a moment at its next look, and the moment that
it waits for fires at the first look that finds it reached. -/
structure Wakeful (w : Watched) : Prop where
  chooses : ∀ reading, w.loop.running = true → w.loop.stage = .watching →
    w.loop.target = none → ∃ next, (w.take (.step reading)).loop.target = some next
  fires : ∀ reading next, w.loop.running = true → w.loop.stage = .watching →
    w.loop.target = some next → next ≤ reading →
    (w.take (.step reading)).firings.map Firing.moment = w.firings.map Firing.moment ++ [next]
  goesOn : ∀ readings : List Moment, readings.length = w.loop.stage.remaining →
    (w.takeAll (readings.map .step)).loop.stage.isResting = true

variable {s : TriggerSet} {c : ControlLoop} {w after : Watched} {reading next moment : Moment}

/-! ## What one step does -/

namespace Watched

theorem takeAll_nil (w : Watched) : w.takeAll [] = w :=
  rfl

theorem takeAll_cons (w : Watched) (input : Input) (inputs : List Input) :
    w.takeAll (input :: inputs) = (w.take input).takeAll inputs :=
  rfl

/-- A loop that finds that it was told to stop ends. -/
theorem take_of_stopped (isWatching : w.loop.stage = .watching)
    (stopped : w.loop.running = false) :
    w.take (.step reading) = { w with loop := { w.loop with stage := .ended } } := by
  simp [take, firing?, step, isWatching, stopped]

/-- A running loop that waits for nothing chooses the next moment. -/
theorem take_of_idle (isWatching : w.loop.stage = .watching) (running : w.loop.running = true)
    (idle : w.loop.target = none)
    (isNext : w.loop.triggers.nextAfter (threshold w.loop.lastFired reading) = some next) :
    w.take (.step reading) =
      { w with
        loop := { w.loop with target := some next }
        chosenAt := some reading
        events := w.events ++ [.nextTrigger next] } := by
  have from_ : (w.loop.lastFired.map fun fired => Moment.latest fired reading).getD reading =
      threshold w.loop.lastFired reading := by
    cases w.loop.lastFired with
    | none => rfl
    | some fired => exact Moment.latest_eq_max fired reading
  simp [take, firing?, step, isWatching, running, idle, choose, from_, isNext]

/-- A moment that is not reached is waited for. -/
theorem take_of_early (isWatching : w.loop.stage = .watching) (running : w.loop.running = true)
    (waits : w.loop.target = some next) (early : ¬ next ≤ reading) :
    w.take (.step reading) = w := by
  simp [take, firing?, step, isWatching, running, waits, await, early]

/-- A moment that is reached fires. -/
theorem take_of_reached {chosenAt : Moment} (isWatching : w.loop.stage = .watching)
    (running : w.loop.running = true) (waits : w.loop.target = some next)
    (isChoice : w.chosenAt = some chosenAt) (reached : next ≤ reading) :
    w.take (.step reading) =
      { w with
        loop := { w.loop with target := none, stage := .reporting next }
        firings := w.firings ++ [⟨next, chosenAt, reading⟩] } := by
  simp [take, firing?, step, isWatching, running, waits, isChoice, await, reached]

theorem take_of_reporting (isReporting : w.loop.stage = .reporting moment) :
    w.take (.step reading) =
      { w with
        loop := { w.loop with lastFired := some moment, stage := .counting moment }
        events := w.events ++ [.triggerFired (TimeOfDay.ofMoment moment)] } := by
  simp [take, firing?, step, isReporting]

theorem take_of_counting (isCounting : w.loop.stage = .counting moment) :
    w.take (.step reading) =
      { w with loop := { w.loop with fired := w.loop.fired + 1, stage := .calling moment } } := by
  simp [take, firing?, step, isCounting]

theorem take_of_calling (isCalling : w.loop.stage = .calling moment) :
    w.take (.step reading) =
      { w with
        loop := { w.loop with stage := .watching }
        calls := w.calls ++ [TimeOfDay.ofMoment moment] } := by
  simp [take, firing?, step, isCalling]

/-- Two steps bring a firing to its end that has been reported. -/
theorem finish_of_counting (isCounting : w.loop.stage = .counting moment)
    (first second : Moment) :
    (w.take (.step first)).take (.step second) =
      { w with
        loop := { w.loop with fired := w.loop.fired + 1, stage := .watching }
        calls := w.calls ++ [TimeOfDay.ofMoment moment] } := by
  rw [take_of_counting isCounting]
  exact take_of_calling rfl

/-- Three steps bring a firing to its end. -/
theorem finish_of_reporting (isReporting : w.loop.stage = .reporting moment)
    (first second third : Moment) :
    ((w.take (.step first)).take (.step second)).take (.step third) =
      { w with
        loop := { w.loop with
          lastFired := some moment, fired := w.loop.fired + 1, stage := .watching }
        events := w.events ++ [.triggerFired (TimeOfDay.ofMoment moment)]
        calls := w.calls ++ [TimeOfDay.ofMoment moment] } := by
  rw [take_of_reporting isReporting]
  exact finish_of_counting rfl second third

theorem take_of_ended (hasEnded : w.loop.stage = .ended) : w.take (.step reading) = w := by
  have noChoice : (w.loop.target.isNone && w.loop.target.isSome) = false := by
    cases w.loop.target <;> rfl
  have nothing : w.firing? reading = none := by
    simp [firing?, step, hasEnded]
  simp [take, step, hasEnded, nothing, noChoice]

end Watched

/-- Only a look at the clock begins a firing, and it hands nothing on. -/
theorem call_of_reporting (begins : (c.step reading).loop.stage = .reporting moment) :
    (c.step reading).call = none := by
  cases stage : c.stage with
  | watching =>
      simp only [step, stage]
      split
      · rfl
      · split
        · simp only [choose]
          split <;> rfl
        · simp only [await]
          split <;> rfl
  | reporting moment => simp [step, stage] at begins
  | counting moment => simp [step, stage] at begins
  | calling moment => simp [step, stage] at begins
  | ended => simp [step, stage] at begins

/-- A firing that has begun is brought to its end in three steps. -/
theorem Deed.next_of_reporting {d : Deed} (begins : d.loop.stage = .reporting moment)
    (noCall : d.call = none) (reading : Moment) :
    ((d.next reading).next reading).next reading =
      ⟨{ d.loop with lastFired := some moment, fired := d.loop.fired + 1, stage := .watching },
        d.events ++ [.triggerFired (TimeOfDay.ofMoment moment)],
        some (TimeOfDay.ofMoment moment)⟩ := by
  have reported : d.next reading =
      ⟨{ d.loop with lastFired := some moment, stage := .counting moment },
        d.events ++ [.triggerFired (TimeOfDay.ofMoment moment)], none⟩ := by
    simp [Deed.next, step, begins, noCall]
  rw [reported]
  simp [Deed.next, step]

/-- A look at the clock with all that follows from it is a row of steps. -/
theorem takeAll_look (w : Watched) (reading : Moment) :
    ∃ length, (w.takeAll (List.replicate length (.step reading))).loop =
        (w.loop.look reading).loop ∧
      (w.takeAll (List.replicate length (.step reading))).events =
        w.events ++ (w.loop.look reading).events ∧
      (w.takeAll (List.replicate length (.step reading))).calls =
        w.calls ++ (w.loop.look reading).call.toList := by
  rw [look]
  split
  · rename_i moment begins
    have noCall := call_of_reporting begins
    have seen : (w.take (.step reading)).loop.stage = .reporting moment := begins
    have steps : w.takeAll (List.replicate 4 (.step reading)) =
        { w.take (.step reading) with
          loop := { (w.take (.step reading)).loop with
            lastFired := some moment
            fired := (w.take (.step reading)).loop.fired + 1
            stage := .watching }
          events := (w.take (.step reading)).events ++ [.triggerFired (TimeOfDay.ofMoment moment)]
          calls := (w.take (.step reading)).calls ++ [TimeOfDay.ofMoment moment] } := by
      simp only [List.replicate, Watched.takeAll_cons, Watched.takeAll_nil]
      exact Watched.finish_of_reporting seen reading reading reading
    refine ⟨4, ?_⟩
    rw [steps, Deed.next_of_reporting begins noCall]
    refine ⟨rfl, ?_, ?_⟩
    · exact List.append_assoc _ _ _
    · change w.calls ++ (w.loop.step reading).call.toList ++ _ = _
      rw [noCall, Option.toList_none, List.append_nil]
      rfl
  · exact ⟨1, rfl, rfl, rfl⟩

/-! ## How often a loop fires -/

/-- A step counts at most one firing. -/
theorem fired_step_le (c : ControlLoop) (reading : Moment) :
    (c.step reading).loop.fired ≤ c.fired + 1 := by
  cases stage : c.stage with
  | watching =>
      simp only [step, stage]
      split
      · exact Nat.le_succ _
      · split
        · simp only [choose]
          split <;> exact Nat.le_succ _
        · simp only [await]
          split <;> exact Nat.le_succ _
  | reporting moment => simp [step, stage]
  | counting moment => simp [step, stage]
  | calling moment => simp [step, stage]
  | ended => simp [step, stage]

/-- The count of the firings stays below the number of inputs, so it fits a word for as long
as that does. -/
theorem fired_takeAll_le (w : Watched) (inputs : List Input) :
    (w.takeAll inputs).loop.fired ≤ w.loop.fired + inputs.length := by
  induction inputs generalizing w with
  | nil => exact Nat.le_refl _
  | cons input inputs inductionHypothesis =>
      have one : (w.take input).loop.fired ≤ w.loop.fired + 1 := by
        cases input with
        | step reading => exact fired_step_le w.loop reading
        | shutdown => exact Nat.le_succ _
      have rest := inductionHypothesis (w.take input)
      rw [Watched.takeAll_cons, List.length_cons]
      omega

/-! ## What a loop keeps up -/

/-- The moment that fired last, also if it is still to be reported. -/
def latest (c : ControlLoop) : Option Moment :=
  match c.stage with
  | .reporting moment => some moment
  | _ => c.lastFired

/-- What a loop has done is in order, and so is what it waits for. -/
structure Sound (s : TriggerSet) (w : Watched) : Prop extends Punctual s w where
  triggers : w.loop.triggers = s
  last : w.loop.latest = w.firings.getLast?.map Firing.moment
  newest : ∀ f ∈ w.firings, ∃ last, w.loop.latest = some last ∧ f.moment ≤ last
  waits : ∀ next, w.loop.target = some next →
    ∃ chosenAt, w.chosenAt = some chosenAt ∧ IsNext s w.loop.latest chosenAt next

theorem threshold_ge (last reading : Moment) : last ≤ threshold (some last) reading :=
  le_max_left last reading

theorem IsNext.ofTrigger {previous : Option Moment} (isNext : IsNext s previous reading next) :
    TimeOfDay.ofMoment next ∈ s.times ∧ ∃ day, (TimeOfDay.ofMoment next).on day = next := by
  rcases isNext.1.1 with ⟨t, member, day, rfl⟩
  rw [TimeOfDay.ofMoment_on]
  exact ⟨member, day, rfl⟩

theorem IsNext.wholeMinute {previous : Option Moment} (isNext : IsNext s previous reading next) :
    next.nanosecond = 0 ∧ Moment.minuteLength ∣ next.second := by
  rcases isNext.1.1 with ⟨t, _, day, rfl⟩
  refine ⟨rfl, day * 1440 + t.minutes, ?_⟩
  rw [TimeOfDay.second_on, Moment.minuteLength]
  omega

namespace Sound

theorem start (c : ControlLoop) (fresh : c.fired = 0) (new : c.lastFired = none)
    (idle : c.target = none) (isWatching : c.stage = .watching) :
    Sound c.triggers (watch c) where
  increasing := List.Pairwise.nil
  ofTrigger := by simp [watch]
  wholeMinute := by simp [watch]
  reached := by simp [watch]
  isNext := by simp [watch]
  events := by simp [watch, isWatching, Stage.unreported]
  count := by simp [watch, isWatching, Stage.uncounted, fresh]
  calls := by simp [watch, isWatching, Stage.uncalled]
  triggers := rfl
  last := by simp [watch, latest, isWatching, new]
  newest := by simp [watch]
  waits := by simp [watch, idle]

/-- A moment that is waited for is later than all that fired. -/
theorem lt_of_waits (sound : Sound s w) (waits : w.loop.target = some next) {f : Firing}
    (fired : f ∈ w.firings) : f.moment < next := by
  rcases sound.waits next waits with ⟨chosenAt, _, isNext⟩
  rcases sound.newest f fired with ⟨last, isLast, notLater⟩
  rw [isLast] at isNext
  exact lt_of_le_of_lt (notLater.trans (threshold_ge last chosenAt)) isNext.1.2

/-- An entry of a list with one more at the end is an earlier one or that at the end. -/
theorem split_of_concat {α : Type} {xs before behind : List α} {x y : α}
    (split : xs ++ [x] = before ++ y :: behind) :
    (∃ rest, xs = before ++ y :: rest) ∨ xs = before ∧ x = y := by
  rcases List.eq_nil_or_concat behind with rfl | ⟨rest, last, rfl⟩
  · exact Or.inr (List.append_inj' split rfl |>.imp id List.head_eq_of_cons_eq)
  · rw [List.concat_eq_append, ← List.cons_append, ← List.append_assoc] at split
    exact Or.inl ⟨rest, (List.append_inj' split rfl).1⟩

/-- Where no firing is under way, all is done about every firing. -/
theorem settled (sound : Sound s w) (resting : w.loop.stage.isResting = true) : Settled w where
  events := by
    have events := sound.events
    rw [Stage.unreported_of_resting resting, List.append_nil] at events
    exact events
  count := by
    have count := sound.count
    rw [Stage.uncounted_of_resting resting] at count
    exact count
  calls := by
    have calls := sound.calls
    rw [Stage.uncalled_of_resting resting, List.append_nil] at calls
    exact calls

/-- When the moment that it waits for fires, a loop waits for nothing, and all is still to be
done about the firing. -/
theorem fire (sound : Sound s w) (isWatching : w.loop.stage = .watching)
    (waits : w.loop.target = some next) {chosenAt : Moment}
    (isNext : IsNext s w.loop.latest chosenAt next) (reached : next ≤ reading) :
    Sound s
      { w with
        loop := { w.loop with target := none, stage := .reporting next }
        firings := w.firings ++ [⟨next, chosenAt, reading⟩] } := by
  have settled := sound.settled (by rw [isWatching]; rfl)
  constructor
  case toPunctual =>
    constructor
    case increasing =>
      rw [List.map_append, List.pairwise_append]
      refine ⟨sound.increasing, List.pairwise_singleton _ _, ?_⟩
      intro earlier isEarlier last isLast
      rcases List.mem_map.mp isEarlier with ⟨f, fired, rfl⟩
      rw [List.mem_singleton.mp isLast]
      exact sound.lt_of_waits waits fired
    case ofTrigger =>
      exact List.forall_mem_append.mpr
        ⟨sound.ofTrigger, List.forall_mem_singleton.mpr isNext.ofTrigger⟩
    case wholeMinute =>
      exact List.forall_mem_append.mpr
        ⟨sound.wholeMinute, List.forall_mem_singleton.mpr isNext.wholeMinute⟩
    case reached =>
      exact List.forall_mem_append.mpr ⟨sound.reached, List.forall_mem_singleton.mpr reached⟩
    case isNext =>
      intro before f behind split
      rcases split_of_concat split with ⟨rest, old⟩ | ⟨rfl, rfl⟩
      · exact sound.isNext before f rest old
      · rw [← sound.last]
        exact isNext
    case events =>
      rw [List.map_append, ← settled.events]
      rfl
    case count =>
      rw [List.length_append, ← settled.count]
      rfl
    case calls =>
      rw [List.map_append, ← settled.calls]
      rfl
  case triggers => exact sound.triggers
  case last => simp [latest]
  case newest =>
    refine List.forall_mem_append.mpr ⟨fun f old => ?_, List.forall_mem_singleton.mpr ?_⟩
    · exact ⟨next, rfl, (sound.lt_of_waits waits old).le⟩
    · exact ⟨next, rfl, le_refl next⟩
  case waits => simp

/-- The order is kept up where nothing fires and what is still to be done about the last
firing becomes less by what is done. -/
theorem of_same (sound : Sound s w) (same : after.firings = w.firings)
    (events : after.events.filterMap Event.firedTime? ++ after.loop.stage.unreported =
      w.events.filterMap Event.firedTime? ++ w.loop.stage.unreported)
    (count : after.loop.fired + after.loop.stage.uncounted.length =
      w.loop.fired + w.loop.stage.uncounted.length)
    (calls : after.calls ++ after.loop.stage.uncalled = w.calls ++ w.loop.stage.uncalled)
    (triggers : after.loop.triggers = w.loop.triggers) (last : after.loop.latest = w.loop.latest)
    (waits : ∀ next, after.loop.target = some next →
      ∃ chosenAt, after.chosenAt = some chosenAt ∧ IsNext s after.loop.latest chosenAt next) :
    Sound s after where
  increasing := same ▸ sound.increasing
  ofTrigger := same ▸ sound.ofTrigger
  wholeMinute := same ▸ sound.wholeMinute
  reached := same ▸ sound.reached
  isNext := same ▸ sound.isNext
  events := by rw [events, same, sound.events]
  count := by rw [count, same, sound.count]
  calls := by rw [calls, same, sound.calls]
  triggers := triggers.trans sound.triggers
  last := by rw [last, same, sound.last]
  newest := by rw [last, same]; exact sound.newest
  waits := waits

/-- A look at the clock keeps up the order. -/
theorem look (sound : Sound s w) (ascending : s.Ascending) (filled : s.times ≠ [])
    (isWatching : w.loop.stage = .watching) (reading : Moment) :
    Sound s (w.take (.step reading)) := by
  have latest : w.loop.latest = w.loop.lastFired := by
    simp [ControlLoop.latest, isWatching]
  cases running : w.loop.running with
  | false =>
      rw [Watched.take_of_stopped isWatching running]
      refine sound.of_same rfl ?_ ?_ ?_ rfl ?_ ?_
      · simp [isWatching, Stage.unreported]
      · simp [isWatching, Stage.uncounted]
      · simp [isWatching, Stage.uncalled]
      · rw [latest]
        rfl
      · have waits := sound.waits
        rw [latest] at waits
        exact waits
  | true =>
      cases waits : w.loop.target with
      | none =>
          rcases TriggerSet.exists_nextAfter filled
            (threshold w.loop.lastFired reading) with ⟨next, isNext⟩
          rw [Watched.take_of_idle isWatching running waits (sound.triggers.symm ▸ isNext)]
          refine sound.of_same rfl ?_ rfl rfl rfl rfl ?_
          · simp [Event.firedTime?]
          · intro chosen isChosen
            cases isChosen
            refine ⟨reading, rfl, ?_⟩
            change IsNext s w.loop.latest reading next
            rw [latest]
            exact TriggerSet.isLeast_nextAfter ascending isNext
      | some next =>
          rcases sound.waits next waits with ⟨chosenAt, isChoice, isNext⟩
          by_cases reached : next ≤ reading
          · rw [Watched.take_of_reached isWatching running waits isChoice reached]
            exact sound.fire isWatching waits isNext reached
          · rw [Watched.take_of_early isWatching running waits reached]
            exact sound

/-- An input keeps up the order. -/
theorem take (sound : Sound s w) (ascending : s.Ascending) (filled : s.times ≠ [])
    (input : Input) : Sound s (w.take input) := by
  cases input with
  | shutdown => exact sound.of_same rfl rfl rfl rfl rfl rfl (by simp [Watched.take, stop])
  | step reading =>
      cases stage : w.loop.stage with
      | watching => exact sound.look ascending filled stage reading
      | reporting moment =>
          rw [Watched.take_of_reporting stage]
          refine sound.of_same rfl ?_ ?_ ?_ rfl ?_ ?_
          · simp [stage, Stage.unreported, Event.firedTime?]
          · simp [stage, Stage.uncounted]
          · simp [stage, Stage.uncalled]
          · simp [latest, stage]
          · have waits := sound.waits
            simpa [latest, stage] using waits
      | counting moment =>
          rw [Watched.take_of_counting stage]
          refine sound.of_same rfl ?_ ?_ ?_ rfl ?_ ?_
          · simp [stage, Stage.unreported]
          · simp [stage, Stage.uncounted]
          · simp [stage, Stage.uncalled]
          · simp [latest, stage]
          · have waits := sound.waits
            simpa [latest, stage] using waits
      | calling moment =>
          rw [Watched.take_of_calling stage]
          refine sound.of_same rfl ?_ ?_ ?_ rfl ?_ ?_
          · simp [stage, Stage.unreported]
          · simp [stage, Stage.uncounted]
          · simp [stage, Stage.uncalled]
          · simp [latest, stage]
          · have waits := sound.waits
            simpa [latest, stage] using waits
      | ended =>
          rw [Watched.take_of_ended stage]
          exact sound

/-- The order is kept up through all inputs. -/
theorem takeAll (sound : Sound s w) (ascending : s.Ascending) (filled : s.times ≠ [])
    (inputs : List Input) : Sound s (w.takeAll inputs) := by
  induction inputs generalizing w with
  | nil => exact sound
  | cons input inputs inductionHypothesis =>
      exact inductionHypothesis (sound.take ascending filled input)

/-- A running loop does not sleep. -/
theorem wakeful (sound : Sound s w) (filled : s.times ≠ []) : Wakeful w where
  chooses reading running isWatching idle := by
    rcases TriggerSet.exists_nextAfter filled
      (threshold w.loop.lastFired reading) with ⟨next, isNext⟩
    rw [Watched.take_of_idle isWatching running idle (sound.triggers.symm ▸ isNext)]
    exact ⟨next, rfl⟩
  fires reading next running isWatching waits reached := by
    rcases sound.waits next waits with ⟨chosenAt, isChoice, _⟩
    rw [Watched.take_of_reached isWatching running waits isChoice reached, List.map_append]
    rfl
  goesOn readings enough := by
    cases stage : w.loop.stage with
    | watching =>
        rw [stage] at enough
        rw [List.eq_nil_of_length_eq_zero enough]
        exact congrArg Stage.isResting stage
    | reporting moment =>
        rw [stage] at enough
        rcases List.length_eq_three.mp enough with ⟨first, second, third, rfl⟩
        simp only [List.map_cons, List.map_nil, Watched.takeAll_cons, Watched.takeAll_nil]
        rw [Watched.finish_of_reporting stage]
        rfl
    | counting moment =>
        rw [stage] at enough
        rcases List.length_eq_two.mp enough with ⟨first, second, rfl⟩
        simp only [List.map_cons, List.map_nil, Watched.takeAll_cons, Watched.takeAll_nil]
        rw [Watched.finish_of_counting stage]
        rfl
    | calling moment =>
        rw [stage] at enough
        rcases List.length_eq_one_iff.mp enough with ⟨first, rfl⟩
        simp only [List.map_cons, List.map_nil, Watched.takeAll_cons, Watched.takeAll_nil]
        rw [Watched.take_of_calling stage]
        rfl
    | ended =>
        rw [stage] at enough
        rw [List.eq_nil_of_length_eq_zero enough]
        exact congrArg Stage.isResting stage

end Sound

/-! ## A loop that was told to stop -/

namespace Watched

/-- An input to a loop that was told to stop begins no firing and ends the one under way. -/
theorem finishes_take (stopped : w.loop.running = false) (input : Input) :
    Finishes w (w.take input) := by
  cases input with
  | shutdown => exact ⟨rfl, rfl, rfl, rfl, rfl⟩
  | step reading =>
      cases stage : w.loop.stage with
      | watching =>
          rw [take_of_stopped stage stopped]
          constructor <;> simp [stopped, stage, Stage.unreported, Stage.uncounted, Stage.uncalled]
      | reporting moment =>
          rw [take_of_reporting stage]
          constructor <;> simp [stopped, stage, Stage.unreported, Stage.uncounted, Stage.uncalled]
      | counting moment =>
          rw [take_of_counting stage]
          constructor <;> simp [stopped, stage, Stage.unreported, Stage.uncounted, Stage.uncalled]
      | calling moment =>
          rw [take_of_calling stage]
          constructor <;> simp [stopped, stage, Stage.unreported, Stage.uncounted, Stage.uncalled]
      | ended =>
          rw [take_of_ended stage]
          exact ⟨stopped, rfl, rfl, rfl, rfl⟩

/-- A loop that was told to stop and is not in a firing does nothing but end. -/
theorem silent_take (stopped : w.loop.running = false)
    (resting : w.loop.stage.isResting = true) (input : Input) :
    Silent w (w.take input) ∧ (w.take input).loop.stage.isResting = true := by
  cases input with
  | shutdown => exact ⟨⟨rfl, rfl, rfl, rfl, rfl⟩, resting⟩
  | step reading =>
      cases stage : w.loop.stage with
      | watching =>
          rw [take_of_stopped stage stopped]
          exact ⟨⟨stopped, rfl, rfl, rfl, rfl⟩, rfl⟩
      | ended =>
          rw [take_of_ended stage]
          exact ⟨⟨stopped, rfl, rfl, rfl, rfl⟩, congrArg Stage.isResting stage⟩
      | reporting moment => simp [stage, Stage.isResting] at resting
      | counting moment => simp [stage, Stage.isResting] at resting
      | calling moment => simp [stage, Stage.isResting] at resting

end Watched

namespace Finishes

theorem refl (stopped : w.loop.running = false) : Finishes w w :=
  ⟨stopped, rfl, rfl, rfl, rfl⟩

theorem trans {last : Watched} (finishes : Finishes w after) (further : Finishes after last) :
    Finishes w last where
  stopped := further.stopped
  firings := further.firings.trans finishes.firings
  events := further.events.trans finishes.events
  count := further.count.trans finishes.count
  calls := further.calls.trans finishes.calls

theorem takeAll (stopped : w.loop.running = false) (inputs : List Input) :
    Finishes w (w.takeAll inputs) := by
  induction inputs generalizing w with
  | nil => exact refl stopped
  | cons input inputs inductionHypothesis =>
      have first := Watched.finishes_take stopped input
      exact first.trans (inductionHypothesis first.stopped)

end Finishes

namespace Silent

theorem trans {last : Watched} (silent : Silent w after) (further : Silent after last) :
    Silent w last where
  stopped := further.stopped
  events := further.events.trans silent.events
  calls := further.calls.trans silent.calls
  firings := further.firings.trans silent.firings
  count := further.count.trans silent.count

theorem takeAll (stopped : w.loop.running = false) (resting : w.loop.stage.isResting = true)
    (inputs : List Input) : Silent w (w.takeAll inputs) := by
  induction inputs generalizing w with
  | nil => exact ⟨stopped, rfl, rfl, rfl, rfl⟩
  | cons input inputs inductionHypothesis =>
      rcases Watched.silent_take stopped resting input with ⟨first, stays⟩
      exact first.trans (inductionHypothesis first.stopped stays)

end Silent

/-- A loop that has a time to wait for can be started. -/
theorem start_ofTriggers (filled : s.times ≠ []) :
    (ofTriggers s).start = .ok { ofTriggers s with running := true, stage := .watching } := by
  have filled : s.times.isEmpty = false := by
    simpa using filled
  simp [start, ofTriggers, filled]

/-- All that is promised of what a loop does from its start through some inputs. -/
structure Keeps (s : TriggerSet) (c : ControlLoop) (inputs : List Input) : Prop where
  punctual : Punctual s ((watch c).takeAll inputs)
  wakeful : Wakeful ((watch c).takeAll inputs)
  settled : ((watch c).takeAll inputs).loop.stage.isResting = true →
    Settled ((watch c).takeAll inputs)
  stops : .shutdown ∈ inputs → ((watch c).takeAll inputs).loop.running = false
  /-- Once the loop is told to stop, nothing fires any more. -/
  finishes : ((watch c).takeAll inputs).loop.running = false → ∀ later,
    Finishes ((watch c).takeAll inputs) ((watch c).takeAll (inputs ++ later))
  silent : ((watch c).takeAll inputs).loop.running = false →
    ((watch c).takeAll inputs).loop.stage.isResting = true → ∀ later,
      Silent ((watch c).takeAll inputs) ((watch c).takeAll (inputs ++ later))
  ends : ((watch c).takeAll inputs).loop.running = false → ∀ readings : List Moment,
    4 ≤ readings.length → ((watch c).takeAll (inputs ++ readings.map .step)).loop.stage = .ended

/-- Two times in the morning. -/
def morning : TriggerSet := ⟨[⟨7, 0⟩, ⟨8, 0⟩]⟩

end ControlLoop

end CodeLayout
