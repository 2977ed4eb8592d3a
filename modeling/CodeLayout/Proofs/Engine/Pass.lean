import CodeLayout.Proofs.Engine.History
import Mathlib

/-!
# Passes of an engine

A pass ranks what is installed and then runs the moves of its plan.  Neither
changes what is placed or disturbs its agreement with the cache.
-/

namespace CodeLayout.Engine

variable {e : Engine} {code : Method → Option ByteArray}

/-! ## The stages of a pass -/

/-- The plan that a ranking leads to. -/
def planFor (e : Engine) (ranking : List Method) : Plan :=
  Plan.ofRanking e.cache.segmentation e.placements ranking

/-- The state in which a pass looks at its mode. -/
def begun (e : Engine) (ranking : List Method) : Engine :=
  { e with passes := e.passes + 1 }.report [.passStart (e.passes + 1) ranking.length]

/-- The state in which the ranks of a plan are noted and nothing is moved yet. -/
def ranked (e : Engine) (ranking : List Method) : Engine :=
  { e with
    placements := applyRanks (e.planFor ranking) e.placements
    lastOrder := some (orderOf ranking e.placements)
    events := e.events ++ shortage e.cache.segmentation (e.planFor ranking) }

/-- The state of the moves at the safepoint, before the first one is made. -/
def opening (e : Engine) (pass : Nat) (moves : List Move) : Transit :=
  transit { e with safepoint := e.safepoint.synchronize } pass moves

/-- The state in which the moves of a pass have been made. -/
def moved (e : Engine) (t : Transit) : Engine :=
  { e with
    cache := t.cache
    placements := t.placements
    safepoint := t.safepoint.release
    forwarding := t.forwarding.close
    events := e.events ++ t.events }

/-- What a pass reports about its moves. -/
def summary (report : PassReport) (plan : Plan) (t : Transit) : PassReport :=
  { report with
    ranked := plan.ranks.length
    relocated := t.moved.length
    evicted := t.evicted
    bytesMoved := t.bytesMoved
    unplaced := t.unplaced }

theorem reorder_eq (e : Engine) (ranking : List Method) (report : PassReport) :
    e.reorder ranking report =
      if (e.planFor ranking).moves.isEmpty then
        (.ok { report with ranked := (e.planFor ranking).ranks.length },
          { e.ranked ranking with forwarding := (Forwarding.empty report.pass).close })
      else
        let done := ((e.ranked ranking).opening report.pass (e.planFor ranking).moves).run
        (done.1.map fun () => summary report (e.planFor ranking) done.2,
          (e.ranked ranking).moved done.2) :=
  rfl

/-- The engines agree on everything that says what is installed where. -/
structure SameStore (e after : Engine) : Prop where
  recording : after.recording = e.recording
  cache : after.cache = e.cache
  placements : after.placements = e.placements
  forwarding : after.forwarding = e.forwarding
  compilations : after.compilations = e.compilations

theorem SameStore.refl (e : Engine) : SameStore e e :=
  ⟨rfl, rfl, rfl, rfl, rfl⟩

theorem SameStore.trans {middle after : Engine} (first : SameStore e middle)
    (second : SameStore middle after) : SameStore e after :=
  ⟨second.recording.trans first.recording, second.cache.trans first.cache,
    second.placements.trans first.placements, second.forwarding.trans first.forwarding,
    second.compilations.trans first.compilations⟩

theorem begun_same (e : Engine) (ranking : List Method) : SameStore e (e.begun ranking) :=
  ⟨rfl, rfl, rfl, rfl, rfl⟩

theorem finishPass_same (e : Engine) (report : PassReport) : SameStore e (e.finishPass report) :=
  ⟨rfl, rfl, rfl, rfl, rfl⟩

/-- Writing the order down leaves the store alone. -/
theorem recordOrder_same (e : Engine) (files : FileTree) (ranking : List Method)
    (report : PassReport) : SameStore e (e.recordOrder files ranking report).engine := by
  unfold recordOrder
  dsimp only
  split
  · exact ⟨rfl, rfl, rfl, rfl, rfl⟩
  · split <;> exact ⟨rfl, rfl, rfl, rfl, rfl⟩

/-- A recording pass writes the order down, and is finished if that ends well. -/
theorem runPass_eq_of_recording (recording : e.recording = true) (files : FileTree)
    (ranking : List Method) (elapsed : Nat) :
    e.runPass files ranking elapsed =
      match (e.begun ranking).recordOrder files ranking (PassReport.start (e.passes + 1)) with
      | ⟨.ok report, after, written⟩ =>
        ⟨.ok { report with elapsed }, after.finishPass { report with elapsed }, written⟩
      | ⟨.error fault, after, left⟩ => ⟨.error fault, after, left⟩ := by
  have stillRecording : (e.begun ranking).recording = true := recording
  rcases recorded : (e.begun ranking).recordOrder files ranking (PassReport.start (e.passes + 1))
    with ⟨result, after, left⟩
  rw [begun] at recorded stillRecording
  unfold runPass
  dsimp only
  rw [stillRecording, if_pos rfl, recorded]
  cases result <;> rfl

theorem runPass_recording (recording : e.recording = true) (files : FileTree)
    (ranking : List Method) (elapsed : Nat) :
    SameStore e (e.runPass files ranking elapsed).engine := by
  have recorded := (begun_same e ranking).trans
    (recordOrder_same (e.begun ranking) files ranking (PassReport.start (e.passes + 1)))
  rw [runPass_eq_of_recording recording]
  split
  · rename_i ended
    rw [ended] at recorded
    exact recorded.trans (finishPass_same _ _)
  · rename_i stopped
    rw [stopped] at recorded
    exact recorded

/-- A moving pass reorders, and is finished if that ends well. -/
theorem runPass_eq (moving : e.recording = false) (files : FileTree) (ranking : List Method)
    (elapsed : Nat) :
    e.runPass files ranking elapsed =
      match (e.begun ranking).reorder ranking (PassReport.start (e.passes + 1)) with
      | (.ok report, after) =>
        ⟨.ok { report with elapsed }, after.finishPass { report with elapsed }, files⟩
      | (.error fault, after) => ⟨.error fault, after, files⟩ := by
  have stillMoving : (e.begun ranking).recording = false := moving
  cases reordered : (e.begun ranking).reorder ranking (PassReport.start (e.passes + 1)) with
  | mk result after =>
      rw [begun] at reordered stillMoving
      unfold runPass
      dsimp only
      rw [stillMoving, reordered]
      cases result <;> rfl

/-- What a moving pass does to the store, it does by reordering. -/
theorem runPass_moving (moving : e.recording = false) (files : FileTree) (ranking : List Method)
    (elapsed : Nat) :
    SameStore ((e.begun ranking).reorder ranking (PassReport.start (e.passes + 1))).2
        (e.runPass files ranking elapsed).engine ∧
      (e.runPass files ranking elapsed).result =
        ((e.begun ranking).reorder ranking (PassReport.start (e.passes + 1))).1.map
          fun report => { report with elapsed } := by
  rw [runPass_eq moving]
  cases (e.begun ranking).reorder ranking (PassReport.start (e.passes + 1)) with
  | mk result after =>
      cases result with
      | error fault => exact ⟨SameStore.refl after, rfl⟩
      | ok report => exact ⟨finishPass_same after _, rfl⟩

/-- After what reordering logs, a pass logs its end only. -/
theorem runPass_ending (moving : e.recording = false) (files : FileTree) (ranking : List Method)
    (elapsed : Nat) :
    ∃ ending, (∀ event ∈ ending, event.isQuiet = true) ∧
      (e.runPass files ranking elapsed).engine.events =
        ((e.begun ranking).reorder ranking (PassReport.start (e.passes + 1))).2.events ++
          ending := by
  rw [runPass_eq moving]
  cases (e.begun ranking).reorder ranking (PassReport.start (e.passes + 1)) with
  | mk result after =>
      cases result with
      | error fault => exact ⟨[], by simp, by simp⟩
      | ok report =>
          refine ⟨[.passEnd report.pass report.relocated report.bytesMoved report.unplaced
            (PassReport.milliseconds elapsed)], ?_, rfl⟩
          intro event member
          rw [List.mem_singleton.mp member]
          rfl

/-- Besides what reordering logs, a pass logs neither relocations nor methods that
found no room. -/
theorem runPass_log (moving : e.recording = false) (files : FileTree) (ranking : List Method)
    (elapsed : Nat) {logged : List Event}
    (events : ((e.begun ranking).reorder ranking (PassReport.start (e.passes + 1))).2.events =
      (e.begun ranking).events ++ logged) :
    ∃ all, (e.runPass files ranking elapsed).engine.events = e.events ++ all ∧ logged ⊆ all ∧
      all.countP Event.isPlacementFailure = logged.countP Event.isPlacementFailure ∧
      all.countP Event.isRelocation = logged.countP Event.isRelocation := by
  rcases runPass_ending moving files ranking elapsed with ⟨ending, quiet, eventsAfter⟩
  rcases Event.countP_quiet quiet with ⟨noFailure, noRelocation⟩
  exists .passStart (e.passes + 1) ranking.length :: logged ++ ending
  constructor
  · rw [eventsAfter, events]
    simp [begun, report]
  · constructor
    · intro event member
      exact List.mem_append_left _ (List.mem_cons_of_mem _ member)
    · rw [List.countP_append, List.countP_append, noFailure, noRelocation]
      simp [Event.isPlacementFailure, Event.isRelocation]

theorem shortage_quiet (s : Segmentation) (plan : Plan) :
    ∀ event ∈ shortage s plan, event.isQuiet = true := by
  intro event member
  unfold shortage at member
  split at member
  · rw [List.mem_singleton.mp member]
    rfl
  · contradiction

/-! ## Agreement of placements and cache -/

theorem SameStore.consistent {after : Engine} (same : SameStore e after)
    (consistent : e.Consistent code) : after.Consistent code ∧ Frame e after := by
  constructor
  · constructor
    · rw [same.cache, same.placements]
      exact consistent.held
    · rw [same.compilations, same.placements]
      exact consistent.numbered
  · exact ⟨same.recording, by rw [same.cache], by rw [same.cache]⟩

namespace Consistent

theorem ranked (consistent : e.Consistent code) (ranking : List Method) :
    (e.ranked ranking).Consistent code := by
  constructor
  · exact consistent.held.map (fun _ => rfl) (fun _ => rfl) (fun _ => rfl)
  · intro p member
    rcases List.mem_map.mp member with ⟨q, old, rfl⟩
    exact consistent.numbered q old

/-- Whatever steps a pass makes, placements and cache agree after them. -/
theorem moved (consistent : e.Consistent code) (start : Transit) {t : Transit}
    (cache : start.cache = e.cache) (placements : start.placements = e.placements)
    (steps : Transit.Steps start t) : (e.moved t).Consistent code ∧ Frame e (e.moved t) := by
  have held : start.Held code := by
    rw [Transit.Held, cache, placements]
    exact consistent.held
  rcases steps.held held with ⟨heldAfter, frame⟩
  constructor
  · constructor
    · exact heldAfter
    · intro p member
      have inLasting : p.lasting ∈ e.placements.map Placement.lasting := by
        rw [← placements, ← frame.placed]
        exact List.mem_map_of_mem member
      rcases List.mem_map.mp inLasting with ⟨q, old, same⟩
      have sameNumber : q.compiled = p.compiled := congrArg (fun l => l.2.2.1) same
      rw [← sameNumber]
      exact consistent.numbered q old
  · constructor
    · rfl
    · rw [← cache]
      exact frame.segmentation
    · rw [← cache]
      exact frame.sites

theorem reorder (consistent : e.Consistent code) (ranking : List Method) (report : PassReport) :
    (e.reorder ranking report).2.Consistent code ∧ Frame e (e.reorder ranking report).2 := by
  have rankedConsistent := consistent.ranked ranking
  rw [reorder_eq]
  split
  · exact ⟨⟨rankedConsistent.held, rankedConsistent.numbered⟩, ⟨rfl, rfl, rfl⟩⟩
  · obtain ⟨after, frame⟩ := rankedConsistent.moved
      ((e.ranked ranking).opening report.pass (e.planFor ranking).moves) rfl rfl
      (Transit.run_steps _)
    exact ⟨after, ⟨frame.recording, frame.segmentation, frame.sites⟩⟩

theorem runPass (consistent : e.Consistent code) (files : FileTree) (ranking : List Method)
    (elapsed : Nat) :
    (e.runPass files ranking elapsed).engine.Consistent code ∧
      Frame e (e.runPass files ranking elapsed).engine := by
  cases mode : e.recording with
  | true => exact (runPass_recording mode files ranking elapsed).consistent consistent
  | false =>
      rcases runPass_moving mode files ranking elapsed with ⟨same, _⟩
      rcases (begun_same e ranking).consistent consistent with ⟨begun, frameBegun⟩
      rcases begun.reorder ranking (PassReport.start (e.passes + 1)) with ⟨middle, frameMiddle⟩
      rcases same.consistent middle with ⟨after, frameAfter⟩
      exact ⟨after, (frameBegun.trans frameMiddle).trans frameAfter⟩

end Consistent

/-! ## An exchange -/

/-- The exchange on the small machine before its first move. -/
def exchangeOpening : Transit :=
  ((smallEngine.begun [secondMethod]).ranked [secondMethod]).opening 1
    ((smallEngine.begun [secondMethod]).planFor [secondMethod]).moves

/-- The one method leaves the hot partition, the other one comes into it. -/
theorem run_exchange :
    exchangeOpening.run.1 = .ok () ∧
      exchangeOpening.run.2.placements =
        [⟨firstMethod, ⟨firstMethod, .nonProfiled, 0x1000040, 3, 64⟩, none, 1⟩,
          ⟨secondMethod, ⟨secondMethod, .hot, 0x3000000, 2, 64⟩, some 0, 2⟩] ∧
      exchangeOpening.run.2.forwarding.entries =
        [(0x3000000, 0x1000040), (0x1000000, 0x3000000)] ∧
      exchangeOpening.run.2.unplaced = 0 := by
  rw [Transit.run_eq]
  cbv

/-- The exchange ends well, and its store is the one after the moves. -/
theorem perform_exchange :
    SameStore (((smallEngine.begun [secondMethod]).ranked [secondMethod]).moved
      exchangeOpening.run.2) (smallEngine.perform exchange) ∧
    ∃ report, (smallEngine.runPass FileTree.empty [secondMethod] 0).result = .ok report ∧
      report.unplaced = 0 := by
  obtain ⟨same, result⟩ := runPass_moving (e := smallEngine) rfl FileTree.empty [secondMethod] 0
  rcases run_exchange with ⟨endsWell, _, _, unplaced⟩
  have moves : ¬ ((smallEngine.begun [secondMethod]).planFor [secondMethod]).moves.isEmpty := by
    decide
  rw [reorder_eq, if_neg moves] at same result
  constructor
  · exact same
  · change _ = Except.map _ (exchangeOpening.run.1.map _) at result
    rw [endsWell] at result
    exact ⟨_, result, unplaced⟩

end CodeLayout.Engine
