import CodeLayout.Proofs.Engine.Recording
import CodeLayout.Proofs.Placement.Listing

/-!
# Passes for listed rankings

A pass depends on the listed methods of its ranking only.  Whether a method is named
again later on, or named without being installed, a pass does the same in either
mode; just the event that it was begun tells the two rankings apart.

The outcomes are compared without the times that the passes took.
-/

namespace CodeLayout

/-- The event without the time that a pass took. -/
def Event.untimed : Event → Event
  | .passEnd pass relocated bytesMoved unplaced _ =>
    .passEnd pass relocated bytesMoved unplaced (PassReport.milliseconds 0)
  | event => event

def PassReport.untimed (r : PassReport) : PassReport :=
  { r with elapsed := 0 }

/-- The methods that are placed, with their ranks. -/
def Placements.ranks (ps : Placements) : List (Method × Option Nat) :=
  ps.map fun p => (p.method, p.rank)

/-- The methods that are placed, with their indices among the listed ones. -/
def Placements.indices (ps : Placements) (ranking : List Method) : List (Method × Option Nat) :=
  ps.map fun p => (p.method, (Plan.listed ps ranking).idxOf? p.method)

namespace Transit

variable {t after : Transit}

/-- A relocation changes no rank, whether it succeeds or fails. -/
theorem ranks_relocate (t : Transit) (m : Method) (order : List Partition)
    (requested : Partition) :
    (t.relocate m order requested).2.placements.ranks = t.placements.ranks := by
  unfold relocate
  split
  · rfl
  · split
    · rfl
    · rename_i placed found
      split
      · rfl
      · dsimp only
        split
        · rfl
        · rename_i b _
          split
          · rfl
          · rcases Placements.mem_of_find? found with ⟨_, rfl⟩
            obtain ⟨before, rest, split, putSplit⟩ :=
              Placements.put_eq (q := { placed with blob := b }) found
            rw [putSplit, split]
            simp [Placements.ranks]

theorem Steps.ranks (steps : Steps t after) : after.placements.ranks = t.placements.ranks := by
  induction steps with
  | refl => rfl
  | relocate _ m order requested inductionHypothesis =>
      exact (ranks_relocate _ m order requested).trans inductionHypothesis
  | giveUp _ _ _ inductionHypothesis => exact inductionHypothesis
  | note _ same inductionHypothesis =>
      rw [same.placements]
      exact inductionHypothesis

end Transit

namespace Engine

variable {e : Engine} {report : PassReport}

/-- The engine without its log and without the times that its passes took. -/
def silent (e : Engine) : Engine :=
  { e with
    statistics := { e.statistics with durations := Histogram.empty }
    events := [] }

/-- The passes for a ranking and for the methods listed in it differ in the times that
they took and in the number of methods that they were begun with. -/
structure Alike (e : Engine) (ranking : List Method) (outcome clean : Outcome PassReport) :
    Prop where
  result : outcome.result.map PassReport.untimed = clean.result.map PassReport.untimed
  engine : outcome.engine.silent = clean.engine.silent
  files : outcome.files = clean.files
  events : ∃ logged loggedClean,
    outcome.engine.events = e.events ++ .passStart (e.passes + 1) ranking.length :: logged ∧
    clean.engine.events = e.events ++
      .passStart (e.passes + 1) (Plan.listed e.placements ranking).length :: loggedClean ∧
    logged.map Event.untimed = loggedClean.map Event.untimed

/-- A pass that ends well leaves the listed methods as its order, and their indices as
the ranks if it may move code. -/
structure Lists (e : Engine) (ranking : List Method) (outcome : Outcome PassReport)
    (report : PassReport) : Prop where
  order : ∃ order, outcome.engine.lastOrder = some order ∧
    order.ranking = Plan.listed e.placements ranking ∧
    order.entries = (Plan.hottest e.placements ranking).map fun p => .method p.method p.size
  ranked : report.ranked = (Plan.listed e.placements ranking).length
  ranks : e.recording = false →
    outcome.engine.placements.ranks = e.placements.indices ranking

/-! ## The order of a ranking -/

theorem orderOf_concat (ps : Placements) (before : List Method) (m : Method) :
    orderOf (before ++ [m]) ps =
      match ps.find? m with
      | none => orderOf before ps
      | some p => ((orderOf before ps).push? m p.size).getD (orderOf before ps) := by
  rw [orderOf, List.filterMap_append]
  cases found : ps.find? m with
  | none => simp [found, orderOf]
  | some p =>
      rw [List.filterMap_cons_some (by rw [found]; rfl), List.filterMap_nil, Order.ofMethods_concat]
      rfl

theorem entries_orderOf (ranking : List Method) (ps : Placements) :
    (orderOf ranking ps).entries =
      (Plan.hottest ps ranking).map fun p => .method p.method p.size := by
  induction ranking using List.reverseRecOn with
  | nil => rfl
  | append_singleton before m inductionHypothesis =>
      rw [orderOf_concat, Plan.hottest_concat]
      cases found : ps.find? m with
      | none => simpa using inductionHypothesis
      | some placed =>
          rcases Placements.mem_of_find? found with ⟨_, rfl⟩
          have ranking : (orderOf before ps).ranking = Plan.listed ps before :=
            ranking_orderOf before ps
          by_cases old : placed.method ∈ Plan.listed ps before
          · have refused : (orderOf before ps).push? placed.method placed.size = none := by
              simp [Order.push?, Order.contains, ranking, old]
            rw [if_pos old, ← inductionHypothesis]
            simp only [refused, Option.getD_none]
          · have pushed := Order.push?_of_new (ranking ▸ old) placed.size
            rw [if_neg old, List.map_append, ← inductionHypothesis]
            simp only [pushed, Option.getD_some]
            rfl

theorem orderOf_listed (ranking : List Method) (ps : Placements) :
    orderOf (Plan.listed ps ranking) ps = orderOf ranking ps := by
  have same := entries_orderOf (Plan.listed ps ranking) ps
  rw [Plan.hottest_listed, ← entries_orderOf] at same
  exact congrArg Order.mk same

/-! ## A pass between its start and its end -/

/-- What a pass does after its start and before its end. -/
def conducted (e : Engine) (files : FileTree) (ranking : List Method) (report : PassReport) :
    Outcome PassReport :=
  if e.recording then e.recordOrder files ranking report
  else ⟨(e.reorder ranking report).1, (e.reorder ranking report).2, files⟩

namespace Outcome

/-- The outcome with events before those of its log. -/
def preceded (o : Outcome PassReport) (events : List Event) : Outcome PassReport :=
  { o with engine := { o.engine with events := events ++ o.engine.events } }

/-- The outcome of a pass that takes some time; it is finished if it has ended well. -/
def concluded (o : Outcome PassReport) (elapsed : Nat) : Outcome PassReport :=
  match o.result with
  | .error _ => o
  | .ok report =>
    { o with
      result := .ok { report with elapsed }
      engine := o.engine.finishPass { report with elapsed } }

/-- The events at the end of a pass. -/
def ending (o : Outcome PassReport) (elapsed : Nat) : List Event :=
  match o.result with
  | .error _ => []
  | .ok r =>
    [.passEnd r.pass r.relocated r.bytesMoved r.unplaced (PassReport.milliseconds elapsed)]

variable (o : Outcome PassReport) (events : List Event) (elapsed : Nat)

theorem result_concluded :
    ((o.preceded events).concluded elapsed).result.map PassReport.untimed =
      o.result.map PassReport.untimed := by
  cases ended : o.result <;> simp [concluded, preceded, ended, Except.map, PassReport.untimed]

theorem files_concluded : ((o.preceded events).concluded elapsed).files = o.files := by
  cases ended : o.result <;> simp [concluded, preceded, ended]

theorem events_concluded :
    ((o.preceded events).concluded elapsed).engine.events =
      events ++ o.engine.events ++ o.ending elapsed := by
  cases ended : o.result <;>
    simp [concluded, preceded, ending, ended, finishPass, Engine.report]

/-- The log and the times apart, a conclusion is always the same. -/
theorem silent_concluded :
    ((o.preceded events).concluded elapsed).engine.silent = (o.concluded 0).engine.silent := by
  cases ended : o.result <;>
    simp [concluded, preceded, ended, silent, finishPass, Engine.report, Statistics.record]

theorem untimed_ending (again : Nat) :
    (o.ending elapsed).map Event.untimed = (o.ending again).map Event.untimed := by
  cases ended : o.result <;> simp [ending, ended, Event.untimed]

/-- What lasts of a pass that ends well was there before it was finished. -/
theorem concluded_ok (ended : ((o.preceded events).concluded elapsed).result = .ok report) :
    ∃ unfinished, o.result = .ok unfinished ∧ report = { unfinished with elapsed } ∧
      ((o.preceded events).concluded elapsed).engine.lastOrder = o.engine.lastOrder ∧
      ((o.preceded events).concluded elapsed).engine.placements = o.engine.placements := by
  cases result : o.result with
  | error fault => simp [concluded, preceded, result] at ended
  | ok unfinished =>
      simp only [concluded, preceded, result, Except.ok.injEq] at ended ⊢
      exact ⟨unfinished, rfl, ended.symm, rfl, rfl⟩

end Outcome

theorem reorder_preceded (e : Engine) (events : List Event) (ranking : List Method)
    (report : PassReport) :
    { e with events := events ++ e.events }.reorder ranking report =
      ((e.reorder ranking report).1,
        { (e.reorder ranking report).2 with
          events := events ++ (e.reorder ranking report).2.events }) := by
  have samePlan : planFor { e with events := events ++ e.events } ranking = e.planFor ranking := rfl
  rw [reorder_eq, reorder_eq, samePlan]
  split
  · simp only [ranked, planFor, List.append_assoc]
  · simp only [ranked, moved, planFor, List.append_assoc]
    rfl

/-- What a pass does does not depend on what has been logged. -/
theorem conducted_preceded (e : Engine) (events : List Event) (files : FileTree)
    (ranking : List Method) (report : PassReport) :
    { e with events := events ++ e.events }.conducted files ranking report =
      (e.conducted files ranking report).preceded events := by
  unfold conducted
  dsimp only
  split
  · unfold recordOrder
    dsimp only
    split
    · rfl
    · split
      · rfl
      · simp [Outcome.preceded, Engine.report]
  · rw [reorder_preceded]
    rfl

theorem conducted_listed (e : Engine) (files : FileTree) (ranking : List Method)
    (report : PassReport) :
    e.conducted files (Plan.listed e.placements ranking) report =
      e.conducted files ranking report := by
  simp only [conducted, recordOrder, reorder, orderOf_listed, Plan.ofRanking_listed]

/-- The state of a pass that has been begun, without its log. -/
def counted (e : Engine) : Engine :=
  { e with
    passes := e.passes + 1
    events := [] }

/-- What the next pass for a ranking does after its start. -/
def conductedNext (e : Engine) (files : FileTree) (ranking : List Method) : Outcome PassReport :=
  e.counted.conducted files ranking (PassReport.start (e.passes + 1))

theorem runPass_eq_concluded (e : Engine) (files : FileTree) (ranking : List Method)
    (elapsed : Nat) :
    e.runPass files ranking elapsed =
      ((e.conductedNext files ranking).preceded
        (e.events ++ [.passStart (e.passes + 1) ranking.length])).concluded elapsed := by
  have begun : e.begun ranking =
      { e.counted with
        events := e.events ++ [.passStart (e.passes + 1) ranking.length] ++ e.counted.events } := by
    simp [Engine.begun, counted, Engine.report]
  rw [conductedNext, ← conducted_preceded, ← begun]
  cases mode : e.recording with
  | true =>
      have stillRecording : (e.begun ranking).recording = true := mode
      rw [runPass_eq_of_recording mode, conducted, if_pos stillRecording, Outcome.concluded]
      cases (e.begun ranking).recordOrder files ranking (PassReport.start (e.passes + 1)) with
      | mk result after written => cases result <;> rfl
  | false =>
      have stillMoving : (e.begun ranking).recording = false := mode
      rw [runPass_eq mode, conducted, stillMoving, Outcome.concluded]
      cases (e.begun ranking).reorder ranking (PassReport.start (e.passes + 1)) with
      | mk result after => cases result <;> rfl

/-! ## What a pass lists -/

theorem ranks_applyRanks (ps : Placements) (s : Segmentation) (ranking : List Method) :
    Placements.ranks (applyRanks (Plan.ofRanking s ps ranking) ps) = ps.indices ranking := by
  rw [Placements.ranks, Placements.indices, applyRanks, List.map_map]
  apply List.map_congr_left
  intro p _
  rw [Function.comp_apply, Plan.rankOf_ofRanking]

theorem reorder_lists (e : Engine) (ranking : List Method) (start : PassReport)
    (ended : (e.reorder ranking start).1 = .ok report) :
    (e.reorder ranking start).2.lastOrder = some (orderOf ranking e.placements) ∧
      report.ranked = (Plan.listed e.placements ranking).length ∧
      (e.reorder ranking start).2.placements.ranks = e.placements.indices ranking := by
  have ranked : (e.planFor ranking).ranks.length = (Plan.listed e.placements ranking).length := by
    rw [planFor, Plan.ranks_ofRanking, List.length_zipIdx]
  have ranks : (e.ranked ranking).placements.ranks = e.placements.indices ranking :=
    ranks_applyRanks e.placements e.cache.segmentation ranking
  rw [reorder_eq] at ended ⊢
  split
  · rename_i still
    rw [if_pos still] at ended
    cases ended
    exact ⟨rfl, ranked, ranks⟩
  · rename_i moves
    rw [if_neg moves] at ended
    dsimp only at ended ⊢
    refine ⟨rfl, ?_, ?_⟩
    · cases run : ((e.ranked ranking).opening start.pass (e.planFor ranking).moves).run.1 with
      | error fault =>
          rw [run] at ended
          cases ended
      | ok _ =>
          rw [run] at ended
          cases ended
          exact ranked
    · exact (Transit.run_steps _).ranks.trans ranks

theorem recordOrder_lists (e : Engine) (files : FileTree) (ranking : List Method)
    (start : PassReport) (ended : (e.recordOrder files ranking start).result = .ok report) :
    (e.recordOrder files ranking start).engine.lastOrder = some (orderOf ranking e.placements) ∧
      report.ranked = (Plan.listed e.placements ranking).length := by
  have size : (orderOf ranking e.placements).size = (Plan.listed e.placements ranking).length := by
    have sameMethods := congrArg List.length (ranking_orderOf ranking e.placements)
    rwa [Order.ranking, List.length_map] at sameMethods
  unfold recordOrder at ended ⊢
  dsimp only at ended ⊢
  split
  · rename_i nowhere
    simp only [nowhere, Except.ok.injEq] at ended
    rw [← ended]
    exact ⟨rfl, size⟩
  · rename_i path dumps
    simp only [dumps] at ended
    split
    · rename_i cause refused
      simp only [refused] at ended
      contradiction
    · rename_i written accepted
      simp only [accepted, Except.ok.injEq] at ended
      rw [← ended]
      exact ⟨rfl, size⟩

/-- Whatever its mode, a pass that ends well leaves the listed methods as its order. -/
theorem conducted_lists (e : Engine) (files : FileTree) (ranking : List Method)
    (start : PassReport) (ended : (e.conducted files ranking start).result = .ok report) :
    (e.conducted files ranking start).engine.lastOrder = some (orderOf ranking e.placements) ∧
      report.ranked = (Plan.listed e.placements ranking).length ∧
      (e.recording = false →
        (e.conducted files ranking start).engine.placements.ranks =
          e.placements.indices ranking) := by
  unfold conducted at ended ⊢
  split
  · rename_i recording
    rw [if_pos recording] at ended
    rcases recordOrder_lists e files ranking start ended with ⟨order, ranked⟩
    refine ⟨order, ranked, ?_⟩
    intro moving
    rw [recording] at moving
    contradiction
  · rename_i moving
    rw [if_neg moving] at ended
    rcases reorder_lists e ranking start ended with ⟨order, ranked, ranks⟩
    exact ⟨order, ranked, fun _ => ranks⟩

/-- A pass for a ranking does the same as a pass for the methods listed in it.  These are
the methods of its order, and their indices are the ranks after a moving pass. -/
theorem listed_runPass (e : Engine) (files : FileTree) (ranking : List Method)
    (elapsed elapsedClean : Nat) :
    Alike e ranking (e.runPass files ranking elapsed)
        (e.runPass files (Plan.listed e.placements ranking) elapsedClean) ∧
      ∀ report, (e.runPass files ranking elapsed).result = .ok report →
        Lists e ranking (e.runPass files ranking elapsed) report := by
  have same : e.conductedNext files (Plan.listed e.placements ranking) =
      e.conductedNext files ranking :=
    conducted_listed e.counted files ranking (PassReport.start (e.passes + 1))
  constructor
  · rw [runPass_eq_concluded, runPass_eq_concluded, same]
    generalize e.conductedNext files ranking = o
    constructor
    · rw [Outcome.result_concluded, Outcome.result_concluded]
    · rw [Outcome.silent_concluded, Outcome.silent_concluded]
    · rw [Outcome.files_concluded, Outcome.files_concluded]
    · refine ⟨o.engine.events ++ o.ending elapsed, o.engine.events ++ o.ending elapsedClean,
        ?_, ?_, ?_⟩
      · rw [Outcome.events_concluded]
        simp
      · rw [Outcome.events_concluded]
        simp
      · rw [List.map_append, List.map_append, o.untimed_ending elapsed elapsedClean]
  · intro report endsWell
    rw [runPass_eq_concluded] at endsWell ⊢
    rcases Outcome.concluded_ok _ _ _ endsWell with ⟨unfinished, ended, rfl, order, placements⟩
    rcases conducted_lists e.counted files ranking _ ended with ⟨isOrder, ranked, ranks⟩
    constructor
    · exact ⟨_, order.trans isOrder, ranking_orderOf ranking e.placements,
        entries_orderOf ranking e.placements⟩
    · exact ranked
    · intro moving
      rw [placements]
      exact ranks moving

/-- A ranking that names a method twice and another one that is not installed. -/
def wordyRanking : List Method :=
  [⟨"Main", "third", "()V"⟩, secondMethod, secondMethod]

theorem listed_wordyRanking :
    Plan.listed smallEngine.placements wordyRanking = [secondMethod] := by
  decide

/-- For the wordy ranking the two methods of the small machine are exchanged, too. -/
theorem listed_exchange :
    ∃ report,
      (smallEngine.runPass FileTree.empty wordyRanking 7).result = .ok report ∧
      Alike smallEngine wordyRanking (smallEngine.runPass FileTree.empty wordyRanking 7)
        (smallEngine.runPass FileTree.empty [secondMethod] 0) ∧
      report.ranked = 1 ∧
      (smallEngine.runPass FileTree.empty wordyRanking 7).engine.placements.ranks =
        [(firstMethod, none), (secondMethod, some 0)] := by
  obtain ⟨alike, lists⟩ := listed_runPass smallEngine FileTree.empty wordyRanking 7 0
  rw [listed_wordyRanking] at alike
  rcases perform_exchange.2 with ⟨clean, endsWell, _⟩
  have same := alike.result
  rw [endsWell] at same
  cases result : (smallEngine.runPass FileTree.empty wordyRanking 7).result with
  | error fault =>
      rw [result] at same
      cases same
  | ok report =>
      have listed := lists report result
      refine ⟨report, rfl, alike, ?_, ?_⟩
      · rw [listed.ranked, listed_wordyRanking]
        rfl
      · rw [listed.ranks rfl, Placements.indices, listed_wordyRanking]
        decide

end Engine

end CodeLayout
