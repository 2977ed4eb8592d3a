import CodeLayout.Proofs.Engine.Readiness
import CodeLayout.Proofs.Startup.Checks
import CodeLayout.Proofs.Time.Firings

/-!
# The first fault of a start

The first pass of a start finds nothing to move, so it fails only if it cannot write an
order.  After it nothing fails.  A start with reordering therefore makes all checks in
their order, and fails with the fault of the first one that is not passed, whatever the
others would say; a start without reordering makes only that of the memory.
-/

namespace CodeLayout

namespace Plan

theorem rankMethod_nil (s : Segmentation) (plan : Plan) (m : Method) :
    rankMethod s [] plan m = plan := by
  rw [rankMethod]
  split <;> rfl

/-- Where nothing is installed there is nothing to move. -/
theorem ofRanking_nil (s : Segmentation) (ranking : List Method) :
    ofRanking s [] ranking = empty := by
  have unranked : ranking.foldl (rankMethod s []) empty = empty := by
    induction ranking with
    | nil => rfl
    | cons m rest inductionHypothesis =>
        rw [List.foldl_cons, rankMethod_nil]
        exact inductionHypothesis
  rw [ofRanking, unranked]
  rfl

end Plan

namespace Startup

variable {o : Options} {host : Host} {files : FileTree} {s : State}
  {checks : List Check}

/-! ## The first pass -/

/-- The engine of a mode before it is used. -/
def preparedEngine (mode : Mode) (cache : Cache) (path : Option String) (seed : Option Order) :
    Engine :=
  let engine := Engine.start (mode = .dump) cache
  let engine := if mode = .dump then { engine with dumpPath := path } else engine
  match seed with
  | some order => engine.withSeed order
  | none => engine

theorem outcome_prepareEngine_eq (mode : Mode) (cache : Cache) (path : Option String)
    (seed : Option Order) (s : State) :
    outcome (prepareEngine mode cache path seed) s =
      (.ok ((preparedEngine mode cache path seed).report s.events), s) := by
  unfold prepareEngine
  rw [outcome_bind, outcome_get]
  rfl

/-- A pass ends well and finds nothing to do. -/
structure Idles (e : Engine) (outcome : Engine.Outcome PassReport) : Prop where
  result : ∃ report, outcome.result = .ok report
  cache : outcome.engine.cache = e.cache
  placements : outcome.engine.placements = []
  seedTargets : outcome.engine.seedTargets = e.seedTargets

/-- Passes on which nothing is installed find nothing to do, unless they record. -/
theorem runWith_of_moving {e : Engine} (moving : e.recording = false) (new : e.placements = [])
    (files : FileTree) (ranking : List Method) (elapsed : Nat) :
    Idles e (e.runWith files ranking elapsed) := by
  have still (followed : Engine) (sameMode : followed.recording = false)
      (stillNew : followed.placements = []) (order : List Method) :
      Idles followed (followed.runPass files order elapsed) := by
    have nothing : (followed.planFor order).moves = [] := by
      rw [Engine.planFor, stillNew, Plan.ofRanking_nil]
      rfl
    rw [Engine.runPass_eq sameMode, Engine.reorder_of_still (e := followed.begun order) nothing]
    refine ⟨⟨_, rfl⟩, rfl, ?_, rfl⟩
    change Engine.applyRanks _ followed.placements = []
    rw [stillNew]
    rfl
  unfold Engine.runWith
  split
  · split
    · exact still e moving new ranking
    · have idles := still { e with seedUsed := true } moving new
      exact ⟨(idles _).result, (idles _).cache, (idles _).placements, (idles _).seedTargets⟩
  · exact still e moving new ranking

/-- A pass that records on nothing writes the empty text. -/
theorem runWith_of_recording {e : Engine} {path : String} (recording : e.recording = true)
    (dumps : e.dumpPath = some path) (unseeded : e.seed = none) (files : FileTree)
    (elapsed : Nat) :
    faultOf? (e.runWith files [] elapsed).result =
      faultOf? ((files.writeText path "").mapError .file) := by
  have stillDumps : (e.begun []).dumpPath = some path := dumps
  have written : String.ofList (Engine.orderOf [] (e.begun []).placements).render = "" := rfl
  rw [Engine.runWith, unseeded]
  dsimp only
  rw [(runPass_of_recording recording files [] elapsed).2, Engine.recordOrder, stillDumps]
  dsimp only
  rw [written]
  cases files.writeText path "" <;> rfl

/-- The control loop is started without fail, and only adds to what is reported. -/
theorem exists_startLoop (session : Session) (now : Moment) (s : State) :
    ∃ started after events, outcome (startLoop session now) s = (.ok started, after) ∧
      started.store = session.store.report events := by
  have quiet : session.store = session.store.report [] := by
    cases held : session.store <;> simp [CodeStore.report, CodeStore.withEvents, CodeStore.events]
  unfold startLoop
  split
  · exact ⟨_, _, [], rfl, quiet⟩
  · rename_i set _
    split
    · rename_i filled
      have times : set.times ≠ [] := by
        intro empty
        rw [empty] at filled
        simp at filled
      rw [ControlLoop.start_ofTriggers times]
      exact ⟨_, _, _, rfl, rfl⟩
    · exact ⟨_, _, [], rfl, quiet⟩

theorem preparedEngine_placements (mode : Mode) (cache : Cache) (path : Option String)
    (seed : Option Order) : (preparedEngine mode cache path seed).placements = [] := by
  unfold preparedEngine
  split <;> split <;> rfl

theorem preparedEngine_recording (mode : Mode) (cache : Cache) (path : Option String)
    (seed : Option Order) :
    (preparedEngine mode cache path seed).recording = decide (mode = .dump) := by
  unfold preparedEngine
  split <;> split <;> rfl

/-- The first pass fails exactly if its order cannot be written. -/
theorem faultOf?_firstPass (host : Host) (files : FileTree)
    (enabled : o.enabled = true) (consistent : o.checkMode = .ok ())
    (used : o.isAuto = false → usedPath? o ≠ none) (cache : Cache) (elapsed : Nat)
    (events : List Event) :
    faultOf? (((preparedEngine (Mode.ofOptions o) cache (usedPath? o) (loadedOrder? o files)).report
      events).runWith (cleared o files) [] elapsed).result =
        Check.fault? o host files .recording := by
  cases records : o.isDump with
  | true =>
      have mode : Mode.ofOptions o = .dump := by simp [Mode.ofOptions, enabled, records]
      have manual : o.isAuto = false := by simp [Options.isAuto, records]
      have unseeded : loadedOrder? o files = none := by
        simp [loadedOrder?, not_isLoad_of_isDump consistent records]
      rcases Option.ne_none_iff_exists'.mp (used manual) with ⟨path, isUsed⟩
      have given : o.orderFile = some path := by simpa [usedPath?, manual] using isUsed
      rw [mode, isUsed, unseeded, runWith_of_recording (e := (preparedEngine .dump cache
        (some path) none).report events) rfl rfl rfl (cleared o files) elapsed]
      simp [Check.fault?, records, given]
  | false =>
      have moving : (preparedEngine (Mode.ofOptions o) cache (usedPath? o)
          (loadedOrder? o files)).recording = false := by
        rw [preparedEngine_recording, decide_eq_false_iff_not]
        simp only [Mode.ofOptions, enabled, records, Bool.not_true, Bool.false_eq_true, if_false]
        split <;> simp
      have new := preparedEngine_placements (Mode.ofOptions o) cache (usedPath? o)
        (loadedOrder? o files)
      rcases (runWith_of_moving
        (e := (preparedEngine (Mode.ofOptions o) cache (usedPath? o)
          (loadedOrder? o files)).report events) moving new (cleared o files) []
        elapsed).result with ⟨report, ended⟩
      rw [ended]
      simp [faultOf?, Check.fault?, records]

theorem makes_firstPass (enabled : o.enabled = true) (consistent : o.checkMode = .ok ())
    (used : o.isAuto = false → usedPath? o ≠ none) (cache : Cache) (elapsed : Nat)
    (events : List Event) :
    Makes o host files [.recording]
      (firstPass
        ((preparedEngine (Mode.ofOptions o) cache (usedPath? o) (loadedOrder? o files)).report
          events) elapsed) ⟨cleared o files, events⟩
      fun passed _ => passed.2 =
        (((preparedEngine (Mode.ofOptions o) cache (usedPath? o) (loadedOrder? o files)).report
          events).runWith (cleared o files) [] elapsed).engine := by
  have fault := faultOf?_firstPass host files enabled consistent used cache elapsed events
  have ran := outcome_firstPass
    ((preparedEngine (Mode.ofOptions o) cache (usedPath? o) (loadedOrder? o files)).report events)
    elapsed ⟨cleared o files, events⟩
  dsimp only at ran
  cases ended : (((preparedEngine (Mode.ofOptions o) cache (usedPath? o)
      (loadedOrder? o files)).report events).runWith (cleared o files) [] elapsed).result with
  | error cause =>
      rw [ended] at ran fault
      refine Makes.fails ran ?_
      simp [← fault, faultOf?]
  | ok report =>
      rw [ended] at ran fault
      refine Makes.passes ran ?_ rfl
      simp [← fault, faultOf?]

/-! ## All checks -/

/-- A session holds the engine of its mode after the first pass.  The cache is reserved as
the options say, and the seed is the order to load. -/
def Starts (o : Options) (host : Host) (files : FileTree) (elapsed : Nat)
    (session : Session) : Prop :=
  ∃ cache before behind, IsReserved o host files cache ∧
    session.store = .reordered
      ((((preparedEngine (Mode.ofOptions o) cache (usedPath? o) (loadedOrder? o files)).report
        before).runWith (cleared o files) [] elapsed).engine.report behind)

/-- What is left to do when the order file is chosen makes the other checks. -/
theorem makes_startChosen (enabled : o.enabled = true) (consistent : o.checkMode = .ok ())
    (capable : o.checkDependency = .ok ()) (used : o.isAuto = false → usedPath? o ≠ none)
    (now : Moment) (elapsed : Nat) (sameFiles : s.files = cleared o files) :
    Makes o host files
      [.scheduleLength, .scheduleTimes, .orderReadable, .orderLines, .orderFits, .heapAligned,
        .heapCountable, .heapSpace, .memory, .recording]
      (startChosen o host now elapsed (usedPath? o)) s
      fun session _ => Starts o host files elapsed session := by
  unfold startChosen
  apply (makes_chooseTriggers s).bind
  rintro triggers ⟨_, afterTriggers⟩ unchanged
  cases unchanged.trans sameFiles
  apply (makes_chooseSeed enabled consistent used afterTriggers).bind
  rintro seed ⟨_, afterSeed⟩ ⟨isSeed, rfl⟩
  cases isSeed
  apply (makes_chooseHeapSize consistent _).bind
  rintro chosen ⟨_, afterSize⟩ ⟨isChosen, rfl⟩
  cases isChosen
  apply (makes_reserveCache enabled capable _).bind
  rintro cache ⟨_, afterCache⟩ ⟨reserved, rfl⟩
  rw [Makes, outcome_bind, outcome_prepareEngine_eq]
  dsimp only
  rw [← Makes, startEngine]
  apply (makes_firstPass enabled consistent used cache elapsed afterCache).bind
  rintro ⟨report, engine⟩ after rfl
  rw [Makes, outcome_bind, outcome_get]
  dsimp only
  rcases exists_startLoop _ now after with ⟨started, last, behind, ran, store⟩
  rw [ran]
  exact ⟨rfl, cache, afterCache, behind, reserved, store⟩

/-- A start with reordering makes all checks in their order. -/
theorem makes_startReordering (enabled : o.enabled = true) (consistent : o.checkMode = .ok ())
    (capable : o.checkDependency = .ok ()) (now : Moment) (elapsed : Nat) :
    Makes o host files Check.all (startReordering o host now elapsed) ⟨files, []⟩
      fun session _ => Starts o host files elapsed session := by
  rw [startReordering_eq]
  apply Makes.of_check consistent
  apply Makes.of_check capable
  apply (makes_chooseOrderFile []).bind
  rintro path ⟨_, events⟩ ⟨rfl, used, rfl⟩
  exact makes_startChosen enabled consistent capable used now elapsed rfl

/-- Without reordering no order is loaded. -/
theorem isLoad_of_disabled (disabled : o.enabled = false)
    (independent : o.checkDependents = .ok ()) : o.isLoad = false := by
  rw [Options.checkDependents, disabled, if_neg Bool.false_ne_true] at independent
  split at independent
  · contradiction
  · rename_i nothing
    have missing := List.find?_eq_none.mp nothing .loadMode (by decide)
    have notGiven : o.loadMode = none := by simpa [Options.isGiven] using missing
    rw [Options.isLoad, notGiven]
    rfl

/-- Without reordering only the reservation can fail. -/
theorem makes_startPlain (disabled : o.enabled = false) (independent : o.checkDependents = .ok ()) :
    Makes o host files [.memory] (startPlain o host) ⟨files, []⟩ fun _ _ => True := by
  have unset : sized o files = o := by
    rw [sized, loadedOrder?, isLoad_of_disabled disabled independent]
    split <;> rfl
  have segmented := segmentation_of_still (o := o) (by rw [disabled, Bool.not_false, Bool.true_or])
  have reserves : Makes o host files [.memory] (reserveCache (sized o files) host) ⟨files, []⟩ _ :=
    makes_reserve (unset.symm ▸ segmented) ⟨files, []⟩
  rw [unset] at reserves
  change Makes o host files ([.memory] ++ []) _ _ _
  exact reserves.bind fun _ _ _ => Makes.passes rfl rfl trivial

/-- What a start that makes some checks fails with. -/
theorem Makes.faultOf {x : Startup Session} {known : Session → State → Prop}
    (makes : Makes o host files checks x ⟨files, []⟩ known) :
    faultOf? (outcome x ⟨files, []⟩).1 = checks.findSome? (Check.fault? o host files) := by
  rw [Makes] at makes
  rcases ran : outcome x ⟨files, []⟩ with ⟨result, after⟩
  rw [ran] at makes
  cases result with
  | error fault => exact makes.symm
  | ok value => exact makes.1.symm

/-- The options alone refuse a start, or say which one it is. -/
theorem outcome_session (o : Options) (host : Host) (now : Moment) (elapsed : Nat)
    (s : State) :
    (∃ cause, o.validate = .error cause ∧
      outcome (session o host now elapsed) s = (.error (.config cause), s)) ∨
    o.validate = .ok () ∧
      (o.enabled = true ∧ o.checkMode = .ok () ∧ o.checkDependency = .ok () ∧
        outcome (session o host now elapsed) s =
          outcome (startReordering o host now elapsed) s ∨
      o.enabled = false ∧ o.checkDependents = .ok () ∧
        outcome (session o host now elapsed) s = outcome (startPlain o host) s) := by
  rw [Options.validate, session]
  cases independent : o.checkDependents with
  | error cause => exact Or.inl ⟨cause, rfl, outcome_check_of_error rfl _ _⟩
  | ok _ =>
      rw [outcome_check_of_ok rfl]
      cases switch : o.enabled with
      | false => exact Or.inr ⟨rfl, Or.inr ⟨rfl, rfl, rfl⟩⟩
      | true =>
          rw [if_pos rfl, if_pos rfl]
          cases consistent : o.checkMode with
          | error cause =>
              refine Or.inl ⟨cause, rfl, ?_⟩
              rw [startReordering_eq]
              exact outcome_check_of_error consistent _ _
          | ok _ =>
              cases capable : o.checkDependency with
              | error cause =>
                  refine Or.inl ⟨cause, rfl, ?_⟩
                  rw [startReordering_eq, outcome_check_of_ok consistent]
                  exact outcome_check_of_error capable _ _
              | ok _ => exact Or.inr ⟨rfl, Or.inl ⟨rfl, rfl, rfl, rfl⟩⟩

/-- If the options alone speak against it, the start fails for the reason that they
give, with no file touched and nothing reported.  Otherwise it fails with the fault of
the first check that is not passed; without reordering there is only the one of the memory. -/
theorem fault_of_run (o : Options) (host : Host) (now : Moment) (elapsed : Nat)
    (files : FileTree) :
    match o.validate with
    | .error cause =>
      run (session o host now elapsed) files = (.error (.config cause), ⟨files, []⟩)
    | .ok () =>
      faultOf? (run (session o host now elapsed) files).1 =
        (if o.enabled then Check.all else [.memory]).findSome? (Check.fault? o host files) := by
  change match o.validate with
    | .error cause => outcome (session o host now elapsed) ⟨files, []⟩ = _
    | .ok () => faultOf? (outcome (session o host now elapsed) ⟨files, []⟩).1 = _
  rcases outcome_session o host now elapsed ⟨files, []⟩ with
    ⟨cause, refused, ran⟩ |
      ⟨accepted, ⟨switch, consistent, capable, ran⟩ | ⟨switch, independent, ran⟩⟩
  · rw [refused]
    exact ran
  · rw [accepted, ran, switch]
    exact (makes_startReordering switch consistent capable now elapsed).faultOf
  · rw [accepted, ran, switch]
    exact (makes_startPlain switch independent).faultOf

/-- Managed partitions so large that two of them cannot be counted in a word. -/
def uncountable : Options :=
  { Options.default with
    enabled := true
    hotHeapSize := some 9223372036854775808 }

/-- The check that two managed partitions can be counted comes before that of the space:
without it in its place, the first check that is not passed would say something else. -/
theorem heapTooLarge_before_notEnoughSpace :
    uncountable.validate = .ok () ∧
      faultOf? (run (session uncountable emptyHost ⟨0, 0⟩ 0) FileTree.empty).1 =
        some (.config (.heapTooLarge 9223372036854775808)) ∧
      (Check.all.erase .heapCountable).findSome?
          (Check.fault? uncountable emptyHost FileTree.empty) =
        some (.config (.notEnoughSpace 118784 18014398509481984)) :=
  ⟨rfl, rfl, rfl⟩

end Startup

end CodeLayout
