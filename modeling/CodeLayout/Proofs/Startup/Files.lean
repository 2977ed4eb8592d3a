import CodeLayout.Proofs.Engine.Pass
import CodeLayout.Proofs.FileTree.Removal
import CodeLayout.Startup

/-!
# Files during the start

A start that fails has changed the files at one place only: where it makes room
for the order that it is going to record, before the checks that follow.
-/

namespace CodeLayout.Startup

variable {α β : Type} {x : Startup α} {f : α → Startup β} {s after : State} {fault : Fault}

/-- The result of a step and what it leaves behind. -/
def outcome (x : Startup α) (s : State) : Except Fault α × State :=
  StateT.run (ExceptT.run x) s

/-! ## Steps one after the other -/

theorem outcome_bind (x : Startup α) (f : α → Startup β) (s : State) :
    outcome (x >>= f) s =
      match outcome x s with
      | (.ok value, t) => outcome (f value) t
      | (.error fault, t) => (.error fault, t) := by
  change outcome (ExceptT.bind x f) s = _
  simp only [outcome, ExceptT.bind, ExceptT.run, ExceptT.mk, StateT.run_bind]
  change (match StateT.run x s with | (a, t) => StateT.run (ExceptT.bindCont f a) t) = _
  rcases StateT.run x s with ⟨result, t⟩
  cases result <;> rfl

/-- Steps in sequence fail with the first or after it. -/
theorem outcome_bind_eq_error (failed : outcome (x >>= f) s = (.error fault, after)) :
    outcome x s = (.error fault, after) ∨
      ∃ value t, outcome x s = (.ok value, t) ∧ outcome (f value) t = (.error fault, after) := by
  rw [outcome_bind] at failed
  rcases ran : outcome x s with ⟨result, t⟩
  rw [ran] at failed
  cases result with
  | error cause =>
      cases failed
      exact Or.inl rfl
  | ok value => exact Or.inr ⟨value, t, rfl, failed⟩

@[simp]
theorem outcome_pure (value : α) (s : State) : outcome (pure value) s = (.ok value, s) :=
  rfl

@[simp]
theorem outcome_throw (fault : Fault) (s : State) :
    outcome (throw fault : Startup α) s = (.error fault, s) :=
  rfl

@[simp]
theorem outcome_get (s : State) : outcome get s = (.ok s, s) :=
  rfl

@[simp]
theorem outcome_announce (events : List Event) (s : State) :
    outcome (announce events) s = (.ok (), { s with events := s.events ++ events }) :=
  rfl

theorem outcome_check (result : Except ConfigError α) (s : State) :
    outcome (check result) s = (result.mapError .config, s) := by
  cases result <;> rfl

theorem check_eq_ok {result : Except ConfigError α} {value : α}
    (passed : outcome (check result) s = (.ok value, after)) : result = .ok value ∧ after = s := by
  rw [outcome_check] at passed
  cases result with
  | ok value =>
      cases passed
      exact ⟨rfl, rfl⟩
  | error cause => cases passed

theorem outcome_lift (result : Except Fault α) (s : State) :
    outcome (lift result) s = (result, s) := by
  cases result <;> rfl

/-! ## Steps that leave the files alone -/

/-- The step does nothing to files. -/
def Steady (x : Startup α) : Prop :=
  ∀ s, (outcome x s).2.files = s.files

/-- The step does nothing to files if it fails. -/
def Cautious (x : Startup α) : Prop :=
  ∀ s fault after, outcome x s = (.error fault, after) → after.files = s.files

theorem Steady.cautious (steady : Steady x) : Cautious x := by
  intro s fault after failed
  have same := steady s
  rwa [failed] at same

theorem Steady.bind (first : Steady x) (next : ∀ value, Steady (f value)) : Steady (x >>= f) := by
  intro s
  have same := first s
  rw [outcome_bind]
  rcases ran : outcome x s with ⟨result, t⟩
  rw [ran] at same
  cases result with
  | error cause => exact same
  | ok value => exact (next value t).trans same

/-- A step that fails after steady ones has done nothing to files. -/
theorem Cautious.of_steady (first : Steady x)
    (next : ∀ s value t, outcome x s = (.ok value, t) → Cautious (f value)) :
    Cautious (x >>= f) := by
  intro s fault after failed
  rcases outcome_bind_eq_error failed with now | ⟨value, t, ran, later⟩
  · exact first.cautious s fault after now
  · have same := first s
    rw [ran] at same
    exact (next s value t ran t fault after later).trans same

theorem steady_pure (value : α) : Steady (pure value) :=
  fun _ => rfl

theorem steady_throw (fault : Fault) : Steady (throw fault : Startup α) :=
  fun _ => rfl

theorem steady_get : Steady (get : Startup State) :=
  fun _ => rfl

theorem steady_announce (events : List Event) : Steady (announce events) :=
  fun _ => rfl

theorem steady_check (result : Except ConfigError α) : Steady (check result) :=
  fun s => by rw [outcome_check]

theorem steady_lift (result : Except Fault α) : Steady (lift result) :=
  fun s => by rw [outcome_lift]

theorem steady_chooseTriggers (o : Options) : Steady (chooseTriggers o) := by
  unfold chooseTriggers
  split
  · exact steady_pure _
  · apply (steady_check _).bind
    intro _
    split
    · apply (steady_announce _).bind
      intro _
      apply (steady_check _).bind
      exact fun set => steady_pure _
    · apply (steady_announce _).bind
      exact fun _ => steady_pure _

theorem steady_loadOrder (path : String) : Steady (loadOrder path) := by
  unfold loadOrder
  apply steady_get.bind
  intro s
  split
  · exact steady_throw _
  · split
    · exact steady_throw _
    · apply (steady_announce _).bind
      exact fun _ => steady_pure _

theorem steady_chooseHeapSize (o : Options) (seed : Option Order) :
    Steady (chooseHeapSize o seed) := by
  unfold chooseHeapSize
  split
  · exact steady_pure _
  · split
    · split
      · exact (steady_throw _).bind fun _ => (steady_announce _).bind fun _ => steady_pure _
      · exact (steady_pure _).bind fun _ => (steady_announce _).bind fun _ => steady_pure _
    · exact (steady_announce _).bind fun _ => steady_pure _

theorem steady_reserveCache (o : Options) (host : Host) :
    Steady (reserveCache o host) :=
  (steady_check _).bind fun _ => steady_lift _

theorem steady_startPlain (o : Options) (host : Host) : Steady (startPlain o host) :=
  (steady_reserveCache o host).bind fun _ => steady_get.bind fun _ => steady_pure _

theorem steady_startLoop (s : Session) (now : Moment) : Steady (startLoop s now) := by
  unfold startLoop
  split
  · exact steady_pure _
  · split
    · apply (steady_lift _).bind
      intro loop
      exact Steady.bind (fun _ => rfl) fun _ => steady_pure _
    · exact steady_pure _

/-! ## The stages of the start -/

/-- Read the order that the methods are to follow, where one is to be loaded. -/
def chooseSeed (mode : Mode) (path : Option String) : Startup (Option Order) :=
  match mode, path with
  | .load, some path => (loadOrder path).map some
  | _, _ => pure none

/-- Make the first pass and start the control loop. -/
def startEngine (o : Options) (mode : Mode) (engine : Engine) (triggers : Option TriggerSet)
    (now : Moment) (elapsed : Nat) : Startup Session := do
  let (initialPass, engine) ← firstPass engine elapsed
  startLoop
    { options := o
      mode
      store := .reordered engine
      hotness := Hotness.empty
      triggers
      loop := none
      initialPass := some initialPass
      files := (← get).files }
    now

/-- What is left to do when the order file is chosen. -/
def startChosen (o : Options) (host : Host) (now : Moment) (elapsed : Nat)
    (path : Option String) : Startup Session := do
  let mode := Mode.ofOptions o
  let triggers ← chooseTriggers o
  let seed ← chooseSeed mode path
  let o ← chooseHeapSize o seed
  let cache ← reserveCache o host
  let engine ← prepareEngine mode cache path seed
  startEngine o mode engine triggers now elapsed

theorem startReordering_eq (o : Options) (host : Host) (now : Moment) (elapsed : Nat) :
    startReordering o host now elapsed = (do
      check o.checkMode
      check o.checkDependency
      let path ← chooseOrderFile o
      startChosen o host now elapsed path) := by
  unfold startReordering startChosen chooseSeed
  dsimp only
  congr 1
  funext _
  congr 1
  funext _
  congr 1
  funext path
  congr 1
  funext triggers
  cases Mode.ofOptions o <;> cases path <;> rfl

theorem steady_chooseSeed (mode : Mode) (path : Option String) : Steady (chooseSeed mode path) := by
  unfold chooseSeed
  split
  · exact (steady_loadOrder _).bind fun _ => steady_pure _
  · exact steady_pure _

theorem outcome_prepareEngine (mode : Mode) (cache : Cache) (path : Option String)
    (seed : Option Order) (s : State) :
    ∃ engine, outcome (prepareEngine mode cache path seed) s = (.ok engine, s) ∧
      engine.recording = decide (mode = .dump) ∧
      engine.dumpPath = (if mode = .dump then path else none) ∧ engine.seed = seed := by
  unfold prepareEngine
  rw [outcome_bind, outcome_get]
  refine ⟨_, rfl, ?_⟩
  by_cases dumps : mode = .dump
  · cases seed with
    | none => simp [Engine.start, Engine.report, dumps]
    | some order => simp [Engine.start, Engine.report, Engine.withSeed, dumps]
  · cases seed with
    | none => simp [Engine.start, Engine.report, dumps]
    | some order => simp [Engine.start, Engine.report, Engine.withSeed, dumps]

/-! ## The first pass -/

section Pass

variable {e : Engine} {files : FileTree} {ranking : List Method} {elapsed : Nat}

theorem recordOrder_files {report : PassReport}
    (failed : (e.recordOrder files ranking report).result = .error fault) :
    (e.recordOrder files ranking report).files = files := by
  unfold Engine.recordOrder at failed ⊢
  dsimp only at failed ⊢
  split at failed
  · contradiction
  · split at failed
    · rfl
    · contradiction

/-- A recording pass ends as the writing of the order does. -/
theorem runPass_of_recording (recording : e.recording = true) (files : FileTree)
    (ranking : List Method) (elapsed : Nat) :
    (e.runPass files ranking elapsed).files =
        ((e.begun ranking).recordOrder files ranking (PassReport.start (e.passes + 1))).files ∧
      (e.runPass files ranking elapsed).result =
        ((e.begun ranking).recordOrder files ranking (PassReport.start (e.passes + 1))).result.map
          fun report => { report with elapsed } := by
  rw [Engine.runPass_eq_of_recording recording]
  split
  · rename_i ended
    rw [ended]
    exact ⟨rfl, rfl⟩
  · rename_i stopped
    rw [stopped]
    exact ⟨rfl, rfl⟩

/-- A moving pass writes no file. -/
theorem runPass_files_of_moving (moving : e.recording = false) :
    (e.runPass files ranking elapsed).files = files := by
  rw [Engine.runPass_eq moving]
  split <;> rfl

/-- A pass that fails has written no file. -/
theorem runPass_files (failed : (e.runPass files ranking elapsed).result = .error fault) :
    (e.runPass files ranking elapsed).files = files := by
  cases mode : e.recording with
  | false => exact runPass_files_of_moving mode
  | true =>
      rcases runPass_of_recording mode files ranking elapsed with ⟨sameFiles, sameResult⟩
      rw [sameResult] at failed
      rw [sameFiles]
      cases recorded : ((e.begun ranking).recordOrder files ranking
          (PassReport.start (e.passes + 1))).result with
      | error cause => exact recordOrder_files recorded
      | ok report =>
          rw [recorded] at failed
          contradiction

/-- A pass that can write its order succeeds. -/
theorem runPass_of_writable {path : String} (recording : e.recording = true)
    (dumps : e.dumpPath = some path)
    (writable : ∀ text, ∃ written, files.writeText path text = .ok written)
    (ranking : List Method) (elapsed : Nat) :
    ∃ report, (e.runPass files ranking elapsed).result = .ok report := by
  have stillDumps : (e.begun ranking).dumpPath = some path := dumps
  rcases writable (String.ofList (Engine.orderOf ranking (e.begun ranking).placements).render) with
    ⟨written, wrote⟩
  rw [(runPass_of_recording recording files ranking elapsed).2, Engine.recordOrder, stillDumps]
  dsimp only
  rw [wrote]
  exact ⟨_, rfl⟩

/-- The first pass is an ordinary one, for the seed or for the given ranking. -/
theorem exists_runWith (e : Engine) (files : FileTree) (ranking : List Method) (elapsed : Nat) :
    ∃ followed : Engine, ∃ order,
      followed.recording = e.recording ∧ followed.dumpPath = e.dumpPath ∧
        e.runWith files ranking elapsed = followed.runPass files order elapsed := by
  unfold Engine.runWith
  split
  · rename_i order _
    split
    · exact ⟨e, ranking, rfl, rfl, rfl⟩
    · exact ⟨{ e with seedUsed := true }, order.ranking, rfl, rfl, rfl⟩
  · exact ⟨e, ranking, rfl, rfl, rfl⟩

end Pass

theorem outcome_firstPass (engine : Engine) (elapsed : Nat) (s : State) :
    outcome (firstPass engine elapsed) s =
      ((engine.runWith s.files [] elapsed).result.map fun report =>
          (report, (engine.runWith s.files [] elapsed).engine),
        ⟨(engine.runWith s.files [] elapsed).files,
          (engine.runWith s.files [] elapsed).engine.events⟩) := by
  unfold firstPass
  rw [outcome_bind, outcome_get]
  dsimp only
  cases result : (engine.runWith s.files [] elapsed).result with
  | error fault => rfl
  | ok report => rfl

theorem cautious_firstPass (engine : Engine) (elapsed : Nat) :
    Cautious (firstPass engine elapsed) := by
  intro s fault after failed
  rw [outcome_firstPass] at failed
  rcases exists_runWith engine s.files [] elapsed with ⟨followed, order, _, _, followed_eq⟩
  rw [followed_eq] at failed
  cases stopped : (followed.runPass s.files order elapsed).result with
  | ok report =>
      rw [stopped] at failed
      cases failed
  | error cause =>
      rw [stopped] at failed
      cases failed
      exact runPass_files stopped

theorem steady_firstPass {engine : Engine} (moving : engine.recording = false) (elapsed : Nat) :
    Steady (firstPass engine elapsed) := by
  intro s
  rcases exists_runWith engine s.files [] elapsed with ⟨followed, order, sameMode, _, followed_eq⟩
  rw [outcome_firstPass, followed_eq]
  exact runPass_files_of_moving (sameMode.trans moving)

/-- Outside the automatic mode there is no control loop to start. -/
theorem outcome_startLoop {session : Session} (manual : session.mode ≠ .auto) (now : Moment)
    (s : State) : outcome (startLoop session now) s = (.ok session, s) := by
  unfold startLoop
  split
  · rfl
  · rw [if_neg (by simp [manual])]
    rfl

theorem cautious_startEngine (o : Options) {mode : Mode} {engine : Engine}
    (modes : engine.recording = decide (mode = .dump)) (triggers : Option TriggerSet)
    (now : Moment) (elapsed : Nat) : Cautious (startEngine o mode engine triggers now elapsed) := by
  by_cases dumps : mode = .dump
  · -- Nothing can fail once the order is written.
    intro s fault after failed
    rcases outcome_bind_eq_error failed with stopped | ⟨report, t, _, failed⟩
    · exact cautious_firstPass engine elapsed s fault after stopped
    · dsimp only at failed
      rw [outcome_bind, outcome_get] at failed
      dsimp only at failed
      rw [outcome_startLoop (by simp [dumps])] at failed
      cases failed
  · have moving : engine.recording = false := by simp [modes, dumps]
    apply Steady.cautious
    apply (steady_firstPass moving elapsed).bind
    exact fun _ => steady_get.bind fun _ => steady_startLoop _ _

theorem cautious_startChosen (o : Options) (host : Host) (now : Moment) (elapsed : Nat)
    (path : Option String) : Cautious (startChosen o host now elapsed path) := by
  apply Cautious.of_steady (steady_chooseTriggers o)
  intro _ triggers _ _
  apply Cautious.of_steady (steady_chooseSeed _ path)
  intro _ seed _ _
  apply Cautious.of_steady (steady_chooseHeapSize o seed)
  intro _ sized _ _
  apply Cautious.of_steady (steady_reserveCache sized host)
  intro _ cache _ _ s fault after failed
  rcases outcome_prepareEngine (Mode.ofOptions o) cache path seed s with
    ⟨engine, prepared, modes, _⟩
  rw [outcome_bind, prepared] at failed
  exact cautious_startEngine sized modes triggers now elapsed s fault after failed

/-! ## The order file -/

/-- A file stands where an order is to be recorded. -/
structure RecordsOver (o : Options) (files : FileTree) (names : List String) : Prop where
  records : o.isDump = true
  target : ∃ path content, o.orderFile = some path ∧ files.find path = .ok (names, .file content)

theorem outcome_chooseOrderFile {o : Options} {path : String} (manual : o.isAuto = false)
    (given : o.orderFile = some path) (s : State) :
    outcome (chooseOrderFile o) s =
      if s.files.has path then
        if o.isDump then
          match s.files.remove path with
          | .ok files => (.ok (some path), ⟨files, s.events ++ [.orderFileOverwritten path]⟩)
          | .error cause =>
            (.error (.file cause), ⟨s.files, s.events ++ [.orderFileOverwritten path]⟩)
        else (.ok (some path), s)
      else if o.isLoad then (.error (.config (.orderFileInaccessible path)), s)
      else (.ok (some path), s) := by
  unfold chooseOrderFile
  rw [manual, given]
  simp only [Bool.false_eq_true, if_false]
  rw [outcome_bind, outcome_get]
  dsimp only
  split
  · split
    · cases s.files.remove path <;> rfl
    · rfl
  · split <;> rfl

/-- The file that stands where an order is to be recorded is taken away. -/
theorem outcome_chooseOrderFile_of_file {o : Options} {path : String} {names : List String}
    {content : ByteArray} (records : o.isDump = true) (given : o.orderFile = some path)
    (found : s.files.find path = .ok (names, .file content)) :
    outcome (chooseOrderFile o) s =
      (.ok (some path), ⟨s.files.drop names, s.events ++ [.orderFileOverwritten path]⟩) := by
  have manual : o.isAuto = false := by simp [Options.isAuto, records]
  have present : s.files.has path = true := by
    rw [FileTree.has, found]
    rfl
  rw [outcome_chooseOrderFile manual given, if_pos present, if_pos records,
    FileTree.remove_eq found]

/-- No other file is touched. -/
theorem chooseOrderFile_files {o : Options} (nothing : ∀ names, ¬ RecordsOver o s.files names) :
    (outcome (chooseOrderFile o) s).2.files = s.files := by
  cases manual : o.isAuto with
  | true =>
      unfold chooseOrderFile
      rw [manual]
      cases o.orderFile <;> rfl
  | false =>
      cases given : o.orderFile with
      | none =>
          unfold chooseOrderFile
          rw [manual, given]
          rfl
      | some path =>
          rw [outcome_chooseOrderFile manual given]
          split
          · split
            · rename_i records
              cases removed : s.files.remove path with
              | error cause => rfl
              | ok after =>
                  rcases FileTree.remove_eq_ok removed with ⟨names, content, found, _⟩
                  exact absurd ⟨records, path, content, given, found⟩ (nothing names)
            · rfl
          · split <;> rfl

/-! ## A start that fails -/

/-- The options ask for an order to be recorded where a file stands, and nothing
speaks against it up to then. -/
structure Replaces (o : Options) (files : FileTree) (names : List String) : Prop
    extends RecordsOver o files names where
  enabled : o.enabled = true
  consistent : o.checkMode = .ok ()
  capable : o.checkDependency = .ok ()

/-- What may go wrong after the old order file is taken away. -/
def FailsLate (o : Options) (host : Host) (fault : Fault) : Prop :=
  (∃ text cause, o.rescheduling = some text ∧ TriggerSet.checkLength text = .error cause ∧
      fault = .config cause) ∨
    ∃ s, Segmentation.ofOptions o = .ok s ∧ Cache.reserve s host = .error fault

/-- Where nothing is replaced, a start that fails leaves the files as they were. -/
theorem files_of_failed_session {o : Options} {host : Host} {now : Moment}
    {elapsed : Nat} (failed : outcome (session o host now elapsed) s = (.error fault, after))
    (nothing : ∀ names, ¬ Replaces o s.files names) : after.files = s.files := by
  rcases outcome_bind_eq_error failed with stopped | ⟨_, _, dependents, started⟩
  · exact (steady_check _).cautious s fault after stopped
  · cases (check_eq_ok dependents).2
    cases enabled : o.enabled with
    | false =>
        rw [enabled, if_neg Bool.false_ne_true] at started
        exact (steady_startPlain o host).cautious s fault after started
    | true =>
        rw [enabled, if_pos rfl, startReordering_eq] at started
        rcases outcome_bind_eq_error started with stopped | ⟨_, _, modes, pastModes⟩
        · exact (steady_check _).cautious s fault after stopped
        · rcases check_eq_ok modes with ⟨consistent, rfl⟩
          rcases outcome_bind_eq_error pastModes with stopped | ⟨_, _, tiers, pastTiers⟩
          · exact (steady_check _).cautious _ fault after stopped
          · rcases check_eq_ok tiers with ⟨capable, rfl⟩
            have same := chooseOrderFile_files fun names recorded =>
              nothing names ⟨recorded, enabled, consistent, capable⟩
            rcases outcome_bind_eq_error pastTiers with stopped | ⟨path, t, chosen, pastChoice⟩
            · rwa [stopped] at same
            · rw [chosen] at same
              have kept := cautious_startChosen o host now elapsed path t fault after pastChoice
              exact kept.trans same

/-- Nothing is carved out of a cache that is not reordered or whose order is recorded. -/
theorem segmentation_of_still {o : Options} (still : (!o.enabled || o.isDump) = true) :
    Segmentation.ofOptions o =
      .ok ⟨Segmentation.activeOf o, Segmentation.requestedCapacity o⟩ := by
  have uncarved : (Segmentation.activeOf o).contains .hot = false := by
    unfold Segmentation.activeOf
    split
    · rfl
    · split
      · rfl
      · dsimp only
        split <;> rfl
  simp only [Segmentation.ofOptions, uncarved, Bool.false_eq_true, if_false]

/-- Outside the automatic mode the schedule is only looked at for its length. -/
theorem outcome_chooseTriggers {o : Options} (manual : o.isAuto = false) (s : State) :
    outcome (chooseTriggers o) s =
      match o.rescheduling with
      | none => (.ok none, s)
      | some text =>
        match TriggerSet.checkLength text with
        | .error cause => (.error (.config cause), s)
        | .ok () => (.ok none, { s with events := s.events ++ [.reschedulingIgnored] }) := by
  unfold chooseTriggers
  cases o.rescheduling with
  | none => rfl
  | some text =>
      dsimp only
      rw [outcome_bind, outcome_check, manual]
      cases TriggerSet.checkLength text <;> rfl

/-- A recording engine makes its first pass where it can write. -/
theorem startEngine_of_writable (o : Options) {engine : Engine} {path : String}
    (recording : engine.recording = true) (dumps : engine.dumpPath = some path)
    (triggers : Option TriggerSet) (now : Moment) (elapsed : Nat)
    (writable : ∀ text, ∃ written, s.files.writeText path text = .ok written) :
    ∃ session t,
      outcome (startEngine o .dump engine triggers now elapsed) s = (.ok session, t) := by
  rcases exists_runWith engine s.files [] elapsed with
    ⟨followed, order, sameMode, samePath, followed_eq⟩
  rcases runPass_of_writable (sameMode.trans recording) (samePath.trans dumps) writable order
    elapsed with ⟨report, ended⟩
  rw [← followed_eq] at ended
  rw [startEngine, outcome_bind, outcome_firstPass, ended]
  dsimp only [Except.map]
  rw [outcome_bind, outcome_get]
  dsimp only
  rw [outcome_startLoop (by simp)]
  exact ⟨_, _, rfl⟩

/-- A start that has taken the old order file away fails for want of a schedule that
can be read or of memory. -/
theorem failsLate_of_startChosen {o : Options} {host : Host} {now : Moment}
    {elapsed : Nat} {path : String} (enabled : o.enabled = true) (records : o.isDump = true)
    (writable : ∀ text, ∃ written, s.files.writeText path text = .ok written)
    (failed : outcome (startChosen o host now elapsed (some path)) s = (.error fault, after)) :
    FailsLate o host fault := by
  have mode : Mode.ofOptions o = .dump := by simp [Mode.ofOptions, enabled, records]
  have manual : o.isAuto = false := by simp [Options.isAuto, records]
  rw [startChosen, mode] at failed
  rcases outcome_bind_eq_error failed with stopped | ⟨triggers, t, chosen, pastTriggers⟩
  · left
    rw [outcome_chooseTriggers manual] at stopped
    cases given : o.rescheduling with
    | none =>
        rw [given] at stopped
        cases stopped
    | some text =>
        rw [given] at stopped
        dsimp only at stopped
        cases checked : TriggerSet.checkLength text with
        | ok passed =>
            rw [checked] at stopped
            cases stopped
        | error cause =>
            rw [checked] at stopped
            cases stopped
            exact ⟨text, cause, rfl, checked, rfl⟩
  · right
    have sameFiles := steady_chooseTriggers o s
    rw [chosen] at sameFiles
    have sized (t : State) : outcome (chooseHeapSize o none) t = (.ok o, t) := by
      rw [chooseHeapSize, records, Bool.or_true, if_pos rfl]
      rfl
    have seedless : chooseSeed .dump (some path) = pure none := rfl
    rw [seedless, outcome_bind, outcome_pure] at pastTriggers
    dsimp only at pastTriggers
    rw [outcome_bind, sized] at pastTriggers
    dsimp only at pastTriggers
    rcases outcome_bind_eq_error pastTriggers with stopped | ⟨cache, u, reserved, pastCache⟩
    · have segmented := segmentation_of_still (o := o) (by rw [records, Bool.or_true])
      rw [reserveCache, segmented, outcome_bind, outcome_check] at stopped
      change outcome (lift (Cache.reserve _ host)) t = _ at stopped
      rw [outcome_lift] at stopped
      exact ⟨_, segmented, congrArg Prod.fst stopped⟩
    · have stillSame := steady_reserveCache o host t
      rw [reserved] at stillSame
      rcases outcome_prepareEngine .dump cache (some path) none u with
        ⟨engine, prepared, recording, dumps, _⟩
      rw [outcome_bind, prepared] at pastCache
      dsimp only at pastCache
      have stillWritable (text : String) :
          ∃ written, u.files.writeText path text = .ok written := by
        rw [stillSame, sameFiles]
        exact writable text
      rcases startEngine_of_writable o (recording.trans rfl) (dumps.trans rfl) triggers now elapsed
        stillWritable with ⟨session, v, ended⟩
      rw [ended] at pastCache
      cases pastCache

/-- Where something is replaced, a start that fails has taken it away. -/
theorem files_of_replaced {o : Options} {host : Host} {now : Moment} {elapsed : Nat}
    {names : List String} (replaces : Replaces o s.files names)
    (failed : outcome (session o host now elapsed) s = (.error fault, after)) :
    after.files = s.files.drop names ∧ FailsLate o host fault := by
  rcases replaces.target with ⟨path, content, given, found⟩
  have independent : o.checkDependents = .ok () := by
    rw [Options.checkDependents, if_pos replaces.enabled]
  have passes (result : Except ConfigError Unit) (passed : result = .ok ()) (t : State) :
      outcome (check result) t = (.ok (), t) := by
    rw [passed]
    rfl
  rw [session, outcome_bind, passes _ independent] at failed
  dsimp only at failed
  rw [if_pos replaces.enabled, startReordering_eq, outcome_bind,
    passes _ replaces.consistent] at failed
  dsimp only at failed
  rw [outcome_bind, passes _ replaces.capable] at failed
  dsimp only at failed
  rw [outcome_bind, outcome_chooseOrderFile_of_file replaces.records given found] at failed
  dsimp only at failed
  constructor
  · exact cautious_startChosen o host now elapsed (some path) _ fault after failed
  · apply failsLate_of_startChosen replaces.enabled replaces.records _ failed
    intro text
    exact ⟨_, FileTree.writeText_drop found text⟩

/-- A start that fails keeps every file with its content, unless a file stands where
an order is to be recorded: that file is lost, and only that one. -/
theorem kept_of_failed_run {o : Options} {host : Host} {now : Moment} {elapsed : Nat}
    {files : FileTree} (failed : run (session o host now elapsed) files = (.error fault, after)) :
    (files.Keeps after.files ↔ ¬ ∃ names, Replaces o files names) ∧
      ∀ names, Replaces o files names → FailsLate o host fault ∧
        ∀ path place node, files.find path = .ok (place, node) → place ≠ names →
          after.files.find path = .ok (place, node) := by
  constructor
  · constructor
    · rintro keeps ⟨names, replaces⟩
      rcases replaces.target with ⟨path, content, _, found⟩
      rw [(files_of_replaced replaces failed).1] at keeps
      exact FileTree.not_keeps_drop found keeps
    · intro nothing path content isRead
      rw [files_of_failed_session failed fun names replaces => nothing ⟨names, replaces⟩]
      exact isRead
  · intro names replaces
    rcases files_of_replaced replaces failed with ⟨dropped, late⟩
    refine ⟨late, ?_⟩
    intro path place node found other
    rcases replaces.target with ⟨_, content, _, target⟩
    rcases FileTree.find_eq_ok target with ⟨_, _, _, isFile, _⟩
    rw [dropped]
    exact FileTree.find_drop_of_ne isFile found other

/-! ## A lost order -/

/-- Record an order, with a schedule that is given and empty. -/
def emptySchedule : Options :=
  { Options.default with
    enabled := true
    dumpMode := some true
    orderFile := some "app.order"
    rescheduling := some "" }

/-- A host that puts everything at its first address. -/
def emptyHost : Host := .ofBase fun _ => 0

/-- An order from an earlier run. -/
def earlierOrder : FileTree :=
  ⟨[(["app.order"], .file "M 64 Main first ()V\n".toUTF8)]⟩

/-- What the start leaves behind. -/
def withoutOrder : State where
  files := earlierOrder.drop ["app.order"]
  events := [.orderFileOverwritten "app.order"]

theorem run_emptySchedule :
    run (session emptySchedule emptyHost ⟨0, 0⟩ 0) earlierOrder =
      (.error (.config .scheduleEmpty), withoutOrder) :=
  rfl

theorem kept_emptySchedule :
    run (session emptySchedule emptyHost ⟨0, 0⟩ 0) earlierOrder =
        (.error (.config .scheduleEmpty), withoutOrder) ∧
      (earlierOrder.Keeps withoutOrder.files ↔
        ¬ ∃ names, Replaces emptySchedule earlierOrder names) ∧
      ∀ names, Replaces emptySchedule earlierOrder names →
        FailsLate emptySchedule emptyHost (.config .scheduleEmpty) ∧
        ∀ path place node, earlierOrder.find path = .ok (place, node) → place ≠ names →
          withoutOrder.files.find path = .ok (place, node) :=
  ⟨run_emptySchedule, kept_of_failed_run run_emptySchedule⟩

/-- A start that fails may lose a file. -/
theorem not_kept :
    ∃ fault after,
      run (session emptySchedule emptyHost ⟨0, 0⟩ 0) earlierOrder = (.error fault, after) ∧
        ¬ earlierOrder.Keeps after.files := by
  have found : earlierOrder.find "app.order" =
      .ok (["app.order"], .file "M 64 Main first ()V\n".toUTF8) := rfl
  exact ⟨_, _, run_emptySchedule, FileTree.not_keeps_drop found⟩

end CodeLayout.Startup
