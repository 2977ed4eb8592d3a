import CodeLayout.Proofs.Order.Lines
import CodeLayout.Proofs.Startup.Files
import CodeLayout.Proofs.Time.Triggers

/-!
# Checks of the start

Each check of the start is a question about the options, the addresses of the heaps
and the files as they are before the start.  The checks stand in an order.  A step of
the start makes some of them: it fails with the fault of the first one that is not
passed, and steps in sequence make the checks of one after those of the other.
-/

namespace CodeLayout.Startup

/-- The fault that a result is. -/
def faultOf? {α : Type} : Except Fault α → Option Fault
  | .error fault => some fault
  | .ok _ => none

/-- The order to load, if there is one that can be read. -/
def loadedOrder? (o : Options) (files : FileTree) : Option Order :=
  if o.isLoad then
    o.orderFile.bind fun path =>
      (files.readText path).toOption.bind fun text => (Order.parse text.toList).toOption
  else none

/-- The options with the size of the managed partitions, which is fitted to the order to
load if it is not given. -/
def sized (o : Options) (files : FileTree) : Options :=
  if o.hotHeapSize.isSome || o.isDump then o
  else match loadedOrder? o files with
    | some order => { o with hotHeapSize := some (UInt64.ofNat (fittedSize order)) }
    | none => o

/-- The files without an old order in the place of the one to record. -/
def cleared (o : Options) (files : FileTree) : FileTree :=
  if o.isDump then (o.orderFile.bind fun path => (files.remove path).toOption).getD files
  else files

/-- The checks of a start with reordering. -/
inductive Check where
  /-- Outside the automatic mode an order file is given. -/
  | orderFileGiven
  /-- What stands where an order is to be recorded can be removed. -/
  | orderFileRemovable
  /-- There is something to load. -/
  | orderFilePresent
  /-- The text of the times is neither empty nor too long. -/
  | scheduleLength
  /-- In the automatic mode every token of the text is a time. -/
  | scheduleTimes
  /-- The order to load is in a file that can be read as text. -/
  | orderReadable
  /-- No line of it is faulty. -/
  | orderLines
  /-- A size that is fitted to it would be a size. -/
  | orderFits
  /-- The size of the managed partitions is aligned. -/
  | heapAligned
  /-- Two of them can be counted in a word. -/
  | heapCountable
  /-- They leave something of the non-profiled partition. -/
  | heapSpace
  /-- The heaps can be reserved. -/
  | memory
  /-- The order of the first pass can be written. -/
  | recording
deriving DecidableEq, Repr

namespace Check

/-- In the order in which they are made. -/
def all : List Check :=
  [orderFileGiven, orderFileRemovable, orderFilePresent, scheduleLength, scheduleTimes,
    orderReadable, orderLines, orderFits, heapAligned, heapCountable, heapSpace, memory,
    recording]

/-- What a check that is not passed says. -/
def fault? (o : Options) (host : Host) (files : FileTree) : Check → Option Fault
  | orderFileGiven =>
    if !o.isAuto && o.orderFile.isNone then some (.config .orderFileUnset) else none
  | orderFileRemovable =>
    if o.isDump then
      o.orderFile.bind fun path =>
        if files.has path then faultOf? ((files.remove path).mapError .file) else none
    else none
  | orderFilePresent =>
    if o.isLoad then
      o.orderFile.bind fun path =>
        if files.has path then none else some (.config (.orderFileInaccessible path))
    else none
  | scheduleLength =>
    o.rescheduling.bind fun text =>
      if text.isEmpty then some (.config .scheduleEmpty)
      else if TriggerSet.longestText < text.utf8ByteSize then some (.config .scheduleTooLong)
      else none
  | scheduleTimes =>
    if o.isAuto then
      o.rescheduling.bind fun text =>
        (TriggerSet.tokenFault? (TriggerSet.tokens text)).map .config
    else none
  | orderReadable =>
    if o.isLoad then
      o.orderFile.bind fun path =>
        if (files.readText path).isOk then none else some (.config (.orderFileInaccessible path))
    else none
  | orderLines =>
    if o.isLoad then
      o.orderFile.bind fun path =>
        (files.readText path).toOption.bind fun text =>
          (Order.firstFault? (Order.linesOf text.toList)).map Order.ParseError.toFault
    else none
  | orderFits =>
    if o.hotHeapSize.isNone then
      (loadedOrder? o files).bind fun order =>
        if Size.largest - Size.heapAlignment < order.paddedSize then
          some (.config (.heapTooLarge order.paddedSize))
        else none
    else none
  | heapAligned =>
    if !o.isDump && (sized o files).hotHeap % Size.heapAlignment ≠ 0 then
      some (.config (.unalignedHeap Size.heapAlignment))
    else none
  | heapCountable =>
    if !o.isDump && Size.wordLimit ≤ 2 * (sized o files).hotHeap then
      some (.config (.heapTooLarge (sized o files).hotHeap))
    else none
  | heapSpace =>
    if !o.isDump && o.nonProfiledSize.toNat ≤ 2 * (sized o files).hotHeap then
      some (.config (.notEnoughSpace (o.nonProfiledSize.toNat / Size.kib)
        (2 * (sized o files).hotHeap / Size.kib)))
    else none
  | memory =>
    match Segmentation.ofOptions (sized o files) with
    | .ok s => faultOf? (Cache.reserve s host)
    | .error _ => none
  | recording =>
    if o.isDump then
      o.orderFile.bind fun path =>
        faultOf? (((cleared o files).writeText path "").mapError .file)
    else none

end Check

variable {α β : Type} {o : Options} {host : Host} {files : FileTree}
  {x : Startup α} {f : α → Startup β} {s : State} {checks others : List Check}

/-- A step makes some checks: it fails with the fault of the first one that is not
passed, and what is known after it is known if all are. -/
def Makes (o : Options) (host : Host) (files : FileTree) (checks : List Check)
    (x : Startup α) (s : State) (known : α → State → Prop) : Prop :=
  match outcome x s with
  | (.error fault, _) => checks.findSome? (Check.fault? o host files) = some fault
  | (.ok value, after) => checks.findSome? (Check.fault? o host files) = none ∧ known value after

theorem Makes.fails {known : α → State → Prop} {fault : Fault} {after : State}
    (ran : outcome x s = (.error fault, after))
    (missed : checks.findSome? (Check.fault? o host files) = some fault) :
    Makes o host files checks x s known := by
  rw [Makes, ran]
  exact missed

theorem Makes.passes {known : α → State → Prop} {value : α} {after : State}
    (ran : outcome x s = (.ok value, after))
    (passed : checks.findSome? (Check.fault? o host files) = none) (isKnown : known value after) :
    Makes o host files checks x s known := by
  rw [Makes, ran]
  exact ⟨passed, isKnown⟩

/-- Steps in sequence make the checks of the first and then those of the others. -/
theorem Makes.bind {known : α → State → Prop} {knownAfter : β → State → Prop}
    (first : Makes o host files checks x s known)
    (next : ∀ value t, known value t → Makes o host files others (f value) t knownAfter) :
    Makes o host files (checks ++ others) (x >>= f) s knownAfter := by
  rw [Makes, outcome_bind, List.findSome?_append]
  rcases ran : outcome x s with ⟨result, t⟩
  rw [Makes, ran] at first
  cases result with
  | error fault =>
      dsimp only at first ⊢
      rw [first]
      rfl
  | ok value =>
      dsimp only at first ⊢
      rw [first.1]
      exact next value t first.2

theorem outcome_check_of_error {result : Except ConfigError Unit} {cause : ConfigError}
    (refused : result = .error cause) (next : Unit → Startup β) (s : State) :
    outcome (check result >>= next) s = (.error (.config cause), s) := by
  rw [outcome_bind, outcome_check, refused]
  rfl

theorem outcome_check_of_ok {result : Except ConfigError Unit} (accepted : result = .ok ())
    (next : Unit → Startup β) (s : State) :
    outcome (check result >>= next) s = outcome (next ()) s := by
  rw [outcome_bind, outcome_check, accepted]
  rfl

/-- What the options alone decide is no check. -/
theorem Makes.of_check {result : Except ConfigError Unit} {next : Unit → Startup β}
    {known : β → State → Prop} (accepted : result = .ok ())
    (makes : Makes o host files checks (next ()) s known) :
    Makes o host files checks (check result >>= next) s known := by
  rw [Makes, outcome_check_of_ok accepted]
  exact makes

/-! ## The checks of each step -/

/-- The path of the order file, in the modes that use one. -/
def usedPath? (o : Options) : Option String :=
  if o.isAuto then none else o.orderFile

/-- Nothing is removed where nothing stands. -/
theorem toOption_remove_of_absent {path : String} (absent : files.has path = false) :
    (files.remove path).toOption = none := by
  rcases found : files.find path with cause | place
  · simp [FileTree.remove, found, bind, Except.bind, Except.toOption]
  · simp [FileTree.has, found, Except.isOk, Except.toBool] at absent

/-- In the automatic mode no order file is used. -/
theorem makes_chooseOrderFile_of_auto (automatic : o.isAuto = true) (events : List Event) :
    Makes o host files [.orderFileGiven, .orderFileRemovable, .orderFilePresent]
      (chooseOrderFile o) ⟨files, events⟩
      fun path t => path = usedPath? o ∧ (o.isAuto = false → path ≠ none) ∧
        t.files = cleared o files := by
  have manual : o.isDump = false ∧ o.isLoad = false := by
    simpa [Options.isAuto] using automatic
  have ran : ∃ t, outcome (chooseOrderFile o) ⟨files, events⟩ = (.ok none, t) ∧
      t.files = files := by
    unfold chooseOrderFile
    rw [automatic]
    cases o.orderFile <;> exact ⟨_, rfl, rfl⟩
  rcases ran with ⟨t, ran, same⟩
  refine Makes.passes ran ?_ ⟨?_, ?_, ?_⟩
  · simp [Check.fault?, automatic, manual]
  · simp [usedPath?, automatic]
  · simp [automatic]
  · simp [cleared, manual, same]

/-- In the other modes a path is needed, and what stands there. -/
theorem makes_chooseOrderFile_of_given {path : String} (manual : o.isAuto = false)
    (given : o.orderFile = some path) (events : List Event) :
    Makes o host files [.orderFileGiven, .orderFileRemovable, .orderFilePresent]
      (chooseOrderFile o) ⟨files, events⟩
      fun chosen t => chosen = usedPath? o ∧ (o.isAuto = false → chosen ≠ none) ∧
        t.files = cleared o files := by
  have used : some path = usedPath? o := by simp [usedPath?, manual, given]
  have ran := outcome_chooseOrderFile manual given ⟨files, events⟩
  dsimp only at ran
  cases present : files.has path with
  | true =>
      rw [present, if_pos rfl] at ran
      cases records : o.isDump with
      | true =>
          rw [records, if_pos rfl] at ran
          cases removed : files.remove path with
          | ok after =>
              rw [removed] at ran
              refine Makes.passes ran ?_ ⟨used, by simp, ?_⟩
              · simp [Check.fault?, manual, given, records, present, removed, faultOf?,
                  Except.mapError]
              · simp [cleared, given, records, removed, Except.toOption]
          | error cause =>
              rw [removed] at ran
              refine Makes.fails ran ?_
              simp [Check.fault?, manual, given, records, present, removed, faultOf?,
                Except.mapError]
      | false =>
          rw [records] at ran
          refine Makes.passes ran ?_ ⟨used, by simp, ?_⟩
          · simp [Check.fault?, manual, given, records, present]
          · simp [cleared, records]
  | false =>
      rw [present] at ran
      cases loads : o.isLoad with
      | true =>
          rw [loads] at ran
          refine Makes.fails ran ?_
          simp [Check.fault?, manual, given, loads, present]
      | false =>
          rw [loads] at ran
          refine Makes.passes ran ?_ ⟨used, by simp, ?_⟩
          · simp [Check.fault?, manual, given, loads, present]
          · simp [cleared, given, toOption_remove_of_absent present]

theorem makes_chooseOrderFile (events : List Event) :
    Makes o host files [.orderFileGiven, .orderFileRemovable, .orderFilePresent]
      (chooseOrderFile o) ⟨files, events⟩
      fun path t => path = usedPath? o ∧ (o.isAuto = false → path ≠ none) ∧
        t.files = cleared o files := by
  rcases Bool.eq_false_or_eq_true o.isAuto with automatic | manual
  · exact makes_chooseOrderFile_of_auto automatic events
  · cases given : o.orderFile with
    | some path => exact makes_chooseOrderFile_of_given manual given events
    | none =>
        have ran : outcome (chooseOrderFile o) ⟨files, events⟩ =
            (.error (.config .orderFileUnset), ⟨files, events⟩) := by
          unfold chooseOrderFile
          rw [manual, given]
          rfl
        refine Makes.fails ran ?_
        simp [Check.fault?, manual, given]

theorem fault?_scheduleLength {text : String} (given : o.rescheduling = some text)
    (host : Host) (files : FileTree) :
    Check.fault? o host files .scheduleLength =
      faultOf? ((TriggerSet.checkLength text).mapError .config) := by
  simp only [Check.fault?, given, Option.bind_some, TriggerSet.checkLength]
  split
  · rfl
  · split <;> rfl

/-- In the automatic mode the schedule is read. -/
theorem outcome_chooseTriggers_of_auto {text : String} (automatic : o.isAuto = true)
    (given : o.rescheduling = some text) (s : State) :
    outcome (chooseTriggers o) s =
      match TriggerSet.checkLength text with
      | .error cause => (.error (.config cause), s)
      | .ok () =>
        ((TriggerSet.parse text).1.mapError .config |>.map some,
          { s with events := s.events ++ (TriggerSet.parse text).2 }) := by
  unfold chooseTriggers
  rw [given]
  dsimp only
  rw [outcome_bind, outcome_check, automatic]
  cases TriggerSet.checkLength text with
  | error cause => rfl
  | ok passed =>
      rcases TriggerSet.parse text with ⟨result, events⟩
      cases result <;> rfl

theorem makes_chooseTriggers_of_auto {text : String} (automatic : o.isAuto = true)
    (given : o.rescheduling = some text) (s : State) :
    Makes o host files [.scheduleLength, .scheduleTimes] (chooseTriggers o) s
      fun _ t => t.files = s.files := by
  have length := fault?_scheduleLength given host files
  have times : Check.fault? o host files .scheduleTimes =
      (TriggerSet.tokenFault? (TriggerSet.tokens text)).map .config := by
    simp [Check.fault?, automatic, given]
  have ran := outcome_chooseTriggers_of_auto automatic given s
  cases checked : TriggerSet.checkLength text with
  | error cause =>
      rw [checked] at ran length
      refine Makes.fails ran ?_
      simp [length, faultOf?, Except.mapError]
  | ok passed =>
      rw [checked] at ran length
      dsimp only at ran
      cases parsed : (TriggerSet.parse text).1 with
      | error cause =>
          have faulty := (TriggerSet.parse_eq_error_iff checked).mp parsed
          rw [parsed] at ran
          refine Makes.fails ran ?_
          simp [length, times, faulty, faultOf?, Except.mapError]
      | ok set =>
          have sound := TriggerSet.tokenFault?_of_parse checked parsed
          rw [parsed] at ran
          refine Makes.passes ran ?_ rfl
          simp [length, times, sound, faultOf?, Except.mapError]

theorem makes_chooseTriggers (s : State) :
    Makes o host files [.scheduleLength, .scheduleTimes] (chooseTriggers o) s
      fun _ t => t.files = s.files := by
  cases given : o.rescheduling with
  | none =>
      have ran : outcome (chooseTriggers o) s = (.ok none, s) := by
        unfold chooseTriggers
        rw [given]
        rfl
      refine Makes.passes ran ?_ rfl
      simp [Check.fault?, given]
  | some text =>
      cases automatic : o.isAuto with
      | true => exact makes_chooseTriggers_of_auto automatic given s
      | false =>
          have length := fault?_scheduleLength given host files
          have times : Check.fault? o host files .scheduleTimes = none := by
            simp [Check.fault?, automatic]
          have ran := outcome_chooseTriggers automatic s
          rw [given] at ran
          dsimp only at ran
          cases checked : TriggerSet.checkLength text with
          | error cause =>
              rw [checked] at ran length
              refine Makes.fails ran ?_
              simp [length, faultOf?, Except.mapError]
          | ok passed =>
              rw [checked] at ran length
              refine Makes.passes ran ?_ rfl
              simp [length, times, faultOf?, Except.mapError]

theorem outcome_loadOrder (path : String) (s : State) :
    outcome (loadOrder path) s =
      match s.files.readText path with
      | .error _ => (.error (.config (.orderFileInaccessible path)), s)
      | .ok text =>
        match Order.parse text.toList with
        | .error cause => (.error cause.toFault, s)
        | .ok order =>
          (.ok order, { s with events := s.events ++ [.orderLoaded path order.size] }) := by
  unfold loadOrder
  rw [outcome_bind, outcome_get]
  dsimp only
  cases s.files.readText path with
  | error cause => rfl
  | ok text =>
      dsimp only
      cases Order.parse text.toList <;> rfl

theorem outcome_map (f : α → β) (x : Startup α) (s : State) :
    outcome (ExceptT.map f x) s = ((outcome x s).1.map f, (outcome x s).2) := by
  change outcome (x >>= fun value => pure (f value)) s = _
  rw [outcome_bind]
  rcases outcome x s with ⟨result, t⟩
  cases result <;> rfl

theorem makes_loadOrder {path : String} (loads : o.isLoad = true)
    (given : o.orderFile = some path) (events : List Event) :
    Makes o host files [.orderReadable, .orderLines] ((loadOrder path).map some)
      ⟨files, events⟩ fun seed t => seed = loadedOrder? o files ∧ t.files = files := by
  have ran := outcome_map some (loadOrder path) ⟨files, events⟩
  rw [outcome_loadOrder] at ran
  dsimp only at ran
  cases isRead : files.readText path with
  | error cause =>
      rw [isRead] at ran
      refine Makes.fails ran ?_
      simp [Check.fault?, loads, given, isRead, Except.isOk, Except.toBool]
  | ok text =>
      rw [isRead] at ran
      dsimp only at ran
      have readable : Check.fault? o host files .orderReadable = none := by
        simp [Check.fault?, loads, given, isRead, Except.isOk, Except.toBool]
      have lines : Check.fault? o host files .orderLines =
          (Order.firstFault? (Order.linesOf text.toList)).map Order.ParseError.toFault := by
        simp [Check.fault?, loads, given, isRead, Except.toOption]
      cases parsed : Order.parse text.toList with
      | error cause =>
          have faulty := Order.parse_eq_error_iff.mp parsed
          rw [parsed] at ran
          refine Makes.fails ran ?_
          simp [readable, lines, faulty]
      | ok order =>
          have sound := Order.firstFault?_of_parse parsed
          rw [parsed] at ran
          refine Makes.passes ran ?_ ⟨?_, rfl⟩
          · simp [readable, lines, sound]
          · simp [loadedOrder?, loads, given, isRead, parsed, Except.toOption]

/-- In the load mode an order is read. -/
theorem makes_chooseSeed (enabled : o.enabled = true) (consistent : o.checkMode = .ok ())
    (used : o.isAuto = false → usedPath? o ≠ none) (events : List Event) :
    Makes o host files [.orderReadable, .orderLines]
      (chooseSeed (Mode.ofOptions o) (usedPath? o)) ⟨cleared o files, events⟩
      fun seed t => seed = loadedOrder? o files ∧ t.files = cleared o files := by
  cases loads : o.isLoad with
  | false =>
      have other : chooseSeed (Mode.ofOptions o) (usedPath? o) = pure none := by
        unfold chooseSeed
        split
        · rename_i mode _
          simp only [Mode.ofOptions, enabled, loads, Bool.not_true, Bool.false_eq_true,
            if_false] at mode
          split at mode <;> contradiction
        · rfl
      rw [other]
      refine Makes.passes (outcome_pure _ _) ?_ ⟨?_, rfl⟩
      · simp [Check.fault?, loads]
      · simp [loadedOrder?, loads]
  | true =>
      have plays : o.isDump = false := by
        rw [Options.checkMode, loads, Bool.and_true] at consistent
        split at consistent
        · contradiction
        · rename_i plays
          simpa using plays
      have manual : o.isAuto = false := by simp [Options.isAuto, loads]
      rcases Option.ne_none_iff_exists'.mp (used manual) with ⟨path, isUsed⟩
      have given : o.orderFile = some path := by simpa [usedPath?, manual] using isUsed
      have reads : chooseSeed (Mode.ofOptions o) (usedPath? o) = (loadOrder path).map some := by
        simp [chooseSeed, Mode.ofOptions, enabled, plays, loads, isUsed]
      have same : cleared o files = files := by simp [cleared, plays]
      rw [reads, same]
      exact makes_loadOrder loads given events

theorem not_isLoad_of_isDump (consistent : o.checkMode = .ok ()) (records : o.isDump = true) :
    o.isLoad = false := by
  cases loads : o.isLoad with
  | false => rfl
  | true =>
      rw [Options.checkMode, records, loads] at consistent
      contradiction

theorem makes_chooseHeapSize (consistent : o.checkMode = .ok ()) (s : State) :
    Makes o host files [.orderFits] (chooseHeapSize o (loadedOrder? o files)) s
      fun chosen t => chosen = sized o files ∧ t.files = s.files := by
  unfold chooseHeapSize
  cases settled : o.hotHeapSize.isSome || o.isDump with
  | true =>
      rw [if_pos rfl]
      refine Makes.passes (outcome_pure _ _) ?_ ⟨by rw [sized, settled, if_pos rfl], rfl⟩
      rcases Bool.or_eq_true_iff.mp settled with given | records
      · simp [Check.fault?, Option.isSome_iff_ne_none.mp given]
      · simp [Check.fault?, loadedOrder?, not_isLoad_of_isDump consistent records]
  | false =>
      have missing : o.hotHeapSize.isNone = true := by
        simpa using (Bool.or_eq_false_iff.mp settled).1
      rw [if_neg Bool.false_ne_true]
      cases loaded : loadedOrder? o files with
      | none =>
          refine Makes.passes rfl ?_ ⟨by rw [sized, settled, loaded]; rfl, rfl⟩
          simp [Check.fault?, loaded]
      | some order =>
          dsimp only
          by_cases tooLarge : Size.largest - Size.heapAlignment < order.paddedSize
          · rw [if_pos tooLarge]
            refine Makes.fails rfl ?_
            simp [Check.fault?, missing, loaded, tooLarge]
          · rw [if_neg tooLarge]
            refine Makes.passes rfl ?_ ⟨by rw [sized, settled, loaded]; rfl, rfl⟩
            simp [Check.fault?, loaded, tooLarge]

/-! ## The partitions -/

/-- The size of the managed partitions is all that is chosen. -/
theorem exists_sized (o : Options) (files : FileTree) :
    ∃ size, sized o files = { o with hotHeapSize := size } := by
  rw [sized]
  split
  · exact ⟨o.hotHeapSize, rfl⟩
  · split
    · exact ⟨_, rfl⟩
    · exact ⟨o.hotHeapSize, rfl⟩

@[simp]
theorem sized_isDump (o : Options) (files : FileTree) :
    (sized o files).isDump = o.isDump := by
  rcases exists_sized o files with ⟨size, isSized⟩
  rw [isSized]
  rfl

@[simp]
theorem sized_enabled (o : Options) (files : FileTree) :
    (sized o files).enabled = o.enabled := by
  rcases exists_sized o files with ⟨size, isSized⟩
  rw [isSized]

@[simp]
theorem sized_checkDependency (o : Options) (files : FileTree) :
    (sized o files).checkDependency = o.checkDependency := by
  rcases exists_sized o files with ⟨size, isSized⟩
  rw [isSized]
  rfl

@[simp]
theorem sized_nonProfiledSize (o : Options) (files : FileTree) :
    (sized o files).nonProfiledSize = o.nonProfiledSize := by
  rcases exists_sized o files with ⟨size, isSized⟩
  rw [isSized]

/-- With reordering there are managed partitions, unless an order is recorded. -/
theorem activeOf_contains_hot (enabled : o.enabled = true) (capable : o.checkDependency = .ok ())
    (plays : o.isDump = false) : (Segmentation.activeOf o).contains .hot = true := by
  have requirements : o.hasTopTier = true ∧ o.segmented = true := by
    rw [Options.checkDependency] at capable
    split at capable
    · contradiction
    · split at capable
      · contradiction
      · rename_i topTier segmented
        exact ⟨by simpa using topTier, by simpa using segmented⟩
  have compiles : o.interpreterOnly = false := by
    have topTier := requirements.1
    rw [Options.hasTopTier, Bool.and_eq_true] at topTier
    simpa using topTier.1
  simp only [Segmentation.activeOf, requirements.2, compiles, enabled, plays, Bool.not_true,
    Bool.or_self, Bool.false_eq_true, if_false]
  split <;> rfl

theorem segmentation_of_moving (enabled : o.enabled = true) (capable : o.checkDependency = .ok ())
    (plays : o.isDump = false) :
    Segmentation.ofOptions o =
      (Segmentation.carve o.nonProfiledSize.toNat o.hotHeap).map fun remaining =>
        ⟨Segmentation.activeOf o, fun p =>
          if p = .nonProfiled then remaining else Segmentation.requestedCapacity o p⟩ := by
  simp only [Segmentation.ofOptions, activeOf_contains_hot enabled capable plays, if_true]

theorem outcome_reserveCache (o : Options) (host : Host) (s : State) :
    outcome (reserveCache o host) s =
      (match Segmentation.ofOptions o with
        | .error cause => .error (.config cause)
        | .ok segmentation => Cache.reserve segmentation host, s) := by
  unfold reserveCache
  rw [outcome_bind, outcome_check]
  cases Segmentation.ofOptions o with
  | error cause => rfl
  | ok segmentation => exact outcome_lift _ s

/-- The cache that the options call for once the size of the managed partitions is chosen. -/
def IsReserved (o : Options) (host : Host) (files : FileTree) (cache : Cache) : Prop :=
  ∃ segmentation, Segmentation.ofOptions (sized o files) = .ok segmentation ∧
    Cache.reserve segmentation host = .ok cache

theorem makes_reserve {segmentation : Segmentation}
    (segmented : Segmentation.ofOptions (sized o files) = .ok segmentation) (s : State) :
    Makes o host files [.memory] (reserveCache (sized o files) host) s
      fun cache t => IsReserved o host files cache ∧ t.files = s.files := by
  have ran := outcome_reserveCache (sized o files) host s
  have memory : Check.fault? o host files .memory = faultOf? (Cache.reserve segmentation host) := by
    simp only [Check.fault?, segmented]
  rw [segmented] at ran
  dsimp only at ran
  cases reserved : Cache.reserve segmentation host with
  | error fault =>
      rw [reserved] at ran memory
      refine Makes.fails ran ?_
      simp [memory, faultOf?]
  | ok cache =>
      rw [reserved] at ran memory
      refine Makes.passes ran ?_ ⟨⟨segmentation, segmented, reserved⟩, rfl⟩
      simp [memory, faultOf?]

/-- A step that makes further checks after some that are passed makes all of them. -/
theorem Makes.prepend {known : α → State → Prop}
    (passed : others.findSome? (Check.fault? o host files) = none)
    (makes : Makes o host files checks x s known) :
    Makes o host files (others ++ checks) x s known := by
  rw [Makes, List.findSome?_append, passed]
  exact makes

theorem makes_reserveCache (enabled : o.enabled = true) (capable : o.checkDependency = .ok ())
    (s : State) :
    Makes o host files [.heapAligned, .heapCountable, .heapSpace, .memory]
      (reserveCache (sized o files) host) s
      fun cache t => IsReserved o host files cache ∧ t.files = s.files := by
  cases plays : o.isDump with
  | true =>
      have still : (!(sized o files).enabled || (sized o files).isDump) = true := by
        rw [sized_isDump, plays, Bool.or_true]
      have passed : [.heapAligned, .heapCountable, .heapSpace].findSome?
          (Check.fault? o host files) = none := by simp [Check.fault?, plays]
      exact (makes_reserve (segmentation_of_still still) s).prepend passed
  | false =>
      have carved := segmentation_of_moving ((sized_enabled o files).trans enabled)
        ((sized_checkDependency o files).trans capable) ((sized_isDump o files).trans plays)
      have ran := outcome_reserveCache (sized o files) host s
      rw [sized_nonProfiledSize, Segmentation.carve] at carved
      by_cases unaligned : (sized o files).hotHeap % Size.heapAlignment ≠ 0
      · rw [if_pos unaligned] at carved
        rw [carved] at ran
        refine Makes.fails ran ?_
        simp [Check.fault?, plays, unaligned]
      · rw [if_neg unaligned] at carved
        by_cases uncountable : Size.wordLimit ≤ 2 * (sized o files).hotHeap
        · rw [if_pos uncountable] at carved
          rw [carved] at ran
          refine Makes.fails ran ?_
          simp [Check.fault?, plays, unaligned, uncountable]
        · rw [if_neg uncountable] at carved
          by_cases cramped : o.nonProfiledSize.toNat ≤ 2 * (sized o files).hotHeap
          · rw [if_pos cramped] at carved
            rw [carved] at ran
            refine Makes.fails ran ?_
            simp [Check.fault?, plays, unaligned, uncountable, cramped]
          · rw [if_neg cramped] at carved
            have passed : [.heapAligned, .heapCountable, .heapSpace].findSome?
                (Check.fault? o host files) = none := by
              simp [Check.fault?, plays, unaligned, uncountable, cramped]
            exact (makes_reserve carved s).prepend passed

end CodeLayout.Startup
