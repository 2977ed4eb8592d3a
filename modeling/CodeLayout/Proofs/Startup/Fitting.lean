import CodeLayout.Proofs.Engine.Gathering
import CodeLayout.Proofs.Startup.Precedence

/-!
# Fitting the partitions to an order

In the load mode the size of the managed partitions may be left to the start.  It is then
fitted to the order that is loaded: the bytes of all listed methods, each padded as in a
heap, rounded up to whole granules.  If the start succeeds, neither the sum nor the
rounding has left the word, and the hot partition gathers the methods of the order.
-/

namespace CodeLayout

/-! ## The fitted size -/

/-- The bytes of an order are counted up to the largest word. -/
theorem Order.paddedSize_eq (order : Order) :
    order.paddedSize = min order.bytes (Size.wordLimit - 1) := by
  have counted (entries : List (Method × Nat)) (total : Nat) :
      entries.foldl (fun total entry => min (total + Size.padded entry.2) (Size.wordLimit - 1))
          (min total (Size.wordLimit - 1)) =
        min (total + (entries.map fun entry => Size.padded entry.2).sum) (Size.wordLimit - 1) := by
    induction entries generalizing total with
    | nil => rfl
    | cons entry rest inductionHypothesis =>
        have capped : min (min total (Size.wordLimit - 1) + Size.padded entry.2)
            (Size.wordLimit - 1) = min (total + Size.padded entry.2) (Size.wordLimit - 1) := by
          omega
        rw [List.foldl_cons, capped, inductionHypothesis, List.map_cons, List.sum_cons,
          Nat.add_assoc]
  have all := counted order.methods 0
  rw [Nat.zero_min, Nat.zero_add] at all
  exact all

namespace Startup

variable {o : Options} {host : Host} {files : FileTree} {now : Moment} {elapsed : Nat}
  {s : Session} {after : State} {order : Order} {cache : Cache}

/-- A size that is fitted to an order holds it and is made of whole granules. -/
theorem bytes_le_fittedSize (small : order.paddedSize ≤ Size.largest - Size.heapAlignment) :
    order.bytes ≤ fittedSize order ∧ Size.heapAlignment ∣ fittedSize order ∧
      fittedSize order < Size.wordLimit := by
  have padded := order.paddedSize_eq
  have short : order.paddedSize + Size.heapAlignment ≤ Size.wordLimit := by
    simp only [Size.largest, Size.heapAlignment, Size.kib, Size.wordLimit,
      Nat.reduceShiftLeft] at small ⊢
    omega
  rw [fittedSize, Size.alignUp_heapAlignment short]
  simp only [Size.largest, Size.heapAlignment, Size.kib, Size.wordLimit,
    Nat.reduceShiftLeft] at small padded ⊢
  omega

/-! ## A start that succeeds -/

/-- A start that succeeds in the load mode has passed all checks of a start with
reordering. -/
theorem passed_of_run (loads : o.isLoad = true)
    (ran : run (session o host now elapsed) files = (.ok s, after)) :
    o.enabled = true ∧ o.checkMode = .ok () ∧ o.checkDependency = .ok () ∧
      Check.all.findSome? (Check.fault? o host files) = none ∧ Starts o host files elapsed s := by
  change outcome (session o host now elapsed) ⟨files, []⟩ = _ at ran
  rcases outcome_session o host now elapsed ⟨files, []⟩ with
    ⟨cause, _, isOutcome⟩ | ⟨_, ⟨switch, consistent, capable, isOutcome⟩ | ⟨switch, independent, _⟩⟩
  · rw [isOutcome] at ran
    cases ran
  · have makes : Makes o host files Check.all _ _ _ :=
      makes_startReordering switch consistent capable now elapsed
    rw [Makes, ← isOutcome, ran] at makes
    exact ⟨switch, consistent, capable, makes⟩
  · rw [isLoad_of_disabled switch independent] at loads
    contradiction

/-- The checks of the load mode are passed only with an order file that can be read. -/
theorem exists_loadedOrder (loads : o.isLoad = true)
    (passed : Check.all.findSome? (Check.fault? o host files) = none) :
    ∃ path text order, o.orderFile = some path ∧ files.readText path = .ok text ∧
      Order.parse text.toList = .ok order ∧ loadedOrder? o files = some order := by
  have check := List.findSome?_eq_none_iff.mp passed
  have given := check .orderFileGiven (by decide)
  have readable := check .orderReadable (by decide)
  have lines := check .orderLines (by decide)
  cases isPath : o.orderFile with
  | none => simp [Check.fault?, Options.isAuto, loads, isPath] at given
  | some path =>
      cases isRead : files.readText path with
      | error cause =>
          simp [Check.fault?, loads, isPath, isRead, Except.isOk, Except.toBool] at readable
      | ok text =>
          cases parsed : Order.parse text.toList with
          | error cause =>
              simp [Check.fault?, loads, isPath, isRead, Except.toOption,
                Order.parse_eq_error_iff.mp parsed] at lines
          | ok order =>
              refine ⟨path, text, order, rfl, isRead, parsed, ?_⟩
              simp [loadedOrder?, loads, isPath, isRead, parsed, Except.toOption]

/-- The cache that is reserved for an order has a hot partition of the fitted size. -/
theorem hot_of_isReserved (enabled : o.enabled = true) (capable : o.checkDependency = .ok ())
    (plays : o.isDump = false) (unsized : o.hotHeapSize = none)
    (loaded : loadedOrder? o files = some order) (word : fittedSize order < Size.wordLimit)
    (reserved : IsReserved o host files cache) :
    cache.segmentation.isActive .hot = true ∧
      cache.segmentation.capacity .hot = fittedSize order := by
  have size : (sized o files).hotHeap = fittedSize order := by
    rw [sized, unsized, plays, loaded]
    exact UInt64.toNat_ofNat_of_lt' word
  have enabledToo := (sized_enabled o files).trans enabled
  have capableToo := (sized_checkDependency o files).trans capable
  have playsToo := (sized_isDump o files).trans plays
  rcases reserved with ⟨segmentation, segmented, isReserved⟩
  rcases Cache.tidy_of_reserve isReserved with ⟨_, rfl, _⟩
  constructor
  · rw [Segmentation.isActive, (Segmentation.aligned_of_options segmented).1]
    exact activeOf_contains_hot enabledToo capableToo playsToo
  · rw [segmentation_of_moving enabledToo capableToo playsToo] at segmented
    cases carved : Segmentation.carve (sized o files).nonProfiledSize.toNat
        (sized o files).hotHeap with
    | error cause =>
        rw [carved] at segmented
        contradiction
    | ok remaining =>
        rw [carved] at segmented
        rw [← Except.ok.inj segmented]
        exact size

/-- The engine of the load mode after a pass on which nothing is installed gathers the
methods of its order. -/
theorem gathers_of_isReserved (wellFormed : order.WellFormed)
    (reserved : IsReserved o host files cache)
    (active : cache.segmentation.isActive .hot = true)
    (ample : order.bytes ≤ cache.segmentation.capacity .hot) (path : Option String)
    (before : List Event) (elapsed : Nat) :
    Idles ((preparedEngine .load cache path (some order)).report before)
        (((preparedEngine .load cache path (some order)).report before).runWith files [] elapsed) ∧
      (((preparedEngine .load cache path (some order)).report before).runWith files []
        elapsed).engine.Gathers order := by
  rcases reserved with ⟨segmentation, segmented, isReserved⟩
  have fresh : Engine.Fresh (preparedEngine .load cache path (some order)) :=
    (Engine.Fresh.start false segmented isReserved).withSeed order
  rcases fresh.ready with ⟨usable, tidy⟩
  rcases fresh.consistent fun _ => none with ⟨held, numbered⟩
  have consistent : ((preparedEngine .load cache path (some order)).report before).Consistent
      fun _ => none := ⟨held, numbered⟩
  have idles : Idles ((preparedEngine .load cache path (some order)).report before) _ :=
    runWith_of_moving rfl rfl files [] elapsed
  refine ⟨idles, .of_seed wellFormed ⟨⟨_, (consistent.runWith files [] elapsed).1⟩, ?_, ?_, ?_⟩
    ?_ ?_ idles.placements⟩
  · rw [idles.cache]
    exact usable
  · rw [idles.cache]
    exact tidy
  · rw [idles.cache]
    exact active
  · rw [idles.cache, idles.seedTargets]
    rfl
  · rw [idles.cache]
    exact ample

end Startup

/-! ## Sessions -/

namespace Session

variable {s : Session} {e : Engine} {order : Order}

/-- The session after some compilations. -/
def compileAll (s : Session) (compilations : List Engine.Compilation) : Session :=
  compilations.foldl (fun s c => (s.compile c.method c.code c.requested).2) s

theorem compile_of_reordered (store : s.store = .reordered e) (c : Engine.Compilation) :
    (s.compile c.method c.code c.requested).1 = (e.install c.method c.code c.requested).1 ∧
      (s.compile c.method c.code c.requested).2.store = .reordered (e.perform c.call) := by
  rw [compile, store]
  exact ⟨rfl, rfl⟩

/-- What is compiled in a session is compiled by its engine. -/
theorem compileAll_of_reordered (store : s.store = .reordered e)
    (compilations : List Engine.Compilation) :
    (s.compileAll compilations).store = .reordered (e.compileAll compilations) := by
  induction compilations generalizing s e with
  | nil => exact store
  | cons c rest inductionHypothesis => exact inductionHypothesis (compile_of_reordered store c).2

/-- The hot partition of a session holds an order. -/
structure HoldsOrder (s : Session) (order : Order) : Prop where
  /-- It has room for all listed methods, and is made of whole granules. -/
  capacity : ∃ h, s.store.cache.heap? .hot = some h ∧ order.bytes ≤ h.capacity ∧
    Size.heapAlignment ∣ h.capacity
  /-- It is preferred for each of them, whatever partition is requested. -/
  preferred : ∃ e, s.store = .reordered e ∧
    ∀ m ∈ order.ranking, ∀ requested, e.preferred m requested = .hot
  /-- Whenever one of them is compiled, it lands there. -/
  lands : ∀ compilations c, Engine.Sparing order (compilations ++ [c]) →
    c.method ∈ order.ranking → ∃ b,
      ((s.compileAll compilations).compile c.method c.code c.requested).1 = .ok b ∧
        b.partition = .hot
  /-- In the end those that are compiled are there. -/
  placed : ∀ compilations, Engine.Sparing order compilations →
    ∃ e, (s.compileAll compilations).store = .reordered e ∧
      ∀ c ∈ compilations, c.method ∈ order.ranking →
        ∃ p, e.placements.find? c.method = some p ∧ p.partition = .hot

theorem holdsOrder_of_gathers (store : s.store = .reordered e) (gathers : e.Gathers order)
    (wellFormed : order.WellFormed) (nothing : e.placements = [])
    (whole : Size.heapAlignment ∣ e.cache.segmentation.capacity .hot) : s.HoldsOrder order := by
  have new : ∀ m ∈ order.ranking, e.placements.find? m = none := by
    intro m _
    rw [nothing]
    rfl
  constructor
  · rcases gathers.consistent with ⟨_, ⟨held, _⟩⟩
    rcases gathers.usable.site_of_routable (p := .hot) gathers.active (Or.inl rfl) with
      ⟨site, isSite, isHere, _, capacity⟩
    rcases List.mem_map.mp isSite with ⟨h, isHeap, rfl⟩
    have found : e.cache.heap? .hot = some h := isHere ▸ held.stores.valid.heap?_of_mem isHeap
    have sameCapacity : h.capacity = e.cache.segmentation.capacity .hot := capacity
    rw [store]
    exact ⟨h, found, sameCapacity ▸ gathers.ample, sameCapacity ▸ whole⟩
  · exact ⟨e, store, fun m listed => gathers.preferred_eq listed⟩
  · intro compilations c sparing listed
    rcases (gathers.lands wellFormed new sparing listed).installed with ⟨b, made, isHere⟩
    refine ⟨b, ?_, isHere⟩
    rw [(compile_of_reordered (compileAll_of_reordered store compilations) c).1]
    exact made
  · intro compilations sparing
    refine ⟨_, compileAll_of_reordered store compilations, fun c member listed => ?_⟩
    exact ((gathers.compileAll wellFormed new sparing).2 c.method listed).2
      (List.mem_map_of_mem member)

end Session

namespace Startup

variable {o : Options} {host : Host} {files : FileTree} {now : Moment} {elapsed : Nat}
  {s : Session} {after : State}

/-- If the start succeeds in the load mode with no size given for the managed partitions,
the hot partition holds the whole order that the order file says. -/
theorem holdsOrder_of_run (loads : o.isLoad = true) (unsized : o.hotHeapSize = none)
    (ran : run (session o host now elapsed) files = (.ok s, after)) :
    ∃ path text order, o.orderFile = some path ∧ files.readText path = .ok text ∧
      Order.parse text.toList = .ok order ∧ s.HoldsOrder order := by
  rcases passed_of_run loads ran with ⟨enabled, consistent, capable, passed, starts⟩
  rcases exists_loadedOrder loads passed with ⟨path, text, order, isPath, isRead, parsed, loaded⟩
  refine ⟨path, text, order, isPath, isRead, parsed, ?_⟩
  have plays : o.isDump = false := by
    cases records : o.isDump with
    | false => rfl
    | true => exact absurd loads (by simp [not_isLoad_of_isDump consistent records])
  have small : order.paddedSize ≤ Size.largest - Size.heapAlignment := by
    have fits := List.findSome?_eq_none_iff.mp passed .orderFits (by decide)
    simpa [Check.fault?, unsized, loaded] using fits
  rcases bytes_le_fittedSize small with ⟨ample, whole, word⟩
  rcases starts with ⟨cache, before, behind, reserved, store⟩
  rcases hot_of_isReserved enabled capable plays unsized loaded word reserved with
    ⟨active, capacity⟩
  have mode : Mode.ofOptions o = .load := by simp [Mode.ofOptions, enabled, plays, loads]
  have same : cleared o files = files := by simp [cleared, plays]
  rw [mode, loaded, same] at store
  have wellFormed := Order.wellFormed_of_parse parsed
  rcases gathers_of_isReserved wellFormed reserved active (capacity ▸ ample) (usedPath? o) before
    elapsed with ⟨idles, gathers⟩
  apply Session.holdsOrder_of_gathers store (gathers.report behind) wellFormed
  · exact idles.placements
  · change _ ∣ (Engine.Outcome.engine _).cache.segmentation.capacity .hot
    rw [idles.cache]
    exact capacity ▸ whole

/-- Load the order of an earlier run. -/
def loadEarlier : Options :=
  { Options.default with
    enabled := true
    loadMode := some true
    orderFile := some "app.order" }

/-- It compiled three methods, which take up more than one granule together. -/
def earlierMethods : Order :=
  ⟨[.method Engine.firstMethod 40000, .method Engine.secondMethod 30000,
    .method Engine.thirdMethod 9]⟩

def earlierMethodsTree : FileTree :=
  ⟨[(["app.order"], .file
    "M 40000 Main first ()V\nM 30000 Main second ()V\nM 9 Main third ()V\n".toUTF8)]⟩

theorem reads_earlierMethods :
    earlierMethodsTree.readText "app.order" =
        .ok "M 40000 Main first ()V\nM 30000 Main second ()V\nM 9 Main third ()V\n" ∧
      Order.parse "M 40000 Main first ()V\nM 30000 Main second ()V\nM 9 Main third ()V\n".toList =
        .ok earlierMethods :=
  ⟨rfl, rfl⟩

/-- The later listed methods are compiled first, one of them with shorter code than listed and
after a method that is not listed. -/
def laterFirst : List Engine.Compilation :=
  [⟨Engine.thirdMethod, Engine.filler 9, .profiled, Engine.short_filler (by decide)⟩,
    ⟨Engine.fourthMethod, Engine.filler 50000, .nonProfiled, Engine.short_filler (by decide)⟩,
    ⟨Engine.secondMethod, Engine.filler 20000, .profiled, Engine.short_filler (by decide)⟩]

def firstLast : Engine.Compilation :=
  ⟨Engine.firstMethod, Engine.filler 40000, .nonProfiled, Engine.short_filler (by decide)⟩

theorem fits_filler {order : Order} {m : Method} {length : Nat} {requested : Partition}
    (size : ∀ entry ∈ order.methods, entry.1 = m → length ≤ entry.2)
    (unmanaged : requested.isManaged = false)
    (short : (Engine.filler length).size ≤ Size.largest) :
    Engine.Compilation.Fits order ⟨m, Engine.filler length, requested, short⟩ :=
  ⟨fun entry listed same => (Engine.size_filler length).symm ▸ size entry listed same,
    fun _ => unmanaged⟩

theorem sparing_laterFirst : Engine.Sparing earlierMethods (laterFirst ++ [firstLast]) := by
  refine ⟨by decide, ?_⟩
  simp only [laterFirst, firstLast, List.cons_append, List.nil_append, List.forall_mem_cons]
  exact ⟨fits_filler (by decide) rfl _, fits_filler (by decide) rfl _,
    fits_filler (by decide) rfl _, fits_filler (by decide) rfl _, by simp⟩

/-- A host on which the partitions of the default sizes lie apart. -/
def wideHost : Host := .ofBase fun p => (p.id + 1) * 0x10000000

/-- The methods need more than a granule, so the hot partition has two.  It still holds the
first of them after all others were compiled. -/
theorem holdsOrder_loadEarlier :
    loadEarlier.isLoad = true ∧ loadEarlier.hotHeapSize = none ∧
      earlierMethods.bytes = 70080 ∧ fittedSize earlierMethods = 2 * Size.heapAlignment ∧
      ∃ s after, run (session loadEarlier wideHost ⟨0, 0⟩ 0) earlierMethodsTree =
          (.ok s, after) ∧
        s.HoldsOrder earlierMethods ∧
        ∃ b, ((s.compileAll laterFirst).compile firstLast.method firstLast.code
            firstLast.requested).1 = .ok b ∧ b.partition = .hot := by
  have succeeds : ∃ s after, run (session loadEarlier wideHost ⟨0, 0⟩ 0)
      earlierMethodsTree = (.ok s, after) := ⟨_, _, rfl⟩
  rcases succeeds with ⟨s, after, ran⟩
  rcases holdsOrder_of_run rfl rfl ran with ⟨path, text, order, isPath, isRead, parsed, holds⟩
  cases isPath
  cases reads_earlierMethods.1.symm.trans isRead
  cases reads_earlierMethods.2.symm.trans parsed
  exact ⟨rfl, rfl, by decide, by decide, s, after, ran, holds,
    holds.lands _ _ sparing_laterFirst (by decide)⟩

end Startup

end CodeLayout
