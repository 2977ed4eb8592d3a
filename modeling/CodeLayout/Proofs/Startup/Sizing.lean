import CodeLayout.Proofs.Engine.Budgets
import CodeLayout.Proofs.Segmentation.Carving
import CodeLayout.Proofs.Startup.Fitting

/-!
# Sizes in words

The way from an order file to the budgets of a plan: the padded sizes are added up, the size
of the managed partitions is fitted to the sum, the partitions are carved, their heaps are
reserved in whole pages, and seeds and plans are spread over what there is.  Listed sizes
and size options go up to half of a word each, and each step is safe because of a check that
an earlier one has made.
-/

namespace CodeLayout

/-- The size options that are given, or have a default of their own. -/
def Options.sizes (o : Options) : List UInt64 :=
  o.hotHeapSize.toList ++ [o.nonMethodSize, o.profiledSize, o.nonProfiledSize, o.reservedSize]

/-- No size option is above the limit for sizes. -/
def Options.Limited (o : Options) : Prop :=
  ∀ size ∈ o.sizes, size.toNat ≤ Size.largest

/-- Bytes that all listed methods need, padded in words.  The sum stops at the largest word. -/
def Order.paddedSize? (o : Order) : Option Nat :=
  o.methods.foldlM (fun total entry =>
    (Size.padded? entry.2).map fun padded => min (total + padded) (Size.wordLimit - 1)) 0

/-- The capacity of a heap and the pages that are reserved for it, computed in words. -/
def Heap.sizes? (pageSize size : Nat) : Option (Nat × Nat) := do
  let capacity ← Size.alignDown? size Size.segment
  if capacity = 0 then return (capacity, 0)
  return (capacity, ← Size.wholePages? pageSize capacity)

/-- Choose the size of the managed partitions, computing in words. -/
def Startup.chooseHeapSize? (o : Options) (seed : Option Order) :
    Option (Except ConfigError Options) :=
  if o.hotHeapSize.isSome || o.isDump then some (.ok o)
  else match seed with
  | none => some (.ok o)
  | some order => do
    let total ← order.paddedSize?
    let limit ← Size.sub? Size.largest Size.heapAlignment
    if limit < total then return .error (.heapTooLarge total)
    let size ← Size.alignUp? total Size.heapAlignment
    return .ok { o with hotHeapSize := some (UInt64.ofNat (max size Size.heapAlignment)) }

variable {o sized : Options} {order : Order} {seed : Option Order} {s : Segmentation}

/-! ## Single steps -/

theorem Order.paddedSize?_eq (listed : ∀ entry ∈ order.methods, entry.2 ≤ Size.largest) :
    order.paddedSize? = some order.paddedSize := by
  refine Size.foldlM_eq_some (fun _ => True) trivial fun total entry member _ => ?_
  rw [Size.padded?_eq (listed entry member)]
  exact ⟨rfl, trivial⟩

/-- The total is the exact sum where it is small enough for a size to be fitted to it. -/
theorem Order.paddedSize_eq_bytes
    (small : order.paddedSize ≤ Size.largest - Size.heapAlignment) :
    order.paddedSize = order.bytes := by
  have padded := order.paddedSize_eq
  simp only [Size.largest, Size.heapAlignment, Size.kib, Size.wordLimit,
    Nat.reduceShiftLeft] at small padded
  omega

theorem Heap.sizes?_eq (host : Host) (p : Partition) {size : Nat} (limited : size ≤ Size.largest) :
    Heap.sizes? host.pageSize size =
      some ((reservedSite host p size).capacity, (reservedSite host p size).memorySize) := by
  have capacity : Size.alignDown size Size.segment ≤ Size.largest :=
    Nat.le_trans Nat.and_le_left limited
  have pages := Size.wholePages?_eq (Nat.pos_of_isPowerOfTwo host.isPower) host.pageSize_le capacity
  rw [Heap.sizes?, Size.alignDown?_eq (by decide), reservedSite]
  simp only [Option.bind_eq_bind, Option.bind_some, pages]
  by_cases empty : Size.alignDown size Size.segment = 0
  · rw [if_pos empty, if_pos empty, empty]
    rfl
  · rw [if_neg empty, if_neg empty]
    rfl

namespace Options.Limited

theorem hotHeap_le (limited : o.Limited) : o.hotHeap ≤ Size.largest := by
  rw [Options.hotHeap]
  cases given : o.hotHeapSize with
  | none => decide
  | some size => exact limited size (List.mem_append_left _ (by simp [given]))

theorem requestedCapacity_le (limited : o.Limited) (p : Partition) :
    Segmentation.requestedCapacity o p ≤ Size.largest := by
  have given {size : UInt64}
      (isOption : size ∈ [o.nonMethodSize, o.profiledSize, o.nonProfiledSize, o.reservedSize]) :
      size.toNat ≤ Size.largest :=
    limited size (List.mem_append_right _ isOption)
  cases p with
  | nonProfiled => exact given (by simp)
  | profiled => exact given (by simp)
  | hot => exact limited.hotHeap_le
  | tmp => exact limited.hotHeap_le
  | nonMethod => exact given (by simp)
  | whole => exact given (by simp)

theorem capacity_le (limited : o.Limited) (segmented : Segmentation.ofOptions o = .ok s)
    (p : Partition) : s.capacity p ≤ Size.largest :=
  Nat.le_trans (Segmentation.capacity_le_requested segmented p) (limited.requestedCapacity_le p)

end Options.Limited

namespace Startup

/-- The options with the size of the managed partitions chosen, or the reason why it cannot
be. -/
def heapSizeChoice (o : Options) (seed : Option Order) : Except ConfigError Options :=
  if o.hotHeapSize.isSome || o.isDump then .ok o
  else match seed with
  | none => .ok o
  | some order =>
    if Size.largest - Size.heapAlignment < order.paddedSize then
      .error (.heapTooLarge order.paddedSize)
    else .ok { o with hotHeapSize := some (UInt64.ofNat (fittedSize order)) }

theorem outcome_chooseHeapSize (o : Options) (seed : Option Order) (state : State) :
    (outcome (chooseHeapSize o seed) state).1 = (heapSizeChoice o seed).mapError .config := by
  unfold chooseHeapSize heapSizeChoice
  split
  · rfl
  · cases seed with
    | none => rfl
    | some order =>
        dsimp only
        split <;> rfl

/-- A sum that is small enough can be rounded up. -/
theorem alignUp?_of_small (small : order.paddedSize ≤ Size.largest - Size.heapAlignment) :
    Size.alignUp? order.paddedSize Size.heapAlignment =
      some (Size.alignUp order.paddedSize Size.heapAlignment) := by
  apply Size.alignUp?_eq (by decide)
  simp only [Size.largest, Size.heapAlignment, Size.kib, Size.wordLimit,
    Nat.reduceShiftLeft] at small ⊢
  omega

theorem chooseHeapSize?_eq
    (listed : ∀ order ∈ seed, ∀ entry ∈ order.methods, entry.2 ≤ Size.largest) :
    chooseHeapSize? o seed = some (heapSizeChoice o seed) := by
  unfold chooseHeapSize? heapSizeChoice
  split
  · rfl
  · cases seed with
    | none => rfl
    | some order =>
        simp only [Order.paddedSize?_eq (listed order rfl), Option.bind_eq_bind, Option.bind_some,
          Size.sub?_eq (show Size.heapAlignment ≤ Size.largest by decide)]
        split
        · rfl
        · rename_i small
          rw [alignUp?_of_small (Nat.le_of_not_lt small)]
          rfl

/-- The size that is fitted to an order is within the limit again. -/
theorem fittedSize_le (small : order.paddedSize ≤ Size.largest - Size.heapAlignment) :
    fittedSize order ≤ Size.largest := by
  have short : order.paddedSize + Size.heapAlignment ≤ Size.wordLimit := by
    simp only [Size.largest, Size.heapAlignment, Size.kib, Size.wordLimit,
      Nat.reduceShiftLeft] at small ⊢
    omega
  rw [fittedSize, Size.alignUp_heapAlignment short]
  simp only [Size.largest, Size.heapAlignment, Size.kib, Nat.reduceShiftLeft] at small ⊢
  omega

/-- A size that is chosen is within the limit, and the sum that it is fitted to is exact. -/
theorem limited_of_heapSizeChoice (limited : o.Limited)
    (chosen : heapSizeChoice o seed = .ok sized) :
    sized.Limited ∧ ∀ order ∈ seed, (o.hotHeapSize.isSome || o.isDump) = false →
      order.paddedSize = order.bytes := by
  unfold heapSizeChoice at chosen
  split at chosen
  · rename_i settled
    cases chosen
    exact ⟨limited, fun _ _ unsettled => absurd settled (Bool.eq_false_iff.mp unsettled)⟩
  · cases seed with
    | none =>
        cases chosen
        exact ⟨limited, fun _ isSeed => nomatch isSeed⟩
    | some order =>
        dsimp only at chosen
        split at chosen
        · contradiction
        · rename_i small
          have fits := Nat.le_of_not_lt small
          cases chosen
          refine ⟨?_, ?_⟩
          · intro size isOption
            rcases List.mem_append.mp isOption with chosen | given
            · rw [List.mem_singleton.mp chosen, UInt64.toNat_ofNat']
              exact Nat.le_trans (Nat.mod_le _ _) (fittedSize_le fits)
            · exact limited size (List.mem_append_right _ given)
          · rintro _ isSeed _
            cases isSeed
            exact Order.paddedSize_eq_bytes fits

/-! ## From the file to the budgets -/

/-- The sizes that are computed before the cache is reserved. -/
structure TotalsInWords (o : Options) (seed : Option Order) : Prop where
  total : ∀ order ∈ seed, order.paddedSize? = some order.paddedSize
  choice : ∃ choice, chooseHeapSize? o seed = some choice ∧
    ∀ state, (outcome (chooseHeapSize o seed) state).1 = choice.mapError .config
  /-- The sum is exact if it is accepted, where it is asked for at all. -/
  exact : ∀ order ∈ seed, (o.hotHeapSize.isSome || o.isDump) = false →
    (∃ state sized, (outcome (chooseHeapSize o seed) state).1 = .ok sized) →
      order.paddedSize = order.bytes

/-- The sizes that are computed when the cache is reserved and a seed is spread over it. -/
structure CapacitiesInWords (o : Options) (seed : Option Order) : Prop where
  segmentation : Segmentation.ofOptions? o = some (Segmentation.ofOptions o)
  heaps : ∀ s, Segmentation.ofOptions o = .ok s → ∀ (p : Partition) (host : Host),
    ∃ capacity pages, Heap.sizes? host.pageSize (s.capacity p) = some (capacity, pages) ∧
      ∀ h, Heap.reserve host p (s.capacity p) = .ok h →
        h.capacity = capacity ∧ h.memory.size = pages
  budgets : ∀ s, Segmentation.ofOptions o = .ok s → ∀ order ∈ seed,
    Engine.seedTargetsOf? s order = some (Engine.seedTargetsOf s order)

theorem capacitiesInWords (limited : o.Limited)
    (listed : ∀ order ∈ seed, ∀ entry ∈ order.methods, entry.2 ≤ Size.largest) :
    CapacitiesInWords o seed where
  segmentation := Segmentation.ofOptions?_eq o
  heaps s segmented p host := by
    refine ⟨_, _, Heap.sizes?_eq host p (limited.capacity_le segmented p), fun h reserved => ?_⟩
    have site := (Heap.tidy_of_reserve reserved).2
    exact ⟨congrArg Heap.Site.capacity site, congrArg Heap.Site.memorySize site⟩
  budgets s segmented order isSeed :=
    Engine.seedTargetsOf?_eq (limited.capacity_le segmented) (listed order isSeed)

/-- From an order that is read from a file, and options with sizes up to the limit, to the
budgets of any plan of an engine, no step of the arithmetic leaves the word, as long as the
heaps lie in the address space without a common address. -/
theorem sizes_stay_words (limited : o.Limited)
    (parsed : ∀ order ∈ seed, ∃ text, Order.parse text = .ok order) :
    TotalsInWords o seed ∧
    (∀ sized, sized = o ∨ (∃ state, (outcome (chooseHeapSize o seed) state).1 = .ok sized) →
      CapacitiesInWords sized seed) ∧
    ∀ e : Engine, e.Reached → e.cache.Separate → e.cache.Addressable → ∀ ranking,
      Plan.ofRanking? e.cache.segmentation e.placements ranking =
        some (Plan.ofRanking e.cache.segmentation e.placements ranking) := by
  have listed : ∀ order ∈ seed, ∀ entry ∈ order.methods, entry.2 ≤ Size.largest := by
    intro order isSeed
    rcases parsed order isSeed with ⟨text, isOrder⟩
    exact (Order.wellFormed_of_parse isOrder).sizes
  have chosen {state : State} {sized : Options}
      (accepted : (outcome (chooseHeapSize o seed) state).1 = .ok sized) :
      heapSizeChoice o seed = .ok sized := by
    rw [outcome_chooseHeapSize] at accepted
    cases choice : heapSizeChoice o seed with
    | error cause =>
        rw [choice] at accepted
        contradiction
    | ok result =>
        rw [choice] at accepted
        exact congrArg Except.ok (Except.ok.inj accepted)
  refine ⟨⟨?_, ⟨_, chooseHeapSize?_eq listed, outcome_chooseHeapSize o seed⟩, ?_⟩, ?_, ?_⟩
  · exact fun order isSeed => Order.paddedSize?_eq (listed order isSeed)
  · rintro order isSeed unsettled ⟨state, sized, accepted⟩
    exact (limited_of_heapSizeChoice limited (chosen accepted)).2 order isSeed unsettled
  · rintro sized (rfl | ⟨state, accepted⟩)
    · exact capacitiesInWords limited listed
    · exact capacitiesInWords (limited_of_heapSizeChoice limited (chosen accepted)).1 listed
  · intro e reached separate addressable ranking
    rcases reached.consistent with ⟨code, consistent⟩
    exact Plan.ofRanking?_eq (consistent.bytes_lt separate addressable) ranking

theorem addressable_smallEngine : Engine.smallEngine.cache.Addressable := by
  have frame := ((Engine.fresh_small false).consistent fun _ => none).performAll
    [.install Engine.firstMethod ⟨#[1, 2, 3]⟩ .hot Engine.short_first,
      .install Engine.secondMethod ⟨#[4, 5]⟩ .nonProfiled Engine.short_second]
  have sites : Engine.smallEngine.cache.sites = Engine.smallCache.sites := frame.2.sites
  rw [Cache.Addressable, sites]
  decide +kernel

/-- The order of an earlier run is loaded, and a small machine is planned for. -/
theorem sizes_stay_words_loadEarlier :
    loadEarlier.Limited ∧
      Order.parse "M 64 Main first ()V\n".toList = .ok ⟨[.method Engine.firstMethod 64]⟩ ∧
      TotalsInWords loadEarlier (some ⟨[.method Engine.firstMethod 64]⟩) ∧
      CapacitiesInWords { loadEarlier with hotHeapSize := some 65536 }
        (some ⟨[.method Engine.firstMethod 64]⟩) ∧
      Plan.ofRanking? Engine.smallEngine.cache.segmentation Engine.smallEngine.placements
        [Engine.secondMethod, Engine.firstMethod] =
        some (Plan.ofRanking Engine.smallEngine.cache.segmentation Engine.smallEngine.placements
          [Engine.secondMethod, Engine.firstMethod]) := by
  have limited : loadEarlier.Limited := by
    simp only [Options.Limited, Options.sizes, loadEarlier, Options.default, Option.toList,
      List.nil_append, List.forall_mem_cons]
    exact ⟨by decide, by decide, by decide, by decide, by simp⟩
  have isOrder : Order.parse "M 64 Main first ()V\n".toList =
      .ok ⟨[.method Engine.firstMethod 64]⟩ := rfl
  have parsed : ∀ order ∈ (some ⟨[.method Engine.firstMethod 64]⟩ : Option Order),
      ∃ text, Order.parse text = .ok order := by
    rintro order isSeed
    cases isSeed
    exact ⟨_, isOrder⟩
  have fitted : (outcome (chooseHeapSize loadEarlier
      (some ⟨[.method Engine.firstMethod 64]⟩)) ⟨FileTree.empty, []⟩).1 =
      .ok { loadEarlier with hotHeapSize := some 65536 } := rfl
  rcases sizes_stay_words limited parsed with ⟨totals, capacities, plans⟩
  exact ⟨limited, isOrder, totals, capacities _ (.inr ⟨_, fitted⟩),
    plans _ Engine.reached_small Engine.separate_smallEngine addressable_smallEngine _⟩

end Startup

end CodeLayout
