import CodeLayout.Proofs.Engine.Outline
import CodeLayout.Proofs.Placement.Greedy
import CodeLayout.Proofs.Transit.Filling

/-!
# Passes from cold

A pass that finds the managed heaps empty fills them in the order of the ranks.  The
budgets of the plan are the bytes of the heaps, so all methods find room where the
plan wants them, each one directly behind the one before it.  Nothing else moves.
-/

namespace CodeLayout.Engine

variable {e : Engine} {code : Method → Option ByteArray} {ranking : List Method} {p : Partition}
  {q : Placement} {t : Transit}

/-- The managed heaps hold no blob. -/
def Cold (e : Engine) : Prop :=
  ∀ h ∈ e.cache.heaps, h.partition.isManaged = true → h.blobs = []

/-- The methods that the plan for a ranking wants in a partition, hottest first. -/
def chosen (e : Engine) (ranking : List Method) (p : Partition) : List Placement :=
  (Plan.hottest e.placements ranking).filter fun q => (e.planFor ranking).destination q = p

/-- An engine is cold if all methods are outside the managed partitions. -/
theorem Consistent.cold_iff (consistent : e.Consistent code) :
    e.Cold ↔ ∀ q ∈ e.placements, q.partition.isManaged = false := by
  have held := consistent.held
  have valid := held.stores.valid
  constructor
  · intro cold q member
    rcases valid.exists_heap (held.live member) with ⟨h, found, isHeap, inHeap⟩
    rw [← Bool.not_eq_true]
    intro managed
    have isHere : h.partition = q.partition := (Cache.mem_of_heap? found).2
    rw [cold h isHeap (isHere ▸ managed)] at inHeap
    contradiction
  · intro outside h isHeap managed
    apply List.eq_nil_iff_forall_not_mem.mpr
    intro b inHeap
    have live : b ∈ e.cache.blobs := List.mem_flatMap.mpr ⟨h, isHeap, inHeap⟩
    rcases List.mem_map.mp (held.blobs.mem_iff.mp live) with ⟨q, member, rfl⟩
    have unmanaged := outside q member
    rw [Placement.partition, (valid.heaps h isHeap).owned _ inHeap, managed] at unmanaged
    contradiction

/-! ## The moves of a pass from cold -/

/-- Nobody is evicted, and every move has a rank. -/
theorem Consistent.moves_of_cold (consistent : e.Consistent code) (cold : e.Cold)
    (ranking : List Method) :
    (e.planFor ranking).moves =
      ((Plan.hottest e.placements ranking).zipIdx.filter fun r =>
          (e.planFor ranking).destination r.1 ≠ r.1.partition).map fun r =>
        ⟨r.1.method, r.1.partition, (e.planFor ranking).destination r.1, some r.2⟩ := by
  have nobody : Plan.evictions e.cache.segmentation e.placements
      (Plan.ofRanks e.cache.segmentation e.placements ranking) = [] := by
    apply List.eq_nil_iff_forall_not_mem.mpr
    intro move evicted
    rcases Plan.mem_evictions.mp evicted with ⟨q, member, managed, _⟩
    rw [consistent.cold_iff.mp cold q member] at managed
    contradiction
  rw [planFor, Plan.moves_ofRanking, nobody, List.nil_append]
  exact Plan.moves_of_hottest consistent.held.methods

/-- All moves lead from outside into managed partitions. -/
theorem Consistent.move_of_cold (consistent : e.Consistent code) (cold : e.Cold) {move : Move}
    (member : move ∈ (e.planFor ranking).moves) :
    move.target.isManaged = true ∧ move.rank.isNone = false ∧
      ∃ q ∈ e.placements, q.method = move.method ∧ q.partition.isManaged = false := by
  rcases consistent.move_cases member with ⟨q, isPlacement, sameMethod, source, _, into | outOf⟩
  · refine ⟨into.1, ?_, q, isPlacement, sameMethod, consistent.cold_iff.mp cold q isPlacement⟩
    rw [consistent.moves_of_cold cold] at member
    rcases List.mem_map.mp member with ⟨r, _, rfl⟩
    rfl
  · rw [← source, consistent.cold_iff.mp cold q isPlacement] at outOf
    exact absurd outOf.1 Bool.false_ne_true

/-- The moves bring the chosen methods, hottest first. -/
theorem Consistent.guests_of_cold (consistent : e.Consistent code) (cold : e.Cold)
    (ranking : List Method) (managed : p.isManaged = true) :
    Transit.guests (e.opened ranking).placements (e.planFor ranking).moves p =
      (e.chosen ranking p).map Placement.blob := by
  have installed (r : Placement × Nat)
      (member : r ∈ (Plan.hottest e.placements ranking).zipIdx) : r.1 ∈ e.placements :=
    Plan.mem_of_mem_hottest (List.fst_mem_of_mem_zipIdx member)
  -- A chosen method is elsewhere, since it is outside.
  have moves : ∀ r ∈ (Plan.hottest e.placements ranking).zipIdx,
      (decide ((e.planFor ranking).destination r.1 = p) &&
        decide ((e.planFor ranking).destination r.1 ≠ r.1.partition)) =
      decide ((e.planFor ranking).destination r.1 = p) := by
    intro r member
    rw [Bool.and_eq_left_iff_imp, decide_eq_true_iff, decide_eq_true_iff]
    rintro isGoal stays
    have unmanaged := consistent.cold_iff.mp cold _ (installed r member)
    rw [← stays, isGoal, managed] at unmanaged
    contradiction
  have blobs : ∀ r ∈ (Plan.hottest e.placements ranking).zipIdx,
      ((e.opened ranking).placements.find? r.1.method).map Placement.blob = some r.1.blob := by
    intro r member
    rw [blob_find?_opened, consistent.held.find?_of_mem (installed r member), Option.map_some]
  calc Transit.guests (e.opened ranking).placements (e.planFor ranking).moves p
      = ((Plan.hottest e.placements ranking).zipIdx.filter fun r =>
          (e.planFor ranking).destination r.1 = p).filterMap fun r =>
            ((e.opened ranking).placements.find? r.1.method).map Placement.blob := by
        rw [Transit.guests, consistent.moves_of_cold cold, List.filter_map, List.filterMap_map,
          List.filter_filter]
        exact congrArg _ (List.filter_congr moves)
    _ = ((Plan.hottest e.placements ranking).zipIdx.filter fun r =>
          (e.planFor ranking).destination r.1 = p).map fun r => r.1.blob := by
        rw [← List.filterMap_eq_map]
        exact List.filterMap_congr fun r member => blobs r (List.mem_of_mem_filter member)
    _ = (((Plan.hottest e.placements ranking).zipIdx.map Prod.fst).filter fun q =>
          (e.planFor ranking).destination q = p).map Placement.blob := by
        rw [List.filter_map, List.map_map]
        rfl
    _ = (e.chosen ranking p).map Placement.blob := by
        rw [List.zipIdx_map_fst]
        rfl

/-- The chosen methods fit a managed partition. -/
theorem Consistent.chosen_fits (consistent : e.Consistent code) (ranking : List Method)
    (managed : p.isManaged = true) :
    Blob.height ((e.chosen ranking p).map Placement.blob) ≤ e.cache.segmentation.capacity p := by
  have nodup := consistent.held.methods
  rcases Plan.exists_built e.cache.segmentation e.placements ranking with ⟨assigned, built⟩
  rw [Blob.height, List.map_map]
  calc Plan.load (e.planFor ranking) p (Plan.hottest e.placements ranking)
      = Plan.assignedTo assigned p := Plan.load_hottest nodup built managed
    _ ≤ Plan.budget e.cache.segmentation p := built.assignedTo_le managed
    _ ≤ e.cache.segmentation.capacity p := Plan.budget_le_capacity _ p

theorem Consistent.fits_of_cold (consistent : e.Consistent code) (usable : e.cache.Usable)
    (cold : e.Cold) (ranking : List Method) :
    Transit.Fits (e.opened ranking) (e.planFor ranking).moves where
  nodup := Plan.moves_nodup consistent.held.methods _ ranking
  managed move member := (consistent.move_of_cold cold member).1
  ready move member :=
    usable.ready (consistent.isActive_of_moves usable (List.ne_nil_of_mem member))
      (Or.inl (consistent.move_of_cold cold member).1)
  ranked move member := (consistent.move_of_cold cold member).2.1
  outside move member := by
    rcases (consistent.move_of_cold cold member).2.2 with ⟨q, isPlacement, sameMethod, unmanaged⟩
    have found := blob_find?_opened e ranking q.method
    rw [consistent.held.find?_of_mem isPlacement, Option.map_some, sameMethod] at found
    rcases Option.map_eq_some_iff.mp found with ⟨placed, isFound, sameBlob⟩
    refine ⟨placed, isFound, ?_⟩
    rw [Placement.partition, sameBlob]
    exact unmanaged
  room site isSite managed := by
    by_cases nothing : (e.planFor ranking).moves = []
    · rw [nothing]
      exact Nat.zero_le _
    · have active := consistent.isActive_of_moves usable nothing
      rw [consistent.guests_of_cold cold ranking managed,
        (usable.backed active site isSite (Or.inl managed)).2]
      exact consistent.chosen_fits ranking managed

theorem Consistent.filled_of_cold (consistent : e.Consistent code) (usable : e.cache.Usable)
    (tidy : e.cache.Tidy) (cold : e.Cold) (ranking : List Method) :
    Transit.Filled (e.opened ranking) code [] (e.opened ranking) where
  held := ((begun_same e ranking).consistent consistent).1.ranked ranking |>.held
  frame := .refl _
  heaps p managed h found := by
    rcases Cache.mem_of_heap? found with ⟨isHeap, rfl⟩
    exact (consistent.held.stores.valid.heaps h isHeap).stacked_nil
      (usable.tidy tidy isHeap managed) (cold h isHeap managed)
  others _ _ := rfl
  moved := rfl
  evicted := rfl
  unplaced := rfl

/-! ## The end of the pass -/

/-- A moving pass ends as its run does, also if there is nothing to move. -/
theorem ends_of_run (moving : e.recording = false) (ran : (e.opened ranking).run = (.ok (), t))
    (files : FileTree) (elapsed : Nat) :
    (∃ report, (e.runPass files ranking elapsed).result = .ok report ∧
      report.relocated = t.moved.length ∧ report.evicted = t.evicted ∧
      report.unplaced = t.unplaced) ∧
    (e.runPass files ranking elapsed).engine.cache = t.cache ∧
    (e.runPass files ranking elapsed).engine.placements = t.placements := by
  by_cases nothing : (e.planFor ranking).moves = []
  · have swept : (e.opened ranking).sweep (e.opened ranking).pending =
        ⟨e.opened ranking, [], false, none⟩ := by
      change (e.opened ranking).sweep (e.planFor ranking).moves = _
      rw [nothing]
      rfl
    cases ran.symm.trans (Transit.run_of_sweep swept)
    have still := undisturbed_of_still moving nothing files elapsed
    rcases still.result with ⟨report, endsWell, relocated, evicted, _, unplaced⟩
    exact ⟨⟨report, endsWell, relocated, evicted, unplaced⟩, still.cache, still.placements⟩
  · rw [runPass_of_run moving nothing ran]
    exact ⟨⟨_, rfl, rfl, rfl, rfl⟩, rfl, rfl⟩

/-- A pass has filled the managed heaps in the order of the ranks. -/
structure Fills (e : Engine) (ranking : List Method) (outcome : Outcome PassReport) : Prop where
  /-- Everybody found room, nobody was evicted, and the methods in the managed heaps are
  those that moved. -/
  result : ∃ report, outcome.result = .ok report ∧ report.unplaced = 0 ∧ report.evicted = 0 ∧
    report.relocated = (outcome.engine.cache.methodsIn .hot).length +
      (outcome.engine.cache.methodsIn .tmp).length
  /-- Each managed heap holds the methods that the plan wants there, hottest first, from
  its base on without a gap. -/
  stacked : ∀ p, p.isManaged = true → ∀ h, outcome.engine.cache.heap? p = some h →
    h.blobs = Blob.stack p h.base ((e.chosen ranking p).map Placement.blob)
  /-- Where there is no heap, the plan wants nobody. -/
  absent : ∀ p, p.isManaged = true → outcome.engine.cache.heap? p = none →
    e.chosen ranking p = []
  /-- The chosen methods are all that the plan wants in a managed partition. -/
  chosen : ∀ p, p.isManaged = true → ∀ q ∈ e.placements,
    (e.planFor ranking).destination q = p → q ∈ e.chosen ranking p
  /-- The moves were made without parking anyone or compacting a heap. -/
  direct : (e.opened ranking).run.2.parked = [] ∧ (e.opened ranking).run.2.compacted = []
  /-- The heaps are where they were. -/
  sites : outcome.engine.cache.sites = e.cache.sites
  /-- All other methods keep their blobs. -/
  kept : ∀ q ∈ e.placements, ((e.planFor ranking).destination q).isManaged = false →
    (outcome.engine.placements.find? q.method).map Placement.blob = some q.blob

/-- A pass from cold packs the managed heaps. -/
theorem fills_runPass (reached : Reached e) (moving : e.recording = false) (cold : e.Cold)
    (files : FileTree) (ranking : List Method) (elapsed : Nat) :
    Fills e ranking (e.runPass files ranking elapsed) := by
  rcases reached.consistent with ⟨code, consistent⟩
  rcases reached.ready with ⟨usable, tidy⟩
  have nodup := consistent.held.methods
  have fits := consistent.fits_of_cold usable cold ranking
  rcases Transit.run_of_fits rfl fits (consistent.filled_of_cold usable tidy cold ranking) with
    ⟨t, ran, filled, parked, compacted⟩
  rcases ends_of_run moving ran files elapsed with
    ⟨⟨report, endsWell, relocated, evicted, unplaced⟩, cache, placements⟩
  have guests (p : Partition) (managed : p.isManaged = true) :
      Transit.guests (e.opened ranking).placements (e.opened ranking).pending p =
        (e.chosen ranking p).map Placement.blob :=
    consistent.guests_of_cold cold ranking managed
  constructor
  · refine ⟨report, endsWell, unplaced.trans filled.unplaced, evicted.trans filled.evicted, ?_⟩
    rw [relocated, cache]
    exact filled.length_moved fits
  · intro p managed h found
    rw [cache] at found
    rw [(filled.heaps p managed h found).blobs, (Cache.mem_of_heap? found).2]
    exact congrArg _ (guests p managed)
  · intro p managed absent
    rw [cache] at absent
    have nobody := guests p managed
    rw [filled.guests_eq_nil fits absent] at nobody
    exact List.map_eq_nil_iff.mp nobody.symm
  · intro p managed q member isGoal
    refine List.mem_filter.mpr ⟨?_, decide_eq_true isGoal⟩
    apply Plan.mem_hottest_of_managed nodup member
    rw [← managed, ← isGoal]
    rfl
  · rw [ran]
    exact ⟨parked, compacted⟩
  · rw [cache]
    exact filled.frame.sites
  · intro q member unmanaged
    have unmoved : q.method ∉ (e.planFor ranking).moves.map Move.method := by
      intro moves
      rcases List.mem_map.mp moves with ⟨move, isMove, sameMethod⟩
      have managed := (consistent.move_of_cold cold isMove).1
      have planned := Plan.targetOf_of_mem fits.nodup isMove
      rw [sameMethod] at planned
      rw [Plan.destination, planned, Option.getD_some, managed] at unmanaged
      contradiction
    rw [placements, filled.others _ unmoved, blob_find?_opened,
      consistent.held.find?_of_mem member, Option.map_some]

/-! ## A cold machine -/

/-- All methods are outside the managed partitions. -/
def coldEngine : Engine :=
  (Engine.start false smallCache).performAll
    ([.add firstMethod 40000 .nonProfiled, .add secondMethod 20000 .profiled,
      .add thirdMethod 30000 .nonProfiled, .add fourthMethod 300 .nonProfiled].map Load.call)

/-- The sixth method is not installed, the fourth one has no rank. -/
def coldRanking : List Method :=
  [secondMethod, sixthMethod, thirdMethod, firstMethod, secondMethod]

def coldStock : Stock where
  placements :=
    [⟨firstMethod, ⟨firstMethod, .nonProfiled, 0x1000000, 40000, 40000⟩, none, 1⟩,
      ⟨secondMethod, ⟨secondMethod, .profiled, 0x2000000, 20000, 20032⟩, none, 2⟩,
      ⟨thirdMethod, ⟨thirdMethod, .nonProfiled, 0x1009C40, 30000, 30016⟩, none, 3⟩,
      ⟨fourthMethod, ⟨fourthMethod, .nonProfiled, 0x1011180, 300, 320⟩, none, 4⟩]
  count := 4
  outline :=
    [⟨.nonProfiled, 0x1000000, [⟨70336, 847168⟩]⟩, ⟨.profiled, 0x2000000, [⟨20032, 1028544⟩]⟩,
      ⟨.hot, 0x3000000, [⟨0, 65536⟩]⟩, ⟨.tmp, 0x4000000, [⟨0, 65536⟩]⟩,
      ⟨.nonMethod, 0x5000000, [⟨0, 65536⟩]⟩]

theorem stocked_cold : Stocked coldEngine smallSegmentation coldStock :=
  stocked_small.performAll (by decide)

/-- The second and the third method are packed into the hot heap, the first one comes
into the other. -/
theorem fills_cold :
    Reached coldEngine ∧ coldEngine.recording = false ∧ coldEngine.Cold ∧
      Fills coldEngine coldRanking (coldEngine.runPass FileTree.empty coldRanking 0) ∧
      Blob.stack .hot 0x3000000 ((coldEngine.chosen coldRanking .hot).map Placement.blob) =
        [⟨secondMethod, .hot, 0x3000000, 20000, 20032⟩,
          ⟨thirdMethod, .hot, 0x3004E40, 30000, 30016⟩] ∧
      Blob.stack .tmp 0x4000000 ((coldEngine.chosen coldRanking .tmp).map Placement.blob) =
        [⟨firstMethod, .tmp, 0x4000000, 40000, 40000⟩] := by
  have reached : Reached coldEngine := ⟨_, _, fresh_small false, rfl⟩
  have moving := stocked_cold.recording
  rcases stocked_cold.consistent with ⟨code, consistent⟩
  have cold : coldEngine.Cold := by
    rw [consistent.cold_iff, stocked_cold.placements]
    decide
  have fills := fills_runPass reached moving cold FileTree.empty coldRanking 0
  refine ⟨reached, moving, cold, fills, ?_⟩
  rw [chosen, chosen, stocked_cold.planFor_eq, stocked_cold.placements]
  decide +kernel

end CodeLayout.Engine
