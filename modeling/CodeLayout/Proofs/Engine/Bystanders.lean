import CodeLayout.Proofs.Engine.Outline
import CodeLayout.Proofs.Placement.Listing
import CodeLayout.Proofs.Transit.Bystanders

/-!
# Bystanders of a pass

A method outside the managed partitions for which the plan has no move stays where it
is, at every stage of a pass.  Its heap may be the fallback partition: other methods are
parked there and leave again, and the code of the bystander is neither moved nor
overwritten.
-/

namespace CodeLayout.Engine

open Transit (Leads Stage Aside)

variable {e : Engine} {code : Method → Option ByteArray} {ranking : List Method} {q : Placement}

/-- A method is outside the managed partitions, and the plan has no move for it. -/
structure Bystander (e : Engine) (ranking : List Method) (q : Placement) : Prop where
  placed : q ∈ e.placements
  outside : q.partition.isManaged = false
  unplanned : (e.planFor ranking).targetOf q.method = none

/-- The hotter methods leave too little of either budget for a ranked method. -/
def Beyond (e : Engine) (ranking : List Method) (q : Placement) : Prop :=
  ∃ hotter cooler, Plan.hottest e.placements ranking = hotter ++ q :: cooler ∧
    ∀ p, p.isManaged = true → Plan.budget e.cache.segmentation p <
      q.blob.padded + Plan.load (e.planFor ranking) p hotter

/-- Nothing has happened to the bystanders but that their ranks are noted. -/
structure Spares (e : Engine) (ranking : List Method) (ps : Placements) (c : Cache) : Prop where
  placements : ∀ q, Bystander e ranking q →
    ps.find? q.method = some { q with rank := (e.planFor ranking).rankOf q.method }
  code : ∀ q, Bystander e ranking q → q.blob ∈ c.blobs ∧ c.code? q.blob = e.cache.code? q.blob
  /-- The blobs of the fallback partition that no move concerns are still there. -/
  fallback : ∀ b ∈ e.cache.blobs, b.partition = e.cache.segmentation.fallback →
    (e.planFor ranking).targetOf b.method = none → b ∈ c.blobs ∧ c.code? b = e.cache.code? b

/-- A pass spares the bystanders from its first stage to its end.  They are the methods
outside that have no rank, and those that are beyond both budgets. -/
structure Bypasses (e : Engine) (ranking : List Method) (outcome : Outcome PassReport) :
    Prop where
  bystander : ∀ q ∈ e.placements, q.partition.isManaged = false →
    (Bystander e ranking q ↔ q.method ∉ ranking ∨ Beyond e ranking q)
  during : ∀ stage, Leads (.moving (e.opened ranking)) stage →
    Spares e ranking stage.transit.placements stage.transit.cache
  after : Spares e ranking outcome.engine.placements outcome.engine.cache

/-! ## Who is a bystander -/

/-- There is no move for a method that is wanted where it is. -/
theorem Consistent.targetOf_eq_none_iff (consistent : e.Consistent code)
    (member : q ∈ e.placements) :
    (e.planFor ranking).targetOf q.method = none ↔
      (e.planFor ranking).destination q = q.partition := by
  rw [Plan.destination]
  cases planned : (e.planFor ranking).targetOf q.method with
  | none => simp
  | some p =>
      rcases Option.map_eq_some_iff.mp planned with ⟨move, found, rfl⟩
      have isMove := List.mem_of_find?_eq_some found
      have sameMethod : move.method = q.method := by simpa using List.find?_some found
      rcases consistent.move_cases isMove with ⟨r, isPlacement, isMethod, source, elsewhere, _⟩
      have same : r = q := List.inj_on_of_nodup_map consistent.held.methods isPlacement member
        (isMethod.trans sameMethod)
      rw [← source, same] at elsewhere
      simpa using elsewhere

theorem ne_of_unmanaged {p : Partition} (outside : q.partition.isManaged = false)
    (managed : p.isManaged = true) : p ≠ q.partition := by
  rintro rfl
  rw [outside] at managed
  contradiction

/-- A ranked method outside is wanted there if and only if neither budget is left. -/
theorem Consistent.beyond_iff (consistent : e.Consistent code) (member : q ∈ e.placements)
    (outside : q.partition.isManaged = false) (ranked : q.method ∈ ranking) :
    Beyond e ranking q ↔ (e.planFor ranking).destination q = q.partition := by
  have nodup := consistent.held.methods
  have target {hotter cooler : List Placement}
      (split : Plan.hottest e.placements ranking = hotter ++ q :: cooler) :
      (e.planFor ranking).destination q =
        if q.blob.padded + Plan.load (e.planFor ranking) .hot hotter ≤
          Plan.budget e.cache.segmentation .hot then .hot
        else if q.blob.padded + Plan.load (e.planFor ranking) .tmp hotter ≤
          Plan.budget e.cache.segmentation .tmp then .tmp
        else q.partition := by
    have greedy := Plan.destination_of_hottest (s := e.cache.segmentation) nodup split
    rwa [outside] at greedy
  constructor
  · rintro ⟨hotter, cooler, split, little⟩
    rw [target split, if_neg (Nat.not_le.mpr (little .hot rfl)),
      if_neg (Nat.not_le.mpr (little .tmp rfl))]
  · intro stays
    have found : e.placements.find? q.method = some q := consistent.held.find?_of_mem member
    have isListed : q.method ∈ Plan.listed e.placements ranking :=
      Plan.mem_listed.mpr ⟨ranked, by rw [Placements.contains, found]; rfl⟩
    have isHottest : q ∈ Plan.hottest e.placements ranking :=
      List.mem_filterMap.mpr ⟨q.method, isListed, found⟩
    rcases List.append_of_mem isHottest with ⟨hotter, cooler, split⟩
    rw [target split] at stays
    refine ⟨hotter, cooler, split, ?_⟩
    intro p managed
    split at stays
    · exact absurd stays (ne_of_unmanaged outside rfl)
    · rename_i noHot
      split at stays
      · exact absurd stays (ne_of_unmanaged outside rfl)
      · rename_i noTmp
        cases p with
        | hot => exact Nat.lt_of_not_le noHot
        | tmp => exact Nat.lt_of_not_le noTmp
        | nonMethod | nonProfiled | profiled | whole => contradiction

theorem Consistent.bystander_iff (consistent : e.Consistent code) (member : q ∈ e.placements)
    (outside : q.partition.isManaged = false) :
    Bystander e ranking q ↔ q.method ∉ ranking ∨ Beyond e ranking q := by
  have stays : Bystander e ranking q ↔ (e.planFor ranking).destination q = q.partition := by
    rw [← consistent.targetOf_eq_none_iff member]
    exact ⟨Bystander.unplanned, fun unplanned => ⟨member, outside, unplanned⟩⟩
  rw [stays]
  by_cases ranked : q.method ∈ ranking
  · rw [← consistent.beyond_iff member outside ranked]
    simp [ranked]
  · have unlisted : q.method ∉ Plan.listed e.placements ranking := fun isListed =>
      ranked (Plan.mem_listed.mp isListed).1
    rcases Plan.exists_built e.cache.segmentation e.placements ranking with ⟨assigned, built⟩
    rw [← Plan.rankedMethods_ofRanks e.cache.segmentation] at unlisted
    have wanted := Plan.destination_eq consistent.held.methods built member
    rw [Plan.wanted_of_unranked built unlisted, Plan.outside_of_unmanaged outside] at wanted
    simp only [ranked, not_false_eq_true, true_or, iff_true]
    exact wanted

/-! ## What happens to them -/

/-- At the beginning of a pass the bystanders are on no errand. -/
theorem Consistent.aside_opened (consistent : e.Consistent code)
    (bystander : Bystander e ranking q) :
    Aside { q with rank := (e.planFor ranking).rankOf q.method } (.moving (e.opened ranking)) := by
  constructor
  · exact List.mem_map_of_mem bystander.placed
  · intro onErrand
    rcases List.mem_append.mp onErrand with waits | leaves
    · rcases List.mem_map.mp waits with ⟨move, isMove, sameMethod⟩
      have planned := Plan.targetOf_of_mem
        (Plan.moves_nodup consistent.held.methods e.cache.segmentation ranking) isMove
      have unplanned := bystander.unplanned
      rw [← sameMethod] at unplanned
      cases unplanned.symm.trans planned
    · contradiction

theorem Consistent.spares (consistent : e.Consistent code) {stage : Stage}
    (leads : Leads (.moving (e.opened ranking)) stage) :
    Spares e ranking stage.transit.placements stage.transit.cache := by
  rcases (begun_same e ranking).consistent consistent with ⟨begun, _⟩
  have held : (e.opened ranking).Held code := (begun.ranked ranking).held
  rcases leads.steps.held held with ⟨heldThere, _⟩
  have placed {q : Placement} (bystander : Bystander e ranking q) :
      { q with rank := (e.planFor ranking).rankOf q.method } ∈ stage.transit.placements :=
    (leads.aside held (consistent.aside_opened bystander) bystander.outside).placed
  have kept {q : Placement} (bystander : Bystander e ranking q) :
      q.blob ∈ stage.transit.cache.blobs ∧
        stage.transit.cache.code? q.blob = e.cache.code? q.blob := by
    constructor
    · exact heldThere.live (p := { q with rank := (e.planFor ranking).rankOf q.method })
        (placed bystander)
    · exact (heldThere.code?_eq (placed bystander)).trans
        (consistent.held.code?_eq bystander.placed).symm
  constructor
  · exact fun q bystander => heldThere.find?_of_mem (placed bystander)
  · exact fun q bystander => kept bystander
  · intro b live inFallback unplanned
    rcases List.mem_map.mp (consistent.held.blobs.mem_iff.mp live) with ⟨q, member, rfl⟩
    apply kept
    constructor
    · exact member
    · rw [Placement.partition, inFallback]
      exact Plan.isManaged_fallback _
    · rwa [consistent.held.owner q member] at unplanned

/-- A pass moves no bystander, nor does it touch the code of one. -/
theorem bypasses_runPass (reached : Reached e) (moving : e.recording = false) (files : FileTree)
    (ranking : List Method) (elapsed : Nat) :
    Bypasses e ranking (e.runPass files ranking elapsed) := by
  rcases reached.consistent with ⟨code, consistent⟩
  rcases consistent.completes reached.ready.1 moving files ranking elapsed with
    ⟨report, t, completes⟩
  constructor
  · exact fun q member outside => consistent.bystander_iff member outside
  · exact fun stage leads => consistent.spares leads
  · rw [completes.placements, completes.cache]
    exact consistent.spares completes.leads

/-! ## A machine with a guest room -/

/-- The hot and the tmp partition have no room for another method, and the third one is
outside. -/
def swappingEngine : Engine :=
  (Engine.start false smallCache).performAll
    ([.add firstMethod 40000 .hot, .add secondMethod 40000 .tmp,
      .add thirdMethod 5000 .nonProfiled].map Load.call)

theorem reached_swapping : Reached swappingEngine :=
  ⟨_, _, fresh_small false, rfl⟩

def swappingStock : Stock where
  placements :=
    [⟨firstMethod, ⟨firstMethod, .hot, 0x3000000, 40000, 40000⟩, none, 1⟩,
      ⟨secondMethod, ⟨secondMethod, .tmp, 0x4000000, 40000, 40000⟩, none, 2⟩,
      ⟨thirdMethod, ⟨thirdMethod, .nonProfiled, 0x1000000, 5000, 5056⟩, none, 3⟩]
  count := 3
  outline :=
    [⟨.nonProfiled, 0x1000000, [⟨5056, 912448⟩]⟩, ⟨.profiled, 0x2000000, [⟨0, 1048576⟩]⟩,
      ⟨.hot, 0x3000000, [⟨40000, 25536⟩]⟩, ⟨.tmp, 0x4000000, [⟨40000, 25536⟩]⟩,
      ⟨.nonMethod, 0x5000000, [⟨0, 65536⟩]⟩]

theorem stocked_swapping : Stocked swappingEngine smallSegmentation swappingStock :=
  stocked_small.performAll (by decide)

/-- The first two methods change places through the fallback partition, beside the
third one. -/
theorem bypasses_swapping :
    Reached swappingEngine ∧ swappingEngine.recording = false ∧
      (swappingEngine.planFor [secondMethod, firstMethod]).moves =
        [⟨secondMethod, .tmp, .hot, some 0⟩, ⟨firstMethod, .hot, .tmp, some 1⟩] ∧
      (swappingEngine.runPass FileTree.empty [secondMethod, firstMethod]
          0).engine.placements.find? thirdMethod =
        some ⟨thirdMethod, ⟨thirdMethod, .nonProfiled, 0x1000000, 5000, 5056⟩, none, 3⟩ := by
  have moving := stocked_swapping.recording
  have plan := stocked_swapping.planFor_eq [secondMethod, firstMethod]
  have bypasses := bypasses_runPass reached_swapping moving FileTree.empty
    [secondMethod, firstMethod] 0
  have third : Bystander swappingEngine [secondMethod, firstMethod]
      ⟨thirdMethod, ⟨thirdMethod, .nonProfiled, 0x1000000, 5000, 5056⟩, none, 3⟩ := by
    constructor
    · rw [stocked_swapping.placements]
      decide
    · rfl
    · rw [plan]
      decide +kernel
  refine ⟨reached_swapping, moving, ?_, ?_⟩
  · rw [plan]
    decide +kernel
  · have stays := bypasses.after.placements _ third
    rw [plan] at stays
    exact stays

end CodeLayout.Engine
