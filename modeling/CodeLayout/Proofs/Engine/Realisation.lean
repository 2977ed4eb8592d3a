import CodeLayout.Proofs.Engine.Outline
import CodeLayout.Proofs.Transit.Realisation

/-!
# Plans that fit

With ample room in the fallback partition a pass realises its plan, unless this
exchanges methods between the two managed partitions.  A partition is emptied
once in a pass.  If a method that is about to change to the other managed
partition still lies in it then, it may be filled again around that method, and
what it leaves behind is a gap.
-/

namespace CodeLayout.Engine

variable {e after : Engine} {code : Method → Option ByteArray} {ranking : List Method}
  {p : Partition} {placed : Placement}

/-! ## The beginning of a pass -/

theorem Consistent.destination_eq_wanted (consistent : e.Consistent code)
    {assigned : List (Placement × Option Partition)}
    (built : Plan.Built e.cache.segmentation e.placements assigned
      (Plan.ofRanks e.cache.segmentation e.placements ranking)) (member : placed ∈ e.placements) :
    e.destination ranking placed.method = Plan.wanted e.cache.segmentation assigned placed := by
  have nodup := consistent.held.methods
  rw [destination_of_mem nodup ranking member]
  exact Plan.destination_eq nodup built member

/-- A method that is to be in a managed partition has a rank. -/
theorem Consistent.ranked_of_managed (consistent : e.Consistent code)
    (member : placed ∈ e.placements)
    (managed : (e.destination ranking placed.method).isManaged = true) :
    (e.planFor ranking).rankOf placed.method ≠ none := by
  intro noRank
  rcases Plan.exists_built e.cache.segmentation e.placements ranking with ⟨assigned, built⟩
  have unranked : placed.method ∉
      (Plan.ofRanks e.cache.segmentation e.placements ranking).rankedMethods :=
    Plan.rankOf_eq_none_iff.mp noRank
  rw [consistent.destination_eq_wanted built member, Plan.wanted_of_unranked built unranked,
    Plan.isManaged_outside] at managed
  contradiction

/-- A managed partition is large enough for all methods that are to be in it. -/
theorem Consistent.fits (consistent : e.Consistent code) (ranking : List Method)
    (managed : p.isManaged = true) :
    Transit.weighed (fun n => if e.destination ranking n = p then 1 else 0) e.placements.loads ≤
      e.cache.segmentation.capacity p := by
  rcases Plan.exists_built e.cache.segmentation e.placements ranking with ⟨assigned, built⟩
  refine Nat.le_trans (Nat.le_of_eq ?_) (Plan.wanted_fits built consistent.held.methods managed)
  apply Transit.weighed_loads
  intro q member
  rw [consistent.destination_eq_wanted built member]
  simp

/-- What holds at the beginning of a pass with ample room. -/
theorem Consistent.standing (consistent : e.Consistent code) (usable : e.cache.Usable)
    (tidy : e.cache.Tidy) (active : e.cache.segmentation.isActive .hot = true)
    (ranking : List Method) :
    Transit.Standing (e.destination ranking) (e.opened ranking).placements code
      (.moving (e.opened ranking)) := by
  rcases (begun_same e ranking).consistent consistent with ⟨begun, _⟩
  constructor
  · exact (begun.ranked ranking).held
  · exact begun.orderly ranking (e.passes + 1)
  · exact begun.owed ranking (e.passes + 1)
  · exact fun q member => Or.inl member
  · rfl
  · exact usable
  · exact active
  · exact tidy
  · intro q member managed
    rcases List.mem_map.mp member with ⟨r, isPlacement, rfl⟩
    exact consistent.ranked_of_managed isPlacement managed
  · intro p managed
    change Transit.weighed _ (e.opened ranking).placements.loads ≤ _
    rw [loads_opened]
    exact consistent.fits ranking managed

theorem progress_opened (e : Engine) (ranking : List Method)
    (ample : 2 * (e.placements.map fun p => p.blob.padded).sum ≤
      e.cache.largestFree e.cache.segmentation.fallback) :
    Transit.Progress (e.destination ranking) (e.opened ranking).placements
      (.moving (e.opened ranking)) where
  ample := by
    have sizes : e.placements.loads.map Prod.snd = e.placements.map fun p => p.blob.padded :=
      List.map_map
    change Transit.weighed _ (e.opened ranking).placements.loads ≤ _
    rw [loads_opened]
    refine Nat.le_trans (Transit.weighed_le (Transit.credit_le _ _)) ?_
    rw [sizes]
    exact ample
  unplaced := rfl
  aside _ _ isParked := absurd isParked List.not_mem_nil
  packed _ compacted := absurd compacted List.not_mem_nil

/-! ## The end of a pass -/

/-- A method is outside, for the partition where it is to be has the free bytes for
it, but not in one range; another method had to change from there to the other
managed partition. -/
structure CrowdedOut (e after : Engine) (ranking : List Method) (placed : Placement) :
    Prop where
  outside : placed.partition.isManaged = false
  bytes : ∃ free, after.cache.freeBytes? (e.destination ranking placed.method) = some free ∧
    placed.blob.padded ≤ free
  ranges : after.cache.largestFree (e.destination ranking placed.method) < placed.blob.padded
  exchange : ∃ move ∈ (e.planFor ranking).moves,
    move.source = e.destination ranking placed.method ∧ move.source.isManaged = true ∧
      move.target.isManaged = true

/-- Who disturbs a partition has a move out of it. -/
theorem Consistent.exists_exchange (consistent : e.Consistent code) (managed : p.isManaged = true)
    (disturbed : ¬ Transit.Undisturbed (e.destination ranking) (e.opened ranking).placements p) :
    ∃ move ∈ (e.planFor ranking).moves,
      move.source = p ∧ move.source.isManaged = true ∧ move.target.isManaged = true := by
  simp only [Transit.Undisturbed, not_forall] at disturbed
  rcases disturbed with ⟨q, member, isHere, belongs, elsewhere⟩
  rcases List.mem_map.mp member with ⟨r, isPlacement, rfl⟩
  have nodup := consistent.held.methods
  rcases (consistent.owed ranking 0).placed _ (List.mem_map_of_mem isPlacement) with
    home | ⟨move, isMove, sameMethod⟩
  · exact absurd (home.symm.trans isHere) elsewhere
  · rcases consistent.move_cases isMove with ⟨s, isPlacementToo, sameMethodToo, source, _⟩
    have same : s = r :=
      List.inj_on_of_nodup_map nodup isPlacementToo isPlacement (sameMethodToo.trans sameMethod)
    have isSource : move.source = p := by
      rw [← source, same]
      exact isHere
    refine ⟨move, isMove, isSource, isSource ▸ managed, ?_⟩
    rw [← destination_of_move nodup ranking isMove, sameMethod]
    exact belongs

/-- With ample room in the fallback partition a pass realises its plan, but for those
who are crowded out; in particular if its plan does not exchange methods between the
managed partitions.  In any case nobody without a rank is left in one of them. -/
theorem realised_runPass (reached : Reached e) (moving : e.recording = false)
    (active : e.cache.segmentation.isActive .hot = true) (files : FileTree)
    (ranking : List Method) (elapsed : Nat)
    (ample : 4 * (e.placements.map fun p => p.blob.padded).sum ≤
      e.cache.largestFree e.cache.segmentation.fallback) :
    ∃ report, (e.runPass files ranking elapsed).result = .ok report ∧
      (∀ p ∈ (e.runPass files ranking elapsed).engine.placements,
        p.partition = e.destination ranking p.method ∨
          CrowdedOut e (e.runPass files ranking elapsed).engine ranking p) ∧
      (∀ p ∈ (e.runPass files ranking elapsed).engine.placements,
        p.method ∉ ranking → p.partition.isManaged = false) ∧
      ((∀ move ∈ (e.planFor ranking).moves,
          move.source.isManaged = true → move.target.isManaged = false) →
        report.unplaced = 0 ∧
          ∀ p ∈ (e.runPass files ranking elapsed).engine.placements,
            p.partition = e.destination ranking p.method) := by
  rcases reached.consistent with ⟨code, consistent⟩
  rcases reached.ready with ⟨usable, tidy⟩
  rcases consistent.completes usable moving files ranking elapsed with ⟨report, t, completes⟩
  have enough : 2 * (e.placements.map fun p => p.blob.padded).sum ≤
      e.cache.largestFree e.cache.segmentation.fallback := by omega
  rcases completes.leads.realises (consistent.standing usable tidy active ranking)
    (progress_opened e ranking enough) with ⟨standing, settled⟩
  have settled : Transit.Settling (e.destination ranking) (e.opened ranking).placements t [] :=
    settled
  have crowdedOut (q : Placement)
      (crowded : Transit.Crowded (e.destination ranking) (e.opened ranking).placements t q) :
      CrowdedOut e (e.runPass files ranking elapsed).engine ranking q := by
    rcases consistent.exists_exchange crowded.managed crowded.disturbed with ⟨move, exchange⟩
    refine ⟨crowded.outside, ?_, ?_, move, exchange⟩
    · rw [completes.cache]
      exact crowded.bytes
    · rw [completes.cache]
      exact crowded.ranges
  have placed : ∀ q ∈ (e.runPass files ranking elapsed).engine.placements,
      q.partition = e.destination ranking q.method ∨
        CrowdedOut e (e.runPass files ranking elapsed).engine ranking q := by
    rw [completes.placements]
    exact fun q member => (settled.placed q member).imp id (crowdedOut q)
  refine ⟨report, completes.result, placed, ?_, ?_⟩
  · intro q member unlisted
    rcases placed q member with home | crowded
    · rw [completes.placements] at member
      rcases (begun_same e ranking).consistent consistent with ⟨begun, _⟩
      have held : (e.opened ranking).Held code := (begun.ranked ranking).held
      rcases (completes.leads.steps.held held).2.exists_earlier member with ⟨r, isOld, same⟩
      rcases List.mem_map.mp isOld with ⟨s, isPlacement, rfl⟩
      have sameMethod : s.method = q.method := congrArg Prod.fst same
      have nodup := consistent.held.methods
      rw [home, ← sameMethod, destination_of_mem nodup ranking isPlacement]
      exact Plan.destination_of_unranked nodup isPlacement (sameMethod ▸ unlisted)
    · exact crowded.outside
  · intro apart
    have nobody (q : Placement) :
        ¬ CrowdedOut e (e.runPass files ranking elapsed).engine ranking q := by
      intro crowded
      rcases crowded.exchange with ⟨move, isMove, _, source, goal⟩
      rw [apart move isMove source] at goal
      contradiction
    constructor
    · rw [completes.isReport]
      apply Decidable.byContradiction
      intro reported
      rcases settled.counted reported with ⟨q, _, crowded⟩
      exact nobody q (crowdedOut q crowded)
    · exact fun q member => (placed q member).resolve_right (nobody q)

/-! ## A tangled machine -/

/-- The fourth method is to change from the tmp partition, where it lies in the
middle, to the hot one, and the sixth one is to come into the tmp partition. -/
def tangledEngine : Engine :=
  (Engine.start false smallCache).performAll
    ([.add firstMethod 6400 .hot, .add secondMethod 51200 .hot, .drop firstMethod,
      .add thirdMethod 14080 .tmp, .add fourthMethod 12800 .tmp, .add fifthMethod 14720 .tmp,
      .drop thirdMethod, .add sixthMethod 32000 .nonProfiled].map Load.call)

theorem reached_tangled : Reached tangledEngine :=
  ⟨_, _, fresh_small false, rfl⟩

def tangledRanking : List Method :=
  [secondMethod, fifthMethod, sixthMethod, fourthMethod]

/-- What is free beside the partitions that the pass uses. -/
def tangledOutline (nonProfiled hot tmp : List Extent) : Outline :=
  [⟨.nonProfiled, 0x1000000, nonProfiled⟩, ⟨.profiled, 0x2000000, [⟨0, 1048576⟩]⟩,
    ⟨.hot, 0x3000000, hot⟩, ⟨.tmp, 0x4000000, tmp⟩, ⟨.nonMethod, 0x5000000, [⟨0, 65536⟩]⟩]

def tangledStock : Stock where
  placements :=
    [⟨secondMethod, ⟨secondMethod, .hot, 0x3001900, 51200, 51200⟩, none, 2⟩,
      ⟨fourthMethod, ⟨fourthMethod, .tmp, 0x4003700, 12800, 12800⟩, none, 4⟩,
      ⟨fifthMethod, ⟨fifthMethod, .tmp, 0x4006900, 14720, 14720⟩, none, 5⟩,
      ⟨sixthMethod, ⟨sixthMethod, .nonProfiled, 0x1000000, 32000, 32000⟩, none, 6⟩]
  count := 6
  outline := tangledOutline [⟨32000, 885504⟩] [⟨0, 6400⟩, ⟨57600, 7936⟩]
    [⟨0, 14080⟩, ⟨41600, 23936⟩]

theorem stocked_tangled : Stocked tangledEngine smallSegmentation tangledStock :=
  stocked_small.performAll (by decide)

/-- The ranked methods; the sixth one never moves. -/
def tangledPlacements (second fourth fifth : Partition × Nat) : Placements :=
  [⟨secondMethod, ⟨secondMethod, second.1, second.2, 51200, 51200⟩, some 0, 2⟩,
    ⟨fourthMethod, ⟨fourthMethod, fourth.1, fourth.2, 12800, 12800⟩, some 3, 4⟩,
    ⟨fifthMethod, ⟨fifthMethod, fifth.1, fifth.2, 14720, 14720⟩, some 1, 5⟩,
    ⟨sixthMethod, ⟨sixthMethod, .nonProfiled, 0x1000000, 32000, 32000⟩, some 2, 6⟩]

/-- The moves of the plan. -/
def tangledMoves : List Move :=
  [⟨sixthMethod, .nonProfiled, .tmp, some 2⟩, ⟨fourthMethod, .tmp, .hot, some 3⟩]

/-- The move that is left in the end. -/
def tangledRest : List Move :=
  [⟨sixthMethod, .nonProfiled, .tmp, some 2⟩]

/-- At first neither move is possible. -/
def tangledScene : Scene where
  placements := tangledPlacements (.hot, 0x3001900) (.tmp, 0x4003700) (.tmp, 0x4006900)
  outline := tangledStock.outline
  pending := tangledMoves
  parked := []
  compacted := []
  moved := []
  failures := []

/-- The fifth method has left the tmp partition; the fourth one, which waits for the
hot partition, has not. -/
def tangledTmpEmptied : Scene :=
  { tangledScene with
    placements := tangledPlacements (.hot, 0x3001900) (.tmp, 0x4003700) (.nonProfiled, 0x1007D00)
    outline := tangledOutline [⟨46720, 870784⟩] [⟨0, 6400⟩, ⟨57600, 7936⟩]
      [⟨0, 14080⟩, ⟨26880, 38656⟩]
    pending := tangledMoves ++ [⟨fifthMethod, .nonProfiled, .tmp, some 1⟩]
    compacted := [.tmp]
    moved := [fifthMethod] }

/-- The fifth method is back where it was, behind the fourth one. -/
def tangledTmpFilled : Scene :=
  { tangledScene with
    pending := ⟨fifthMethod, .nonProfiled, .tmp, some 1⟩ :: tangledMoves
    compacted := [.tmp]
    moved := [fifthMethod] }

/-- The second method has left the hot partition. -/
def tangledHotEmptied : Scene :=
  { tangledScene with
    placements := tangledPlacements (.nonProfiled, 0x1007D00) (.tmp, 0x4003700) (.tmp, 0x4006900)
    outline := tangledOutline [⟨83200, 834304⟩] [⟨0, 65536⟩] [⟨0, 14080⟩, ⟨41600, 23936⟩]
    pending := tangledMoves ++ [⟨secondMethod, .nonProfiled, .hot, some 0⟩]
    compacted := [.hot, .tmp]
    moved := [fifthMethod, secondMethod] }

/-- The hot partition is packed, and the fourth method is in it.  It has left a gap in
the tmp partition, which has been emptied already. -/
def tangledHotFilled : Scene :=
  { tangledScene with
    placements := tangledPlacements (.hot, 0x3000000) (.hot, 0x300C800) (.tmp, 0x4006900)
    outline := tangledOutline [⟨32000, 885504⟩] [⟨64000, 1536⟩] [⟨0, 26880⟩, ⟨41600, 23936⟩]
    pending := ⟨secondMethod, .nonProfiled, .hot, some 0⟩ :: tangledMoves
    compacted := [.hot, .tmp]
    moved := [fifthMethod, secondMethod, fourthMethod] }

def tangledEnding : Scene :=
  { tangledHotFilled with
    pending := []
    failures := [(sixthMethod, .tmp, 32000)] }

theorem opening_tangled :
    tangledStock.opening smallSegmentation tangledRanking = tangledScene := by
  decide +kernel

theorem plays_tangled : Scene.Plays smallSegmentation tangledScene tangledEnding := by
  have stuck : Scene.Swept smallSegmentation tangledScene tangledMoves tangledScene tangledMoves :=
    .still (by decide)
  have fifth : tangledScene.residents .tmp = [(fifthMethod, 1)] := by cbv
  have tmpEmptied : Scene.displace? smallSegmentation { tangledScene with compacted := [.tmp] }
      .tmp [(fifthMethod, 1)] = some tangledTmpEmptied := by decide
  have tmpSorted : tangledTmpEmptied.pending.mergeSort Transit.Move.before =
      tangledTmpFilled.pending := by cbv
  have tmpFilled : Scene.Swept smallSegmentation
      (tangledTmpEmptied.waitingFor tangledTmpFilled.pending) tangledTmpFilled.pending
      tangledTmpFilled tangledMoves := by
    have swept : Scene.sweep? smallSegmentation
        (tangledTmpEmptied.waitingFor tangledTmpFilled.pending) tangledTmpFilled.pending =
        some (tangledTmpFilled, tangledMoves, true) := by decide
    exact .again swept (by decide) (.still (by decide))
  have second : (tangledTmpFilled.waitingFor tangledMoves).residents .hot =
      [(secondMethod, 0)] := by cbv
  have hotEmptied : Scene.displace? smallSegmentation
      { tangledTmpFilled.waitingFor tangledMoves with compacted := [.hot, .tmp] } .hot
      [(secondMethod, 0)] = some tangledHotEmptied := by decide
  have hotSorted : tangledHotEmptied.pending.mergeSort Transit.Move.before =
      tangledHotFilled.pending := by cbv
  have hotFilled : Scene.Swept smallSegmentation
      (tangledHotEmptied.waitingFor tangledHotFilled.pending) tangledHotFilled.pending
      tangledHotFilled tangledRest := by
    have swept : Scene.sweep? smallSegmentation
        (tangledHotEmptied.waitingFor tangledHotFilled.pending) tangledHotFilled.pending =
        some (tangledHotFilled, tangledRest, true) := by decide
    exact .again swept (by decide) (.still (by decide))
  have settled : Scene.settle? smallSegmentation (tangledHotFilled.waitingFor []) tangledRest =
      some tangledEnding := by decide
  apply Scene.Plays.compact stuck (p := .tmp) (by decide) fifth tmpEmptied tmpSorted
  apply Scene.Plays.compact tmpFilled (p := .hot) (by decide) second hotEmptied hotSorted
  exact Scene.Plays.settle hotFilled (by decide) (by decide) (by decide) settled

theorem runPass_tangled :
    ∃ report,
      Stocked (tangledEngine.runPass FileTree.empty tangledRanking 0).engine smallSegmentation
        (tangledStock.after tangledEnding) ∧
      (tangledEngine.runPass FileTree.empty tangledRanking 0).result = .ok report ∧
      report.unplaced = 1 := by
  have some : (tangledStock.opening smallSegmentation tangledRanking).pending ≠ [] := by
    rw [opening_tangled]
    decide
  rcases stocked_tangled.runPass rfl rfl some (opening_tangled ▸ plays_tangled)
    FileTree.empty 0 with ⟨stocked, report, _, endsWell, unplaced, _⟩
  exact ⟨report, stocked, endsWell, unplaced⟩

/-- The fallback partition could take all methods four times over. -/
theorem ample_tangled :
    tangledEngine.cache.segmentation.isActive .hot = true ∧
      4 * (tangledEngine.placements.map fun p => p.blob.padded).sum ≤
        tangledEngine.cache.largestFree tangledEngine.cache.segmentation.fallback := by
  have isActive : tangledEngine.cache.segmentation.isActive .nonProfiled = true := by
    rw [stocked_tangled.segmentation]
    rfl
  constructor
  · rw [stocked_tangled.segmentation]
    rfl
  · rw [Segmentation.fallback, if_pos isActive, stocked_tangled.cache.largestFree_eq isActive,
      stocked_tangled.placements]
    decide

/-- The pass of the tangled machine realises its plan but for the sixth method. -/
theorem realised_tangled :
    Reached tangledEngine ∧ tangledEngine.recording = false ∧
      tangledEngine.cache.segmentation.isActive .hot = true ∧
      4 * (tangledEngine.placements.map fun p => p.blob.padded).sum ≤
        tangledEngine.cache.largestFree tangledEngine.cache.segmentation.fallback ∧
      ∃ p ∈ (tangledEngine.runPass FileTree.empty tangledRanking 0).engine.placements,
        p.method = sixthMethod ∧
          CrowdedOut tangledEngine (tangledEngine.runPass FileTree.empty tangledRanking 0).engine
            tangledRanking p := by
  have moving := stocked_tangled.recording
  rcases ample_tangled with ⟨active, ample⟩
  rcases runPass_tangled with ⟨_, stocked, _⟩
  obtain ⟨_, _, realised, _⟩ :=
    realised_runPass reached_tangled moving active FileTree.empty tangledRanking 0 ample
  have member : (⟨sixthMethod, ⟨sixthMethod, .nonProfiled, 0x1000000, 32000, 32000⟩, some 2, 6⟩ :
      Placement) ∈ (tangledEngine.runPass FileTree.empty tangledRanking 0).engine.placements := by
    rw [stocked.placements]
    decide
  refine ⟨reached_tangled, moving, active, ample, _, member, rfl, ?_⟩
  apply (realised _ member).resolve_left
  rw [destination, destination?, stocked_tangled.planFor_eq, stocked_tangled.placements]
  decide +kernel

/-- The sixth method is reported, though the fallback partition has ample room and the
tmp partition has the bytes for it. -/
theorem not_realised :
    ¬ ∀ (e : Engine) (files : FileTree) (ranking : List Method) (elapsed : Nat),
      Reached e → e.recording = false → e.cache.segmentation.isActive .hot = true →
      4 * (e.placements.map fun p => p.blob.padded).sum ≤
        e.cache.largestFree e.cache.segmentation.fallback →
      ∃ report, (e.runPass files ranking elapsed).result = .ok report ∧ report.unplaced = 0 ∧
        (∀ p ∈ (e.runPass files ranking elapsed).engine.placements,
          p.method ∈ ranking → p.partition = e.destination ranking p.method) ∧
        ∀ p ∈ (e.runPass files ranking elapsed).engine.placements,
          p.method ∉ ranking → p.partition.isManaged = false := by
  intro realises
  rcases ample_tangled with ⟨active, ample⟩
  rcases runPass_tangled with ⟨report, _, endsWell, unplaced⟩
  rcases realises tangledEngine FileTree.empty tangledRanking 0 reached_tangled
    stocked_tangled.recording active ample with ⟨other, endsWell', nothing, _⟩
  have same : report = other := Except.ok.inj (endsWell.symm.trans endsWell')
  exact Nat.zero_ne_one (nothing.symm.trans (same ▸ unplaced))

end CodeLayout.Engine
