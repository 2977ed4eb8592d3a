import CodeLayout.Proofs.Transit.Packing

/-!
# Plans that are realised

With ample room in the fallback partition a run realises its plan, but for
methods whose partition has enough free bytes in ranges that are all too short.
Such a partition has been emptied once, while someone was in it who belonged
into the other managed partition.
-/

namespace CodeLayout.Transit

variable {target : Method → Partition} {before : Placements} {code : Method → Option ByteArray}
  {t after : Transit} {p : Partition} {placed q : Placement} {b : Blob}
  {cache : Cache} {passed : List Event} {first next : Stage}

/-- A method is outside, for the partition that it belongs into has the bytes for
it, but not in one range; there were others in the way. -/
structure Crowded (target : Method → Partition) (before : Placements) (t : Transit)
    (q : Placement) : Prop where
  outside : q.partition.isManaged = false
  managed : (target q.method).isManaged = true
  bytes : ∃ free, t.cache.freeBytes? (target q.method) = some free ∧ q.blob.padded ≤ free
  ranges : t.cache.largestFree (target q.method) < q.blob.padded
  disturbed : ¬ Undisturbed target before (target q.method)

namespace Standing

/-- The bytes that the blobs of a heap take up are those of the methods in it. -/
theorem used_eq (standing : Standing target before code first) {h : Heap}
    (found : first.transit.cache.heap? p = some h) (tidy : h.Tidy) :
    h.used = weighed (fun n => if first.transit.partitionOf? n = some p then 1 else 0)
      first.transit.placements.loads := by
  have blobs := (standing.held.heap_blobs found).map Blob.padded
  rw [tidy.used, blobs.sum_nat, List.map_map]
  apply Eq.symm
  apply weighed_loads
  intro q member
  have placed : first.transit.placements.find? q.method = some q :=
    standing.held.find?_of_mem member
  simp [partitionOf?, placed]

/-- If only those are in a managed partition who belong there, it has the bytes for
another one. -/
theorem fits_another (standing : Standing target before code first) (managed : p.isManaged = true)
    (home : ∀ q ∈ first.transit.placements, q.partition = p → target q.method = p)
    (member : q ∈ first.transit.placements) (belongs : target q.method = p)
    (elsewhere : q.partition ≠ p) :
    ∃ h, first.transit.cache.heap? p = some h ∧ h.Tidy ∧ q.blob.padded ≤ h.freeBytes := by
  have held := standing.held
  rcases standing.exists_heap managed with ⟨h, found, _, tidy, capacity⟩
  refine ⟨h, found, tidy, ?_⟩
  have isLoad : (q.method, q.blob.padded) ∈ first.transit.placements.loads :=
    List.mem_map_of_mem member
  have placed : first.transit.placements.find? q.method = some q := held.find?_of_mem member
  have counted : h.used + q.blob.padded ≤ h.capacity := by
    rw [standing.used_eq found tidy]
    refine Nat.le_trans (weighed_add_le ?_ ?_ isLoad)
      (Nat.le_trans (standing.fits p managed) (Nat.le_of_eq capacity.symm))
    · intro n
      split
      · rename_i isThere
        rcases Option.map_eq_some_iff.mp isThere with ⟨r, foundThere, inside⟩
        rcases Placements.mem_of_find? foundThere with ⟨isPlacement, rfl⟩
        exact Nat.le_of_eq (if_pos (home r isPlacement inside)).symm
      · exact Nat.zero_le _
    · simp [partitionOf?, placed, belongs, elsewhere]
  have total := tidy.total
  rw [tidy.freeBytes_eq]
  omega

/-- When nothing more can be done, those who wait are outside. -/
theorem outside_of_waiting (standing : Standing target before code (.moving t))
    (progress : Progress target before (.moving t)) (blocked : t.Blocked)
    (parked : t.parkable? = none) (member : q ∈ t.placements) {move : Move}
    (waits : move ∈ t.pending) (sameMethod : move.method = q.method) :
    q.partition.isManaged = false := by
  have managed := standing.managed_of_blocked progress.ample blocked waits
  have found : t.placements.find? q.method = some q := standing.held.find?_of_mem member
  have nobody := List.find?_eq_none.mp (Option.map_eq_none_iff.mp parked) move waits
  have elsewhere : move.target ≠ t.fallback := by
    intro isFallback
    rw [isFallback] at managed
    exact Bool.noConfusion ((Plan.isManaged_fallback _).symm.trans managed)
  rw [sameMethod, partitionOf?, found] at nobody
  by_cases isParked : q.method ∈ t.parked
  · exact progress.aside q member isParked (List.mem_map.mpr ⟨move, waits, sameMethod⟩)
  · simpa [elsewhere, isParked] using nobody

/-- Those who wait then do so because their partition is crowded. -/
theorem crowded_of_waiting (standing : Standing target before code (.moving t))
    (progress : Progress target before (.moving t)) (blocked : t.Blocked)
    (whole : t.fragmentedTarget = none) (parked : t.parkable? = none) (member : q ∈ t.placements)
    {move : Move} (waits : move ∈ t.pending) (sameMethod : move.method = q.method) :
    Crowded target before t q := by
  have held := standing.held
  have found : t.placements.find? q.method = some q := held.find?_of_mem member
  have aim : move.target = target q.method := sameMethod ▸ standing.orderly.aim move waits
  have managed := aim ▸ standing.managed_of_blocked progress.ample blocked waits
  have outside := standing.outside_of_waiting progress blocked parked member waits sameMethod
  have elsewhere : q.partition ≠ target q.method := by
    intro same
    rw [same, managed] at outside
    contradiction
  have home (r : Placement) (isPlacement : r ∈ t.placements)
      (inside : r.partition = target q.method) : target r.method = target q.method := by
    rcases standing.owes.placed r isPlacement with atHome | ⟨other, isWaiting, same⟩
    · rw [← atHome, inside]
    · have isOutside :=
        standing.outside_of_waiting progress blocked parked isPlacement isWaiting same
      rw [inside, managed] at isOutside
      contradiction
  rcases standing.fits_another managed home member rfl elsewhere with ⟨h, isHeap, tidy, bytes⟩
  have isHeap : t.cache.heap? (target q.method) = some h := isHeap
  have free : t.cache.freeBytes? (target q.method) = some h.freeBytes := by
    rw [Cache.freeBytes?, isHeap]
    rfl
  have ranges : t.cache.largestFree (target q.method) < q.blob.padded := by
    apply Nat.lt_of_not_le
    intro room
    have ready := standing.usable.ready standing.active (Or.inl managed)
    have made : ∃ size after, t.relocate q.method [target q.method] (target q.method) =
        (.ok size, after) :=
      relocate_of_room held standing.reached member ready room
    rcases made with ⟨size, after, made⟩
    rcases (blocked move waits).2 with ⟨fault, _, noRoom⟩
    rw [aim, sameMethod] at noRoom
    cases made.symm.trans noRoom
  have compacted : target q.method ∈ t.compacted := by
    have unneeded := List.find?_eq_none.mp (Option.map_eq_none_iff.mp whole) move waits
    have fragmented : t.isFragmentedFor move = true := by
      simp [isFragmentedFor, sameMethod, found, aim, free, bytes, ranges]
    simpa [aim, managed, fragmented] using unneeded
  refine ⟨outside, managed, ⟨h.freeBytes, free, bytes⟩, ranges, ?_⟩
  intro undisturbed
  have packed := progress.packed _ compacted managed undisturbed
  rw [Cache.largestFree_of_whole isHeap tidy (packed.whole id)] at ranges
  exact absurd bytes (Nat.not_le.mpr ranges)

end Standing

/-! ## The last moves -/

/-- Everybody is where he belongs or is crowded out, as those are who still wait;
nobody is reported who is not. -/
structure Settling (target : Method → Partition) (before : Placements) (t : Transit)
    (moves : List Move) : Prop where
  placed : ∀ q ∈ t.placements, q.partition = target q.method ∨ Crowded target before t q
  waiting : ∀ q ∈ t.placements, q.method ∈ moves.map Move.method → Crowded target before t q
  counted : t.unplaced ≠ 0 → ∃ q ∈ t.placements, Crowded target before t q

/-- Who is crowded out stays so while the managed heaps are left alone. -/
theorem Crowded.of_heaps {r : Placement} (crowded : Crowded target before t q)
    (heaps : ∀ p, p.isManaged = true → after.cache.heap? p = t.cache.heap? p)
    (method : r.method = q.method) (padded : r.blob.padded = q.blob.padded)
    (outside : r.partition.isManaged = false) : Crowded target before after r := by
  have same := heaps _ crowded.managed
  have bytes := crowded.bytes
  have ranges := crowded.ranges
  rw [Cache.freeBytes?, ← same, ← Cache.freeBytes?] at bytes
  rw [Cache.largestFree, ← same, ← Cache.largestFree] at ranges
  constructor
  · exact outside
  · rw [method]
    exact crowded.managed
  · rw [method, padded]
    exact bytes
  · rw [method, padded]
    exact ranges
  · rw [method]
    exact crowded.disturbed

namespace Settling

variable {move : Move} {moves : List Move}

/-- When nothing more can be done, the last moves begin. -/
theorem of_blocked (standing : Standing target before code (.moving t))
    (progress : Progress target before (.moving t)) (blocked : t.Blocked)
    (whole : t.fragmentedTarget = none) (parked : t.parkable? = none) :
    Settling target before { t with pending := [] } t.pending := by
  have crowded (q : Placement) (member : q ∈ t.placements) (move : Move) (waits : move ∈ t.pending)
      (sameMethod : move.method = q.method) :
      Crowded target before { t with pending := [] } q :=
    (standing.crowded_of_waiting progress blocked whole parked member waits sameMethod).of_heaps
      (fun _ _ => rfl) rfl rfl
      (standing.outside_of_waiting progress blocked parked member waits sameMethod)
  constructor
  · intro q member
    rcases standing.owes.placed q member with home | ⟨move, waits, sameMethod⟩
    · exact Or.inl home
    · exact Or.inr (crowded q member move waits sameMethod)
  · intro q member waits
    rcases List.mem_map.mp waits with ⟨move, isWaiting, sameMethod⟩
    exact crowded q member move isWaiting sameMethod
  · exact fun reported => absurd progress.unplaced reported

/-- A last move that is made leads to the fallback partition. -/
theorem unmanaged_of_exchanges (settling : Settling target before t (move :: moves))
    (orderly : Orderly target (.settling (move :: moves) t))
    (exchanges : Exchanges t move.method (t.lastOrder move placed) placed b cache) :
    Crowded target before t placed ∧ b.partition.isManaged = false := by
  rcases Placements.mem_of_find? exchanges.found with ⟨member, sameMethod⟩
  have waits : placed.method ∈ (move :: moves).map Move.method := by
    rw [sameMethod]
    exact List.mem_cons_self
  have crowded := settling.waiting placed member waits
  have aim : move.target = target placed.method :=
    sameMethod ▸ orderly.aim move List.mem_cons_self
  refine ⟨crowded, ?_⟩
  have routable : t.cache.segmentation.Routable move.target := Or.inl (aim ▸ crowded.managed)
  rcases routable.allocationOrder (List.mem_of_mem_filter exchanges.partition) with there | aside
  · have fits := exchanges.fits
    rw [there, aim] at fits
    exact absurd fits (Nat.not_le.mpr crowded.ranges)
  · rw [aside]
    exact Plan.isManaged_fallback _

theorem of_relocated (settling : Settling target before t (move :: moves))
    (orderly : Orderly target (.settling (move :: moves) t)) (held : t.Held code)
    (exchanges : Exchanges t move.method (t.lastOrder move placed) placed b cache) (size : Nat) :
    Settling target before ((t.movedTo placed b cache passed).noteMoved move.method size)
      moves := by
  rcases settling.unmanaged_of_exchanges orderly exchanges with ⟨crowded, unmanaged⟩
  have heaps (p : Partition) (managed : p.isManaged = true) :
      cache.heap? p = t.cache.heap? p := by
    apply exchanges.heap?_eq
    · rintro rfl
      exact Bool.noConfusion (crowded.outside.symm.trans managed)
    · rintro rfl
      exact Bool.noConfusion (unmanaged.symm.trans managed)
  have moved : Crowded target before
      ((t.movedTo placed b cache passed).noteMoved move.method size) { placed with blob := b } :=
    crowded.of_heaps heaps rfl exchanges.padded unmanaged
  constructor
  · intro q member
    rcases exchanges.mem_put held member with rfl | ⟨_, old⟩
    · exact Or.inr moved
    · exact (settling.placed q old).imp id fun still => still.of_heaps heaps rfl rfl still.outside
  · intro q member waits
    rcases exchanges.mem_put held member with rfl | ⟨_, old⟩
    · exact moved
    · have still := settling.waiting q old (List.mem_cons_of_mem _ waits)
      exact still.of_heaps heaps rfl rfl still.outside
  · intro _
    have found := Placements.find?_put t.placements { placed with blob := b } placed.method
    rw [if_pos rfl] at found
    exact ⟨_, (Placements.mem_of_find? found).1, moved⟩

/-- Who is given up on is crowded out. -/
theorem giveUp (settling : Settling target before t (move :: moves))
    (found : t.placements.find? move.method = some placed) :
    Settling target before ((t.logged passed).giveUp move placed) moves := by
  rcases Placements.mem_of_find? found with ⟨member, sameMethod⟩
  have still (q : Placement) (crowded : Crowded target before t q) :
      Crowded target before ((t.logged passed).giveUp move placed) q :=
    crowded.of_heaps (fun _ _ => rfl) rfl rfl crowded.outside
  constructor
  · exact fun q isPlaced => (settling.placed q isPlaced).imp id (still q)
  · exact fun q isPlaced waits =>
      still q (settling.waiting q isPlaced (List.mem_cons_of_mem _ waits))
  · intro _
    have waits : placed.method ∈ (move :: moves).map Move.method := by
      rw [sameMethod]
      exact List.mem_cons_self
    exact ⟨placed, member, still placed (settling.waiting placed member waits)⟩

end Settling

/-- What holds at a stage of a pass with ample room. -/
def Stage.Realises (target : Method → Partition) (before : Placements) (stage : Stage) : Prop :=
  match stage with
  | .moving _ | .emptying _ _ _ => Progress target before stage
  | .settling moves t => Settling target before t moves
  | .done t => Settling target before t []

theorem Act.realises (act : Act first next) (standing : Standing target before code first)
    (realises : first.Realises target before) : next.Realises target before := by
  have held := standing.held
  have exactly (progress : Progress target before first) (isExact : next.isExact = true) :
      Progress target before next := act.progress standing progress isExact
  cases act with
  | arrive | skip | empty | displace | halt | emptied | park | leave =>
      exact exactly realises rfl
  | last blocked whole parked => exact .of_blocked standing realises blocked whole parked
  | @pass t move rest absent =>
      exact ⟨realises.placed, fun q member waits =>
        realises.waiting q member (List.mem_cons_of_mem _ waits), realises.counted⟩
  | @settle t after move rest placed size found made =>
      rcases attempt_eq_ok held found made with ⟨b, cache, passed, rfl, _, _, exchanges⟩
      exact realises.of_relocated standing.orderly held exchanges size
  | @giveUp t after move rest placed fault found isFull noRoom =>
      rcases attempt_eq_error held found noRoom isFull with ⟨passed, rfl, _⟩
      exact realises.giveUp found
  | @finish t nothing =>
      refine ⟨?_, fun _ _ waits => absurd waits List.not_mem_nil,
        fun reported => absurd realises.unplaced reported⟩
      intro q member
      rcases standing.owes.placed q member with home | ⟨move, waits, _⟩
      · exact Or.inl home
      · rw [nothing] at waits
        contradiction
  | settled => exact realises

theorem Leads.realises {last : Stage} (leads : Leads first last)
    (standing : Standing target before code first) (realises : first.Realises target before) :
    Standing target before code last ∧ last.Realises target before := by
  induction leads with
  | refl => exact ⟨standing, realises⟩
  | tail _ act inductionHypothesis =>
      exact ⟨act.standing inductionHypothesis.1,
        act.realises inductionHypothesis.1 inductionHypothesis.2⟩

end CodeLayout.Transit
