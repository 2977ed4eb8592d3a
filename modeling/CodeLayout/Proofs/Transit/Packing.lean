import CodeLayout.Proofs.Transit.Ample
import CodeLayout.Proofs.Transit.Whereabouts

/-!
# Packed partitions

With ample room in the fallback partition, everybody who belongs into a managed
partition leaves it when it is emptied.  If nobody else is there who belongs
into the other managed partition, the heap is empty then, and its free bytes are
one range.  They stay one range, for from then on nobody leaves.
-/

namespace CodeLayout.Transit

variable {target : Method → Partition} {before : Placements} {code : Method → Option ByteArray}
  {t after : Transit} {m : Method} {rank : Nat} {rest : List (Method × Nat)} {p : Partition}
  {placed : Placement} {b : Blob} {cache : Cache} {passed : List Event} {first next : Stage}

/-! ## Standing facts -/

/-- What holds at every stage of a pass that has anything to move.  The methods
that belong into a managed partition are ranked, and it could hold them all. -/
structure Standing (target : Method → Partition) (before : Placements)
    (code : Method → Option ByteArray) (stage : Stage) : Prop where
  held : stage.transit.Held code
  orderly : Orderly target stage
  owes : stage.Owes target
  roamed : Roamed target before stage.transit
  reached : stage.transit.safepoint.isReached = true
  usable : stage.transit.cache.Usable
  active : stage.transit.cache.segmentation.isActive .hot = true
  tidy : stage.transit.cache.Tidy
  ranked : ∀ q ∈ stage.transit.placements, (target q.method).isManaged = true → q.rank ≠ none
  fits : ∀ p, p.isManaged = true →
    weighed (fun n => if target n = p then 1 else 0) stage.transit.placements.loads ≤
      stage.transit.cache.segmentation.capacity p

theorem Act.standing (act : Act first next) (standing : Standing target before code first) :
    Standing target before code next := by
  have held := standing.held
  rcases act.steps.held held with ⟨heldNext, frame⟩
  rcases act.orderly held standing.orderly standing.owes with ⟨orderly, owes⟩
  constructor
  · exact heldNext
  · exact orderly
  · exact owes
  · exact act.roamed held standing.orderly standing.roamed
  · rw [frame.safepoint]
    exact standing.reached
  · exact standing.usable.of_sites frame.segmentation frame.sites
  · rw [frame.segmentation]
    exact standing.active
  · exact ((act.steps.evolves held).tidy held.stores.valid standing.tidy).2
  · intro q member managed
    rcases frame.exists_earlier member with ⟨r, old, same⟩
    have sameMethod : r.method = q.method := congrArg Prod.fst same
    have sameRank : r.rank = q.rank := congrArg (fun l => l.2.1) same
    rw [← sameRank]
    exact standing.ranked r old (sameMethod ▸ managed)
  · intro p managed
    rw [frame.loads_eq held heldNext, frame.segmentation]
    exact standing.fits p managed

namespace Standing

theorem ready (standing : Standing target before code first) :
    first.transit.cache.Ready first.transit.fallback :=
  standing.usable.ready standing.active (Or.inr rfl)

/-- With ample room no method waits for the fallback partition in vain. -/
theorem managed_of_blocked (standing : Standing target before code (.moving t))
    (ample : Ample target (.moving t)) (blocked : t.Blocked) {move : Move}
    (waits : move ∈ t.pending) : move.target.isManaged = true := by
  have onErrand : move.method ∈ (Stage.moving t).errands :=
    List.mem_append_left _ (List.mem_map_of_mem waits)
  have aim := standing.orderly.aim move waits
  rcases standing.orderly.routable _ onErrand with managed | isFallback
  · rw [aim]
    exact managed
  · have unmanaged : (target move.method).isManaged = false := by
      rw [isFallback]
      exact Plan.isManaged_fallback _
    have credit : 0 < (Stage.moving t).credit target move.method :=
      credit_pos (Or.inr ⟨unmanaged, List.mem_map_of_mem waits⟩)
    rcases ample.sends standing.held standing.reached standing.ready
      (standing.orderly.installed _ onErrand) credit move.target with ⟨size, after, made⟩
    rcases blocked move waits with ⟨_, fault, _, noRoom⟩
    rw [aim, isFallback] at noRoom
    rw [aim, isFallback] at made
    cases made.symm.trans noRoom

/-- With ample room the residents of a partition do not stop leaving it. -/
theorem not_halt (standing : Standing target before code (.emptying p ((m, rank) :: rest) t))
    (ample : Ample target (.emptying p ((m, rank) :: rest) t)) {fault : Fault}
    (noRoom : t.relocate m [t.fallback] t.fallback = (.error fault, t)) : False := by
  have onErrand : m ∈ (Stage.emptying p ((m, rank) :: rest) t).errands :=
    List.mem_append_right _ List.mem_cons_self
  rcases standing.orderly.leaves p _ t rfl with ⟨managed, leaves⟩
  have belongs := (leaves _ List.mem_cons_self).1
  have credit : 0 < (Stage.emptying p ((m, rank) :: rest) t).credit target m :=
    credit_pos (Or.inl ⟨belongs ▸ managed, Or.inr List.mem_cons_self⟩)
  rcases ample.sends standing.held standing.reached standing.ready
    (standing.orderly.installed _ onErrand) credit t.fallback with ⟨size, after, made⟩
  cases made.symm.trans noRoom

/-- With ample room every method that may be parked is parked. -/
theorem not_leave (standing : Standing target before code (.moving t))
    (ample : Ample target (.moving t)) (parkable : t.parkable? = some m) {fault : Fault}
    (noRoom : (t.tried m).relocate m [t.fallback] t.fallback = (.error fault, t.tried m)) :
    False := by
  rcases exists_move_of_parkable standing.orderly parkable with
    ⟨move, isPending, rfl, managed, notParked, _⟩
  have onErrand : move.method ∈ (Stage.moving t).errands :=
    List.mem_append_left _ (List.mem_map_of_mem isPending)
  have credit : 0 < (Stage.moving t).credit target move.method :=
    credit_pos (Or.inl ⟨managed, Or.inl notParked⟩)
  rcases standing.orderly.installed _ onErrand with ⟨placed, member, sameMethod⟩
  have room := ample.room member (sameMethod ▸ credit)
  have made : ∃ size after, (t.tried move.method).relocate placed.method [t.fallback] t.fallback =
      (.ok size, after) :=
    relocate_of_room (t := t.tried move.method) standing.held standing.reached member
      standing.ready room
  rcases made with ⟨size, after, made⟩
  rw [sameMethod] at made
  cases made.symm.trans noRoom

end Standing

/-! ## Partitions of one's own -/

/-- Nobody is in a partition before the pass who belongs into another managed
one. -/
def Undisturbed (target : Method → Partition) (before : Placements) (p : Partition) : Prop :=
  ∀ q ∈ before, q.partition = p → (target q.method).isManaged = true → target q.method = p

namespace Standing

/-- When no move can be made, only those are in an undisturbed partition who belong
there. -/
theorem home_of_blocked (standing : Standing target before code (.moving t))
    (ample : Ample target (.moving t)) (blocked : t.Blocked) (managed : p.isManaged = true)
    (undisturbed : Undisturbed target before p) :
    ∀ q ∈ t.placements, q.partition = p → target q.method = p := by
  intro q member isHere
  rcases standing.owes.placed q member with home | ⟨move, waits, sameMethod⟩
  · rw [← home, isHere]
  · have belongs := standing.managed_of_blocked ample blocked waits
    rw [standing.orderly.aim move waits, sameMethod] at belongs
    rcases standing.roamed q member with old | ⟨_, home | aside⟩
    · exact undisturbed q old isHere belongs
    · rw [← home, isHere]
    · have unmanaged : t.fallback.isManaged = false := Plan.isManaged_fallback _
      rw [← isHere, aside] at managed
      exact Bool.noConfusion (unmanaged.symm.trans managed)

/-- All of them are residents. -/
theorem resident_of_blocked (standing : Standing target before code (.moving t))
    (blocked : t.Blocked) {q : Placement} (member : q ∈ t.placements)
    (managed : q.partition.isManaged = true) (home : target q.method = q.partition) :
    q.method ∈ (t.residents q.partition).map Prod.fst := by
  have idle : ∀ move ∈ t.pending, move.method ≠ q.method := by
    intro move waits sameMethod
    have found : t.placements.find? q.method = some q := standing.held.find?_of_mem member
    apply (blocked move waits).1
    rw [standing.orderly.aim move waits, sameMethod, home, partitionOf?, found, Option.map_some]
  have ranked := standing.ranked q member (home ▸ managed)
  rcases Option.ne_none_iff_exists'.mp ranked with ⟨rank, isRank⟩
  refine List.mem_map.mpr ⟨(q.method, rank), ?_, rfl⟩
  rw [residents, List.mem_mergeSort]
  refine List.mem_filterMap.mpr ⟨q, List.mem_filter.mpr ⟨member, ?_⟩, by rw [isRank]; rfl⟩
  simpa using idle

/-- A managed partition has a heap of the planned size, which is tidy. -/
theorem exists_heap (standing : Standing target before code first) (managed : p.isManaged = true) :
    ∃ h, first.transit.cache.heap? p = some h ∧ h.Valid ∧ h.Tidy ∧
      h.capacity = first.transit.cache.segmentation.capacity p := by
  have valid := standing.held.stores.valid
  rcases standing.usable.site_of_routable standing.active (Or.inl managed) with
    ⟨s, isSite, isHere, backed, capacity⟩
  rcases List.mem_map.mp isSite with ⟨h, isHeap, rfl⟩
  exact ⟨h, isHere ▸ valid.heap?_of_mem isHeap, valid.heaps h isHeap,
    standing.tidy h isHeap backed, capacity⟩

/-- The free bytes of a managed partition that nobody is in are one range. -/
theorem pieces_of_empty (standing : Standing target before code first)
    (managed : p.isManaged = true) (empty : ∀ q ∈ first.transit.placements, q.partition ≠ p) :
    first.transit.cache.pieces p ≤ 1 := by
  rcases standing.exists_heap managed with ⟨h, found, valid, tidy, _⟩
  have nobody : first.transit.placements.filter (fun q => q.partition = p) = [] :=
    List.filter_eq_nil_iff.mpr fun q member => by simpa using empty q member
  have blobs := standing.held.heap_blobs found
  rw [nobody, List.map_nil, List.perm_nil] at blobs
  rw [Cache.pieces, found]
  exact valid.free_whole tidy blobs

end Standing

/-- The partition is being emptied. -/
def Stage.Empties (p : Partition) : Stage → Prop
  | .emptying q _ _ => q = p
  | _ => False

/-- Only those are in a partition who belong there.  When it is not being emptied,
its free bytes are one range. -/
structure Packed (target : Method → Partition) (p : Partition) (stage : Stage) : Prop where
  home : ∀ q ∈ stage.transit.placements, q.partition = p → target q.method = p
  leaving : stage.Empties p → ∀ q ∈ stage.transit.placements, q.partition = p →
    q.method ∈ stage.leaving.map Prod.fst
  whole : ¬ stage.Empties p → stage.transit.cache.pieces p ≤ 1

namespace Packed

theorem of_still (packed : Packed target p first) (same : SameCode first.transit next.transit)
    (still : ¬ first.Empties p) (stays : ¬ next.Empties p) : Packed target p next := by
  constructor
  · rw [same.placements]
    exact packed.home
  · exact fun empties => absurd empties stays
  · rw [same.cache]
    exact fun _ => packed.whole still

/-- Who is elsewhere than he belongs is not there. -/
theorem not_source (packed : Packed target p first)
    (found : first.transit.placements.find? m = some placed)
    (elsewhere : first.transit.partitionOf? m ≠ some (target m)) : placed.partition ≠ p := by
  rcases Placements.mem_of_find? found with ⟨member, rfl⟩
  intro isHere
  apply elsewhere
  rw [partitionOf?, found, Option.map_some, packed.home placed member isHere, isHere]

/-- Nobody leaves, and who arrives belongs there. -/
theorem of_relocated {order : List Partition} (packed : Packed target p first)
    (held : first.transit.Held code)
    (exchanges : Exchanges first.transit m order placed b cache)
    (same : SameCode (first.transit.movedTo placed b cache passed) next.transit)
    (source : placed.partition ≠ p) (goal : b.partition = p → target m = p)
    (still : ¬ first.Empties p) (stays : ¬ next.Empties p) : Packed target p next := by
  constructor
  · intro q member isHere
    rw [same.placements] at member
    rcases exchanges.mem_placements held member with ⟨rfl, there⟩ | ⟨_, old⟩
    · exact goal (there ▸ isHere)
    · exact packed.home q old isHere
  · exact fun empties => absurd empties stays
  · intro _
    rw [same.cache]
    exact Nat.le_trans (exchanges.pieces_le source.symm) (packed.whole still)

end Packed

/-- What the exact moves of a pass with ample room have brought about: nobody is
reported, who was parked waits outside, and the partitions that nobody disturbs
are packed once they are emptied. -/
structure Progress (target : Method → Partition) (before : Placements) (stage : Stage) : Prop where
  ample : Ample target stage
  unplaced : stage.transit.unplaced = 0
  aside : ∀ q ∈ stage.transit.placements, q.method ∈ stage.transit.parked →
    q.method ∈ stage.waiting.map Move.method → q.partition.isManaged = false
  packed : ∀ p ∈ stage.transit.compacted, p.isManaged = true → Undisturbed target before p →
    Packed target p stage

namespace Progress

/-- A partition is emptied by sending away all who are in it and do not wait. -/
theorem empty (progress : Progress target before (.moving t))
    (standing : Standing target before code (.moving t)) (blocked : t.Blocked)
    (ample : Ample target (.emptying p ((t.marked p).residents p) (t.marked p))) :
    Progress target before (.emptying p ((t.marked p).residents p) (t.marked p)) := by
  refine ⟨ample, progress.unplaced, progress.aside, ?_⟩
  intro q compacted managed undisturbed
  by_cases same : q = p
  · have home := standing.home_of_blocked progress.ample blocked managed undisturbed
    refine ⟨home, ?_, fun still => absurd same.symm still⟩
    intro _ r member isHere
    have resident := standing.resident_of_blocked blocked member (isHere ▸ managed)
      ((home r member isHere).trans isHere.symm)
    rw [isHere, same] at resident
    exact resident
  · have old : q ∈ t.compacted := (List.mem_cons.mp compacted).resolve_left same
    exact (progress.packed q old managed undisturbed).of_still ⟨rfl, rfl, rfl, rfl, rfl, rfl⟩ id
      (Ne.symm same)

/-- A resident leaves; he is outside, and the others are still there. -/
theorem displace (progress : Progress target before (.emptying p ((m, rank) :: rest) t))
    (standing : Standing target before code (.emptying p ((m, rank) :: rest) t))
    (exchanges : Exchanges t m [t.fallback] placed b cache) {size : Nat}
    (ample : Ample target
      (.emptying p rest ((t.movedTo placed b cache passed).queued m rank p size))) :
    Progress target before
      (.emptying p rest ((t.movedTo placed b cache passed).queued m rank p size)) := by
  have held := standing.held
  have source : t.partitionOf? m = some p :=
    ((standing.orderly.leaves p _ t rfl).2 _ List.mem_cons_self).2
  have unmanaged : b.partition.isManaged = false := by
    rw [List.mem_singleton.mp exchanges.partition]
    exact Plan.isManaged_fallback _
  refine ⟨ample, progress.unplaced, ?_, ?_⟩
  · intro q member isParked waits
    rcases exchanges.mem_placements held member with ⟨_, there⟩ | ⟨other, old⟩
    · rw [there, unmanaged]
    · rw [Stage.waiting, queued, List.map_append] at waits
      rcases List.mem_append.mp waits with waited | isMoved
      · exact progress.aside q old isParked waited
      · exact absurd (List.mem_singleton.mp isMoved) other
  · intro q compacted managed undisturbed
    have packed := progress.packed q compacted managed undisturbed
    have outside : b.partition ≠ q := by
      rintro rfl
      exact Bool.noConfusion (unmanaged.symm.trans managed)
    by_cases same : p = q
    · refine ⟨?_, ?_, fun still => absurd same still⟩
      · intro r member isHere
        rcases exchanges.mem_placements held member with ⟨_, there⟩ | ⟨_, old⟩
        · exact absurd (there.symm.trans isHere) outside
        · exact packed.home r old isHere
      · intro _ r member isHere
        rcases exchanges.mem_placements held member with ⟨_, there⟩ | ⟨other, old⟩
        · exact absurd (there.symm.trans isHere) outside
        · exact (List.mem_cons.mp (packed.leaving same r old isHere)).resolve_left other
    · refine packed.of_relocated held exchanges ⟨rfl, rfl, rfl, rfl, rfl, rfl⟩ ?_
        (fun there => absurd there outside) same same
      have found : t.placements.find? m = some placed := exchanges.found
      rw [partitionOf?, found, Option.map_some] at source
      rw [Option.some.inj source]
      exact same

/-- When all residents have left, nobody is there any more. -/
theorem emptied (progress : Progress target before (.emptying p [] t))
    (standing : Standing target before code (.emptying p [] t))
    (ample : Ample target (.moving t.sorted)) : Progress target before (.moving t.sorted) := by
  refine ⟨ample, progress.unplaced, ?_, ?_⟩
  · intro q member isParked waits
    exact progress.aside q member isParked
      (List.map_subset _ (List.mergeSort_perm _ _).subset waits)
  · intro q compacted managed undisturbed
    have packed := progress.packed q compacted managed undisturbed
    by_cases same : p = q
    · refine ⟨packed.home, fun empties => empties.elim, fun _ => ?_⟩
      apply standing.pieces_of_empty managed
      intro r member isHere
      have leaves := packed.leaving same r member isHere
      contradiction
    · exact packed.of_still ⟨rfl, rfl, rfl, rfl, rfl, rfl⟩ same id

/-- A method that waits moves, from where he does not belong. -/
theorem relocated {order : List Partition} (progress : Progress target before first)
    (held : first.transit.Held code)
    (exchanges : Exchanges first.transit m order placed b cache) (ample : Ample target next)
    (same : SameCode (first.transit.movedTo placed b cache passed) next.transit)
    (compacted : next.transit.compacted = first.transit.compacted)
    (elsewhere : first.transit.partitionOf? m ≠ some (target m))
    (goal : b.partition.isManaged = true → b.partition = target m)
    (aside : ∀ q ∈ next.transit.placements, q.method ∈ next.transit.parked →
      q.method ∈ next.waiting.map Move.method → q.partition.isManaged = false)
    (still : ∀ p, ¬ first.Empties p) (stays : ∀ p, ¬ next.Empties p) :
    Progress target before next := by
  refine ⟨ample, same.unplaced.trans progress.unplaced, aside, ?_⟩
  intro p isCompacted managed undisturbed
  rw [compacted] at isCompacted
  have packed := progress.packed p isCompacted managed undisturbed
  refine packed.of_relocated held exchanges same (packed.not_source exchanges.found elsewhere) ?_
    (still p) (stays p)
  rintro rfl
  exact (goal managed).symm

end Progress

/-- With ample room exact moves keep what they have brought about. -/
theorem Act.progress (act : Act first next) (standing : Standing target before code first)
    (progress : Progress target before first) (isExact : next.isExact = true) :
    Progress target before next := by
  have held := standing.held
  have orderly := standing.orderly
  have ample := act.ample held orderly standing.owes progress.ample isExact
  cases act with
  | @arrive t after kept rest move size pending elsewhere made =>
      have isPending : move ∈ t.pending := pending ▸ List.mem_append_right _ List.mem_cons_self
      have nodup := orderly.nodup.sublist (List.sublist_append_left _ _)
      rw [Stage.waiting, pending] at nodup
      rcases relocate_eq_ok held made with ⟨placed, b, cache, passed, rfl, _, _, exchanges⟩
      rw [orderly.aim move isPending] at elsewhere exchanges
      refine progress.relocated held exchanges ample ⟨rfl, rfl, rfl, rfl, rfl, rfl⟩ rfl elsewhere
        (fun _ => List.mem_singleton.mp exchanges.partition) ?_ (fun _ => id) (fun _ => id)
      intro q member isParked waits
      rcases exchanges.mem_placements held member with ⟨same, _⟩ | ⟨_, old⟩
      · exact absurd waits (same ▸ not_waiting_of_nodup kept nodup)
      · exact progress.aside q old isParked (List.map_subset _ (subset_of_struck pending) waits)
  | skip pending _ =>
      refine ⟨ample, progress.unplaced, ?_, ?_⟩
      · intro q member isParked waits
        exact progress.aside q member isParked
          (List.map_subset _ (subset_of_struck pending) waits)
      · intro p compacted managed undisturbed
        exact (progress.packed p compacted managed undisturbed).of_still
          ⟨rfl, rfl, rfl, rfl, rfl, rfl⟩ id id
  | empty blocked _ => exact progress.empty standing blocked ample
  | displace made =>
      rcases relocate_eq_ok held made with ⟨placed, b, cache, passed, rfl, _, _, exchanges⟩
      exact progress.displace standing exchanges ample
  | halt _ noRoom => exact (standing.not_halt progress.ample noRoom).elim
  | emptied => exact progress.emptied standing ample
  | @park t after m size blocked whole parkable made =>
      rcases exists_move_of_parkable orderly parkable with ⟨move, isPending, rfl, _⟩
      have elsewhere := (blocked move isPending).1
      rw [orderly.aim move isPending] at elsewhere
      rcases relocate_eq_ok (t := t.tried move.method) held made with
        ⟨placed, b, cache, passed, rfl, _, _, tried⟩
      have exchanges := tried.of_tried
      have unmanaged : b.partition.isManaged = false := by
        rw [List.mem_singleton.mp exchanges.partition]
        exact Plan.isManaged_fallback _
      refine progress.relocated held exchanges ample ⟨rfl, rfl, rfl, rfl, rfl, rfl⟩ rfl elsewhere
        (fun managed => Bool.noConfusion (unmanaged.symm.trans managed)) ?_ (fun _ => id)
        (fun _ => id)
      intro q member isParked waits
      rcases exchanges.mem_placements held member with ⟨_, there⟩ | ⟨other, old⟩
      · rw [there, unmanaged]
      · exact progress.aside q old ((List.mem_cons.mp isParked).resolve_left other) waits
  | leave _ _ parkable _ noRoom => exact (standing.not_leave progress.ample parkable noRoom).elim
  | last | pass | settle | giveUp | finish | settled => contradiction

end CodeLayout.Transit
