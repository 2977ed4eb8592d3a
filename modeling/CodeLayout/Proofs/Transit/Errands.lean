import CodeLayout.Proofs.Cache.Usable
import CodeLayout.Proofs.Transit.Duties
import CodeLayout.Proofs.Transit.Room
import CodeLayout.Proofs.Transit.Stages

/-!
# Errands of a run

The methods that a run may still relocate: those that wait for a move and those
that are to leave a partition which is being emptied.  Through all acts each of
them is on one errand at most, is installed, and belongs into a partition that
reordering uses.  So no relocation of a run ends in a fault, as long as these
partitions are ready.
-/

namespace CodeLayout.Transit

/-- The residents that still have to leave. -/
def Stage.leaving : Stage → List (Method × Nat)
  | .emptying _ residents _ => residents
  | _ => []

/-- The methods that may still be relocated. -/
def Stage.errands (stage : Stage) : List Method :=
  stage.waiting.map Move.method ++ stage.leaving.map Prod.fst

variable {target : Method → Partition} {code : Method → Option ByteArray} {t : Transit}
  {m : Method} {p : Partition} {placed : Placement} {b : Blob}
  {cache : Cache} {passed : List Event}

/-- What is known about the methods on errands. -/
structure Orderly (target : Method → Partition) (stage : Stage) : Prop where
  aim : ∀ move ∈ stage.waiting, move.target = target move.method
  nodup : stage.errands.Nodup
  installed : ∀ m ∈ stage.errands, ∃ p ∈ stage.transit.placements, p.method = m
  routable : ∀ m ∈ stage.errands, stage.transit.cache.segmentation.Routable (target m)
  /-- Residents leave the managed partition in which they belong. -/
  leaves : ∀ p residents t, stage = .emptying p residents t →
    p.isManaged = true ∧
      ∀ resident ∈ residents, target resident.1 = p ∧ t.partitionOf? resident.1 = some p

/-- A relocation changes the partition of its method only. -/
theorem partitionOf?_movedTo (t : Transit) (placed : Placement) (b : Blob) (cache : Cache)
    (passed : List Event) (n : Method) :
    (t.movedTo placed b cache passed).partitionOf? n =
      if n = placed.method then some b.partition else t.partitionOf? n := by
  rw [partitionOf?, movedTo, Placements.find?_put]
  split <;> rfl

/-- What is installed after some steps was installed before them, and the other way
round. -/
theorem Frame.exists_earlier {after : Transit} {p : Placement} (frame : Frame t after)
    (member : p ∈ after.placements) : ∃ q ∈ t.placements, q.lasting = p.lasting := by
  have isLasting := List.mem_map_of_mem (f := Placement.lasting) member
  rw [frame.placed] at isLasting
  exact List.mem_map.mp isLasting

theorem Frame.exists_placement {after : Transit} (frame : Frame t after)
    (installed : ∃ p ∈ t.placements, p.method = m) : ∃ p ∈ after.placements, p.method = m := by
  rcases installed with ⟨p, member, rfl⟩
  have isLasting := List.mem_map_of_mem (f := Placement.lasting) member
  rw [← frame.placed] at isLasting
  rcases List.mem_map.mp isLasting with ⟨q, isPlacement, same⟩
  exact ⟨q, isPlacement, congrArg Prod.fst same⟩

/-- The partition to compact is the managed target of a pending move. -/
theorem exists_move_of_fragmented (fragmented : t.fragmentedTarget = some p) :
    ∃ move ∈ t.pending, move.target = p ∧ p.isManaged = true := by
  rcases Option.map_eq_some_iff.mp fragmented with ⟨move, found, rfl⟩
  have holds := List.find?_some found
  simp only [Bool.and_eq_true] at holds
  exact ⟨move, List.mem_of_find?_eq_some found, rfl, holds.1.1⟩

/-- Residents are placed in their partition and do not wait for a move. -/
theorem mem_residents {resident : Method × Nat} (member : resident ∈ t.residents p) :
    ∃ q ∈ t.placements, q.method = resident.1 ∧ q.rank = some resident.2 ∧ q.partition = p ∧
      ∀ move ∈ t.pending, move.method ≠ resident.1 := by
  rw [residents, List.mem_mergeSort] at member
  rcases List.mem_filterMap.mp member with ⟨q, settled, isResident⟩
  rcases List.mem_filter.mp settled with ⟨isPlacement, holds⟩
  rcases Option.map_eq_some_iff.mp isResident with ⟨rank, ranked, rfl⟩
  simp only [Bool.and_eq_true, decide_eq_true_eq, Bool.not_eq_true', List.any_eq_false] at holds
  exact ⟨q, isPlacement, rfl, ranked, holds.1, holds.2⟩

theorem residents_nodup (held : t.Held code) (p : Partition) :
    ((t.residents p).map Prod.fst).Nodup := by
  have settled := (List.pairwise_map.mp held.methods).sublist
    (List.filter_sublist (p := fun placed : Placement =>
      placed.partition = p && !t.pending.any fun move => move.method = placed.method))
  rw [residents, ((List.mergeSort_perm _ _).map _).nodup_iff]
  apply List.pairwise_map.mpr
  apply List.pairwise_filterMap.mpr
  apply settled.imp
  intro q r differ resident isFirst other isSecond
  rcases Option.map_eq_some_iff.mp isFirst with ⟨_, _, rfl⟩
  rcases Option.map_eq_some_iff.mp isSecond with ⟨_, _, rfl⟩
  exact differ

/-! ## Acts -/

namespace Orderly

variable {first next : Stage}

/-- Errands that are done are struck off the list. -/
theorem of_sublist (orderly : Orderly target first) (frame : Frame first.transit next.transit)
    (kept : List Method) (same : kept.Perm next.errands) (sublist : kept.Sublist first.errands)
    (aim : ∀ move ∈ next.waiting, move.target = target move.method)
    (leaves : ∀ p residents t, next = .emptying p residents t →
      p.isManaged = true ∧
        ∀ resident ∈ residents, target resident.1 = p ∧ t.partitionOf? resident.1 = some p) :
    Orderly target next := by
  have subset (m : Method) (member : m ∈ next.errands) : m ∈ first.errands :=
    sublist.subset (same.mem_iff.mpr member)
  constructor
  · exact aim
  · exact same.nodup_iff.mp (orderly.nodup.sublist sublist)
  · exact fun m member => frame.exists_placement (orderly.installed m (subset m member))
  · intro m member
    rw [frame.segmentation]
    exact orderly.routable m (subset m member)
  · exact leaves

/-- Moves that are made, in whatever order the others wait. -/
theorem of_waiting (orderly : Orderly target first) (frame : Frame first.transit next.transit)
    {kept : List Move} (same : kept.Perm next.waiting) (sublist : kept.Sublist first.waiting)
    (still : ∀ p residents t, next ≠ .emptying p residents t) : Orderly target next := by
  have nobody : next.leaving = [] := by
    cases next with
    | emptying p residents t => exact absurd rfl (still p residents t)
    | moving | settling | done => rfl
  apply orderly.of_sublist frame (kept.map Move.method)
  · rw [Stage.errands, nobody, List.map_nil, List.append_nil]
    exact same.map _
  · exact (sublist.map _).trans (List.sublist_append_left _ _)
  · exact fun move member => orderly.aim move (sublist.subset (same.mem_iff.mpr member))
  · exact fun p residents t isNext => absurd isNext (still p residents t)

/-- The residents of a partition to which a pending move leads are there to
stay. -/
theorem empty (orderly : Orderly target (.moving t)) (held : t.Held code)
    (home : Owed target t t.pending) (fragmented : t.fragmentedTarget = some p) :
    Orderly target (.emptying p ((t.marked p).residents p) (t.marked p)) := by
  rcases exists_move_of_fragmented fragmented with ⟨_, _, _, managed⟩
  have atHome (resident : Method × Nat) (member : resident ∈ (t.marked p).residents p) :
      ∃ q ∈ t.placements, q.method = resident.1 ∧ q.partition = p ∧ target resident.1 = p := by
    rcases mem_residents member with ⟨q, isPlacement, isMethod, _, isHere, _⟩
    exact ⟨q, isPlacement, isMethod, isHere, residents_home home p resident member⟩
  constructor
  · exact orderly.aim
  · apply orderly.nodup.sublist (List.sublist_append_left _ _) |>.append (residents_nodup held p)
    intro m waits resides
    rcases List.mem_map.mp waits with ⟨move, isMove, rfl⟩
    rcases List.mem_map.mp resides with ⟨resident, member, same⟩
    rcases mem_residents member with ⟨_, _, _, _, _, idle⟩
    exact idle move isMove same.symm
  · intro m member
    rcases List.mem_append.mp member with waits | resides
    · exact orderly.installed m (List.mem_append_left _ waits)
    · rcases List.mem_map.mp resides with ⟨resident, isResident, rfl⟩
      rcases atHome resident isResident with ⟨q, isPlacement, isMethod, _⟩
      exact ⟨q, isPlacement, isMethod⟩
  · intro m member
    rcases List.mem_append.mp member with waits | resides
    · exact orderly.routable m (List.mem_append_left _ waits)
    · rcases List.mem_map.mp resides with ⟨resident, isResident, rfl⟩
      rcases atHome resident isResident with ⟨_, _, _, _, belongs⟩
      rw [belongs]
      exact Or.inl managed
  · rintro q residents u equal
    cases equal
    refine ⟨managed, ?_⟩
    intro resident member
    rcases atHome resident member with ⟨q, isPlacement, isMethod, isHere, belongs⟩
    have found := held.find?_of_mem isPlacement
    rw [isMethod] at found
    refine ⟨belongs, ?_⟩
    change (t.placements.find? resident.1).map Placement.partition = _
    rw [found, Option.map_some, isHere]

/-- A resident that left waits to come back. -/
theorem displace (held : t.Held code) {after : Transit} {rank size : Nat}
    {rest : List (Method × Nat)}
    (orderly : Orderly target (.emptying p ((m, rank) :: rest) t))
    (made : t.relocate m [t.fallback] t.fallback = (.ok size, after)) :
    Orderly target (.emptying p rest (after.queued m rank p size)) := by
  rcases orderly.leaves p _ t rfl with ⟨managed, leaves⟩
  have pending : after.pending = t.pending := by
    have same := (relocate_sameDuties t m [t.fallback] t.fallback).pending
    rwa [made] at same
  have act : Act (.emptying p ((m, rank) :: rest) t)
    (.emptying p rest (after.queued m rank p size)) := .displace made
  rcases act.steps.held held with ⟨_, frame⟩
  rcases relocate_eq_ok held made with ⟨placed, b, cache, passed, rfl, _, _, exchanges⟩
  rcases Placements.mem_of_find? exchanges.found with ⟨_, rfl⟩
  apply orderly.of_sublist frame _ (.refl _)
  · simp only [Stage.errands, Stage.waiting, Stage.leaving, queued, pending, List.map_append,
      List.map_cons, List.map_nil, List.append_assoc, List.singleton_append]
    exact List.Sublist.refl _
  · intro move member
    simp only [Stage.waiting, queued, pending] at member
    rcases List.mem_append.mp member with old | new
    · exact orderly.aim move old
    · rw [List.mem_singleton.mp new]
      exact (leaves _ List.mem_cons_self).1.symm
  · rintro q residents u equal
    cases equal
    refine ⟨managed, ?_⟩
    intro resident member
    rcases leaves resident (List.mem_cons_of_mem _ member) with ⟨belongs, isHere⟩
    refine ⟨belongs, ?_⟩
    have nodup := orderly.nodup.sublist (List.sublist_append_right _ _)
    simp only [Stage.leaving, List.map_cons, List.nodup_cons] at nodup
    have other : resident.1 ≠ placed.method := fun same =>
      nodup.1 (same ▸ List.mem_map_of_mem member)
    change (t.movedTo placed b cache passed).partitionOf? resident.1 = some p
    rw [partitionOf?_movedTo, if_neg other]
    exact isHere

end Orderly

/-- As long as moves are made exactly, every method is where it is to be or waits
for a move. -/
def Stage.Owes (target : Method → Partition) : Stage → Prop
  | .moving t | .emptying _ _ t => Owed target t t.pending
  | .settling _ _ | .done _ => True

/-- Each act keeps the errands in order and loses nobody. -/
theorem Act.orderly {first next : Stage} (act : Act first next)
    (held : first.transit.Held code) (orderly : Orderly target first)
    (owes : first.Owes target) : Orderly target next ∧ next.Owes target := by
  rcases act.steps.held held with ⟨_, frame⟩
  cases act with
  | @arrive t after kept rest move size pending elsewhere made =>
      have owed : Owed target t (kept ++ move :: rest) := pending ▸ owes
      constructor
      · apply orderly.of_waiting frame (.refl _) _ (by simp)
        simp only [Stage.waiting, pending]
        exact (List.sublist_cons_self move rest).append_left kept
      · rcases relocate_eq_ok held made with ⟨placed, b, cache, passed, rfl, _, _, exchanges⟩
        have dropped : Owed target (t.movedTo placed b cache passed) (kept ++ rest) :=
          owed.drop fun q member => by
              rcases exchanges.mem_placements held member with ⟨sameMethod, atBlob⟩ | other
              · apply Or.inr
                rw [atBlob, sameMethod,
                  ← owed.aim move (List.mem_append_right _ List.mem_cons_self)]
                exact List.mem_singleton.mp exchanges.partition
              · exact Or.inl other
        exact ⟨dropped.aim, dropped.placed⟩
  | @skip t kept rest move pending inPlace =>
      have owed : Owed target t (kept ++ move :: rest) := pending ▸ owes
      constructor
      · apply orderly.of_waiting frame (.refl _) _ (by simp)
        simp only [Stage.waiting, pending]
        exact (List.sublist_cons_self move rest).append_left kept
      · have dropped : Owed target t (kept ++ rest) := owed.drop fun q member => by
          by_cases same : q.method = move.method
          · apply Or.inr
            have found : t.placements.find? q.method = some q := held.find?_of_mem member
            rw [partitionOf?, ← same, found, Option.map_some] at inPlace
            rw [same, ← owed.aim move (List.mem_append_right _ List.mem_cons_self)]
            exact Option.some.inj inPlace
          · exact Or.inl ⟨same, member⟩
        exact ⟨dropped.aim, dropped.placed⟩
  | empty _ fragmented =>
      exact ⟨orderly.empty held owes fragmented, owes.aim, owes.placed⟩
  | @displace t after p m rank size rest made =>
      rcases orderly.leaves p _ t rfl with ⟨_, leaves⟩
      have belongs := (leaves _ List.mem_cons_self).1
      refine ⟨orderly.displace held made, ?_⟩
      rcases relocate_eq_ok held made with ⟨placed, b, cache, passed, rfl, _, _, exchanges⟩
      have queued := owes.add ⟨m, (t.movedTo placed b cache passed).fallback, p, some rank⟩
        belongs.symm
      have added : Owed target (t.movedTo placed b cache passed) _ :=
        queued.elsewhere ⟨_, List.mem_append_right _ List.mem_cons_self, rfl⟩ fun q member =>
          (exchanges.mem_placements held member).imp And.left And.right
      exact ⟨added.aim, added.placed⟩
  | halt _ _ | emptied =>
      have sorted := owes.of_perm (List.mergeSort_perm _ Move.before).symm
      constructor
      · apply orderly.of_waiting frame (List.mergeSort_perm _ _).symm (List.Sublist.refl _)
        simp
      · exact ⟨sorted.aim, sorted.placed⟩
  | @park t after m size _ _ parkable made =>
      have pending : after.pending = t.pending := by
        have same := (relocate_sameDuties (t.tried m) m [t.fallback] t.fallback).pending
        rwa [made] at same
      rcases parkable_isFresh parkable with ⟨move, isMove, sameMethod, _⟩
      constructor
      · apply orderly.of_waiting frame (.refl _) _ (by simp)
        simp only [Stage.waiting, noteMoved, pending]
        exact List.Sublist.refl _
      · rcases relocate_eq_ok (t := t.tried m) held made with
          ⟨placed, b, cache, passed, rfl, _, _, exchanges⟩
        have parked : Owed target ((t.tried m).movedTo placed b cache passed) t.pending :=
          owes.elsewhere ⟨move, isMove, sameMethod⟩ fun q member =>
            (exchanges.mem_placements (t := t.tried m) held member).imp And.left And.right
        exact ⟨parked.aim, parked.placed⟩
  | leave _ _ _ _ _ =>
      exact ⟨orderly.of_waiting frame (.refl _) (List.Sublist.refl _) (by simp),
        owes.aim, owes.placed⟩
  | last _ _ _ =>
      exact ⟨orderly.of_waiting frame (.refl _) (List.Sublist.refl _) (by simp), trivial⟩
  | pass _ | settle _ _ | giveUp _ _ _ =>
      exact ⟨orderly.of_waiting frame (.refl _) (List.sublist_cons_self _ _) (by simp), trivial⟩
  | finish _ =>
      exact ⟨orderly.of_waiting frame (.refl _) (List.nil_sublist _) (by simp), trivial⟩
  | settled => exact ⟨orderly.of_waiting frame (.refl _) (List.Sublist.refl _) (by simp), trivial⟩

theorem Leads.orderly {first last : Stage} (leads : Leads first last)
    (held : first.transit.Held code) (orderly : Orderly target first)
    (owes : first.Owes target) : Orderly target last ∧ last.Owes target := by
  induction leads with
  | refl => exact ⟨orderly, owes⟩
  | tail before act inductionHypothesis =>
      exact act.orderly (Leads.steps before |>.held held).1 inductionHypothesis.1
        inductionHypothesis.2

/-! ## No faults -/

/-- At a safepoint a run does not fail, whatever stage it is at. -/
theorem Orderly.not_fails {stage : Stage} (orderly : Orderly target stage)
    (held : stage.transit.Held code) (reached : stage.transit.safepoint.isReached = true)
    (usable : stage.transit.cache.Usable)
    (active : stage.transit.cache.segmentation.isActive .hot = true) (fault : Fault) :
    ¬ stage.Fails fault := by
  have ready (p : Partition) (routable : stage.transit.cache.segmentation.Routable p) :
      ∀ q ∈ [p], stage.transit.cache.Ready q := by
    intro q member
    rw [List.mem_singleton.mp member]
    exact usable.ready active routable
  intro fails
  cases fails with
  | @exact t move pending failed other =>
      have onErrand : move.method ∈ (Stage.moving t).errands :=
        List.mem_append_left _ (List.mem_map_of_mem pending)
      have routable := orderly.routable _ onErrand
      rw [← orderly.aim move pending] at routable
      have isFull := isFull_of_relocate held reached (orderly.installed _ onErrand)
        (ready _ routable) (by simp) failed
      simp [isFull] at other
  | @displace t p m rank rest failed other =>
      have onErrand : m ∈ (Stage.emptying p ((m, rank) :: rest) t).errands :=
        List.mem_append_right _ List.mem_cons_self
      have isFull := isFull_of_relocate held reached (orderly.installed _ onErrand)
        (ready _ (Or.inr rfl)) (by simp) failed
      simp [isFull] at other
  | @park t m blocked parkable failed other =>
      rcases parkable_isFresh parkable with ⟨move, pending, rfl, _⟩
      have onErrand : move.method ∈ (Stage.moving t).errands :=
        List.mem_append_left _ (List.mem_map_of_mem pending)
      have isFull := isFull_of_relocate (t := t.tried move.method) held reached
        (orderly.installed _ onErrand) (ready _ (Or.inr rfl)) (by simp) failed
      simp [isFull] at other
  | @settle t move rest placed found failed other =>
      have onErrand : move.method ∈ (Stage.settling (move :: rest) t).errands :=
        List.mem_append_left _ List.mem_cons_self
      have routable := orderly.routable _ onErrand
      rw [← orderly.aim move List.mem_cons_self] at routable
      unfold attempt at failed
      split at failed
      · cases failed
        contradiction
      · rename_i some
        have isFull := isFull_of_relocate held reached (orderly.installed _ onErrand)
          (fun q member =>
            usable.ready active (routable.of_allocationOrder (List.mem_of_mem_filter member)))
          (fun nothing => some (List.isEmpty_iff.mpr nothing)) failed
        simp [isFull] at other

/-- At a safepoint a run ends well, and all its stages are reached by acts. -/
theorem run_succeeds (held : t.Held code) (reached : t.safepoint.isReached = true)
    (usable : t.cache.Usable) (active : t.cache.segmentation.isActive .hot = true)
    (orderly : Orderly target (.moving t)) (owed : Owed target t t.pending) :
    t.run.1 = .ok () ∧ Leads (.moving t) (.done t.run.2) := by
  have ends := run_ends held
  cases result : t.run.1 with
  | ok _ =>
      rw [result] at ends
      exact ⟨rfl, ends⟩
  | error fault =>
      rw [result] at ends
      rcases ends with ⟨stage, leads, fails⟩
      rcases leads.steps.held held with ⟨heldThere, frame⟩
      have safepoint : stage.transit.safepoint = t.safepoint := frame.safepoint
      have segmentation : stage.transit.cache.segmentation = t.cache.segmentation :=
        frame.segmentation
      exact absurd fails ((leads.orderly held orderly owed).1.not_fails heldThere
        (safepoint ▸ reached) (usable.of_sites segmentation frame.sites) (segmentation ▸ active)
        fault)

end CodeLayout.Transit
