import CodeLayout.Proofs.Transit.Relocation

/-!
# Duties of a pass

Every method has a partition where it is to be.  Through all rounds of a pass a
method is there already, or some pending move is to bring it there; parking and
compaction do not lose anyone.  What the last moves cannot bring there is
either reported or in a partition that the target may overflow into.
-/

namespace CodeLayout

/-- Code may be allocated in a partition itself, or in an overflow target, which
is never a managed partition. -/
theorem Segmentation.mem_allocationOrder {s : Segmentation} {p q : Partition}
    (member : q ∈ s.allocationOrder p) :
    q = p ∨ q.isManaged = false ∧ p.mayOverflowInto q = true := by
  rcases mem_allocationOrder_iff.mp member with ⟨_, same | isTarget⟩
  · exact Or.inl same
  · apply Or.inr
    revert isTarget
    cases p <;> cases q <;> decide

namespace Transit

variable {code : Method → Option ByteArray} {target : Method → Partition} {t : Transit}
  {moves : List Move}

/-- Every method is where it is to be, or one of the moves brings it there. -/
structure Owed (target : Method → Partition) (t : Transit) (moves : List Move) : Prop where
  aim : ∀ move ∈ moves, move.target = target move.method
  placed : ∀ p ∈ t.placements,
    p.partition = target p.method ∨ ∃ move ∈ moves, move.method = p.method

/-- A relocation replaces the placement of its method only. -/
theorem Relocates.mem_put {m : Method} {order : List Partition} {placed : Placement} {b : Blob}
    {cache : Cache} (relocates : Relocates t m order placed b cache) (held : t.Held code)
    {p : Placement} (member : p ∈ t.placements.put { placed with blob := b }) :
    p = { placed with blob := b } ∨ p.method ≠ m ∧ p ∈ t.placements := by
  rcases Placements.mem_of_find? relocates.found with ⟨_, rfl⟩
  obtain ⟨before, rest, split, putSplit⟩ :=
    Placements.put_eq (q := { placed with blob := b }) relocates.found
  have nodup := held.methods
  rw [split] at nodup
  rw [putSplit] at member
  rw [split]
  rcases List.mem_append.mp member with first | last
  · apply Or.inr
    constructor
    · exact key_ne_of_nodup nodup (Or.inl first)
    · exact List.mem_append_left _ first
  · rcases List.mem_cons.mp last with rfl | inRest
    · exact Or.inl rfl
    · apply Or.inr
      constructor
      · exact key_ne_of_nodup nodup (Or.inr inRest)
      · exact List.mem_append_right _ (List.mem_cons_of_mem _ inRest)

theorem Relocates.mem_placements {m : Method} {order : List Partition} {placed : Placement}
    {b : Blob} {cache : Cache} (relocates : Relocates t m order placed b cache)
    (held : t.Held code) {p : Placement}
    (member : p ∈ t.placements.put { placed with blob := b }) :
    p.method = m ∧ p.partition = b.partition ∨ p.method ≠ m ∧ p ∈ t.placements := by
  rcases relocates.mem_put held member with rfl | other
  · exact Or.inl ⟨(Placements.mem_of_find? relocates.found).2, rfl⟩
  · exact Or.inr other

namespace Owed

/-- A method that is where it is to be needs no move. -/
theorem drop {kept rest : List Move} {move : Move}
    (owed : Owed target t (kept ++ move :: rest)) {after : Transit}
    (placed : ∀ p ∈ after.placements, p.method ≠ move.method ∧ p ∈ t.placements ∨
      p.partition = target p.method) :
    Owed target after (kept ++ rest) := by
  constructor
  · intro other member
    apply owed.aim
    rcases List.mem_append.mp member with first | last
    · exact List.mem_append_left _ first
    · exact List.mem_append_right _ (List.mem_cons_of_mem _ last)
  · intro p member
    rcases placed p member with ⟨differs, old⟩ | inPlace
    · rcases owed.placed p old with inPlace | ⟨other, isMove, sameMethod⟩
      · exact Or.inl inPlace
      · have stays : other ∈ kept ++ rest := by
          rcases List.mem_append.mp isMove with first | last
          · exact List.mem_append_left _ first
          · rcases List.mem_cons.mp last with rfl | inRest
            · exact absurd sameMethod.symm differs
            · exact List.mem_append_right _ inRest
        exact Or.inr ⟨other, stays, sameMethod⟩
    · exact Or.inl inPlace

/-- A method that is brought elsewhere keeps its move. -/
theorem elsewhere {m : Method} (owed : Owed target t moves) {after : Transit}
    (waits : ∃ move ∈ moves, move.method = m)
    (placed : ∀ p ∈ after.placements, p.method = m ∨ p ∈ t.placements) :
    Owed target after moves := by
  constructor
  · exact owed.aim
  · intro p member
    rcases placed p member with rfl | old
    · exact Or.inr waits
    · exact owed.placed p old

/-- Another move is added that leads where it should. -/
theorem add (owed : Owed target t moves) (move : Move) (aim : move.target = target move.method) :
    Owed target t (moves ++ [move]) := by
  constructor
  · intro other member
    rcases List.mem_append.mp member with old | new
    · exact owed.aim other old
    · rw [List.mem_singleton.mp new]
      exact aim
  · intro p member
    rcases owed.placed p member with inPlace | ⟨other, isMove, sameMethod⟩
    · exact Or.inl inPlace
    · exact Or.inr ⟨other, List.mem_append_left _ isMove, sameMethod⟩

theorem of_perm (owed : Owed target t moves) {others : List Move} (same : moves.Perm others) :
    Owed target t others := by
  constructor
  · intro move member
    exact owed.aim move (same.mem_iff.mpr member)
  · intro p member
    rcases owed.placed p member with inPlace | ⟨move, isMove, sameMethod⟩
    · exact Or.inl inPlace
    · exact Or.inr ⟨move, same.mem_iff.mp isMove, sameMethod⟩

end Owed

/-- A sweep brings methods to their targets and keeps the other moves. -/
theorem sweep_owed (held : t.Held code) (kept moves : List Move)
    (owed : Owed target t (kept ++ moves)) (noFault : (t.sweep moves).fault = none) :
    Owed target (t.sweep moves).transit (kept ++ (t.sweep moves).remaining) := by
  induction moves generalizing t kept with
  | nil => exact owed
  | cons move rest inductionHypothesis =>
      have aim : move.target = target move.method :=
        owed.aim move (List.mem_append_right _ List.mem_cons_self)
      rw [sweep] at noFault ⊢
      by_cases inPlace : t.partitionOf? move.method = some move.target
      · rw [if_pos inPlace] at noFault ⊢
        apply inductionHypothesis held kept _ noFault
        apply owed.drop
        intro p member
        by_cases same : p.method = move.method
        · apply Or.inr
          rw [partitionOf?, ← same, held.find?_of_mem member, Option.map_some] at inPlace
          rw [same, ← aim]
          exact Option.some.inj inPlace
        · exact Or.inl ⟨same, member⟩
      · rw [if_neg inPlace] at noFault ⊢
        rcases relocate_cases held move.method [move.target] move.target with
          ⟨fault, after, equal, fails⟩ | ⟨placed, b, cache, events, equal, _, relocates⟩
        · rw [equal] at noFault ⊢
          dsimp only at noFault ⊢
          split at noFault
          · rename_i full
            rw [if_pos full]
            rcases fails.eq_logged full with ⟨passed, rfl, _⟩
            have waiting := inductionHypothesis (t := t.logged passed) held (kept ++ [move])
              (by simpa using ⟨owed.aim, owed.placed⟩) noFault
            simpa using waiting
          · contradiction
        · rw [equal] at noFault ⊢
          apply inductionHypothesis (relocates.held held) kept _ noFault
          apply owed.drop
          intro p member
          rcases relocates.mem_placements held member with ⟨sameMethod, atBlob⟩ | other
          · apply Or.inr
            rw [atBlob, sameMethod, ← aim]
            exact List.mem_singleton.mp relocates.partition
          · exact Or.inl other

theorem sweeps_owed (held : t.Held code) (moves : List Move) (owed : Owed target t moves)
    (noFault : (t.sweeps moves).fault = none) :
    Owed target (t.sweeps moves).transit (t.sweeps moves).remaining := by
  fun_induction sweeps t moves with
  | case1 t moves s again inductionHypothesis =>
      have swept := sweep_owed held [] moves owed again.1
      exact inductionHypothesis ((sweep_steps t moves).held held).1 swept noFault
  | case2 t moves s again => exact sweep_owed held [] moves owed noFault

theorem makeExact_owed (held : t.Held code) (owed : Owed target t t.pending)
    (noFault : t.makeExact.1 = none) : Owed target t.makeExact.2 t.makeExact.2.pending := by
  have swept := sweeps_owed held t.pending owed noFault
  exact ⟨swept.aim, swept.placed⟩

/-! ## Compaction and parking -/

/-- Each resident that leaves queues up to come back. -/
theorem displace_owed (held : t.Held code) (p : Partition) (residents : List (Method × Nat))
    (home : ∀ resident ∈ residents, target resident.1 = p) (owed : Owed target t t.pending) :
    Owed target (t.displace p residents).2 (t.displace p residents).2.pending := by
  induction residents generalizing t with
  | nil => exact owed
  | cons resident rest inductionHypothesis =>
      rcases resident with ⟨m, rank⟩
      have homeRest : ∀ resident ∈ rest, target resident.1 = p := fun resident member =>
        home resident (List.mem_cons_of_mem _ member)
      rw [displace]
      rcases relocate_cases held m [t.fallback] t.fallback with
        ⟨fault, after, equal, ⟨_, _, _, _⟩⟩ | ⟨placed, b, cache, events, equal, _, relocates⟩
      · rw [equal]
        dsimp only
        split <;> exact ⟨owed.aim, owed.placed⟩
      · rw [equal]
        dsimp only
        apply inductionHypothesis (relocates.held held) homeRest
        have aim : target m = p := home _ List.mem_cons_self
        apply (owed.add ⟨m, (t.movedTo placed b cache events).fallback, p, some rank⟩
          aim.symm).elsewhere
        · exact ⟨_, List.mem_append_right _ List.mem_cons_self, rfl⟩
        · intro q member
          rcases relocates.mem_placements held member with ⟨sameMethod, _⟩ | ⟨_, old⟩
          · exact Or.inl sameMethod
          · exact Or.inr old

/-- The residents of a partition belong there. -/
theorem residents_home (owed : Owed target t t.pending) (p : Partition) :
    ∀ resident ∈ t.residents p, target resident.1 = p := by
  intro resident member
  rw [residents, List.mem_mergeSort] at member
  rcases List.mem_filterMap.mp member with ⟨placed, settled, isResident⟩
  rcases List.mem_filter.mp settled with ⟨isPlacement, holds⟩
  rw [Bool.and_eq_true, decide_eq_true_iff] at holds
  rcases holds with ⟨inPartition, noMove⟩
  rcases Option.map_eq_some_iff.mp isResident with ⟨rank, _, rfl⟩
  rcases owed.placed placed isPlacement with inPlace | ⟨move, isMove, sameMethod⟩
  · rw [← inPlace]
    exact inPartition
  · have waits : (t.pending.any fun move => move.method = placed.method) = true :=
      List.any_eq_true.mpr ⟨move, isMove, by simpa using sameMethod⟩
    simp [waits] at noMove

theorem compact_owed (held : t.Held code) (p : Partition) (owed : Owed target t t.pending) :
    Owed target (t.compact p).2 (t.compact p).2.pending := by
  have displaced := displace_owed (t := { t with compacted := p :: t.compacted }) held p
    (residents { t with compacted := p :: t.compacted } p) (residents_home owed p)
    ⟨owed.aim, owed.placed⟩
  unfold compact
  dsimp only
  split
  · rename_i after equal
    rw [equal] at displaced
    have sorted := displaced.of_perm (List.mergeSort_perm after.pending Move.before).symm
    exact ⟨sorted.aim, sorted.placed⟩
  · rename_i fault after equal
    rw [equal] at displaced
    exact displaced

theorem park_owed (held : t.Held code) {m : Method} (found : t.parkable? = some m)
    (owed : Owed target t t.pending) : Owed target (t.park m).2 (t.park m).2.pending := by
  rcases parkable_isFresh found with ⟨move, member, sameMethod, _⟩
  unfold park
  dsimp only
  rcases relocate_cases (t := { t with parked := m :: t.parked }) held m
      [Transit.fallback { t with parked := m :: t.parked }]
      (Transit.fallback { t with parked := m :: t.parked }) with
    ⟨fault, after, equal, ⟨_, _, _, _⟩⟩ | ⟨placed, b, cache, events, equal, _, relocates⟩
  · rw [equal]
    dsimp only
    split <;> exact ⟨owed.aim, owed.placed⟩
  · rw [equal]
    apply owed.elsewhere ⟨move, member, sameMethod⟩
    intro q isPlacement
    rcases relocates.mem_placements held isPlacement with ⟨same, _⟩ | ⟨_, old⟩
    · exact Or.inl same
    · exact Or.inr old

end Transit

end CodeLayout
