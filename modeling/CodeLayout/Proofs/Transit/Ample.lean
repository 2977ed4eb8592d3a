import CodeLayout.Proofs.Placement.Planning
import CodeLayout.Proofs.Transit.Reports
import Mathlib.Algebra.Ring.Nat

/-!
# Ample room in the fallback partition

A run sends a method to the fallback partition once to park it and once to
empty the partition that it belongs into, or once because that is its target.
If the longest free range of the fallback partition could take all of this, it
can take what is left of it at every stage: each arrival takes off no more than
its padded size, and it uses up a credit of its method.
-/

namespace CodeLayout

namespace Transit

variable {target : Method → Partition} {code : Method → Option ByteArray} {t after : Transit}
  {m : Method} {p : Partition} {placed : Placement} {b : Blob} {cache : Cache}
  {passed : List Event} {first next : Stage}

/-! ## Weights -/

/-- The padded bytes of all loads, each one as often as a weight says. -/
def weighed (weight : Method → Nat) (loads : List (Method × Nat)) : Nat :=
  (loads.map fun l => weight l.1 * l.2).sum

section Weights

variable {light heavy : Method → Nat} {loads : List (Method × Nat)} {size bound : Nat}

theorem weighed_mono (le : ∀ n, light n ≤ heavy n) : weighed light loads ≤ weighed heavy loads := by
  induction loads with
  | nil => exact Nat.le_refl _
  | cons l rest inductionHypothesis =>
      exact Nat.add_le_add (Nat.mul_le_mul_right _ (le l.1)) inductionHypothesis

/-- A weight that is lower for some method saves its bytes. -/
theorem weighed_add_le (le : ∀ n, light n ≤ heavy n) (lower : light m < heavy m)
    (member : (m, size) ∈ loads) : weighed light loads + size ≤ weighed heavy loads := by
  induction loads with
  | nil => contradiction
  | cons l rest inductionHypothesis =>
      change light l.1 * l.2 + weighed light rest + size ≤ heavy l.1 * l.2 + weighed heavy rest
      rcases List.mem_cons.mp member with rfl | inRest
      · have saved : (light m + 1) * size ≤ heavy m * size := Nat.mul_le_mul_right _ lower
        have others : weighed light rest ≤ weighed heavy rest := weighed_mono le
        rw [Nat.add_mul, Nat.one_mul] at saved
        dsimp only
        omega
      · have saved := inductionHypothesis inRest
        have here := Nat.mul_le_mul_right l.2 (le l.1)
        omega

theorem weighed_le (most : ∀ n, light n ≤ bound) :
    weighed light loads ≤ bound * (loads.map Prod.snd).sum := by
  induction loads with
  | nil => exact Nat.zero_le _
  | cons l rest inductionHypothesis =>
      rw [List.map_cons, List.sum_cons, Nat.mul_add]
      exact Nat.add_le_add (Nat.mul_le_mul_right _ (most l.1)) inductionHypothesis

/-- Where a weight only says which placements count, it sums up their padded sizes. -/
theorem weighed_loads {ps : Placements} {chosen : Placement → Bool}
    (agrees : ∀ q ∈ ps, light q.method = if chosen q then 1 else 0) :
    weighed light ps.loads = ((ps.filter chosen).map fun q => q.blob.padded).sum := by
  induction ps with
  | nil => rfl
  | cons q rest inductionHypothesis =>
      have others := inductionHypothesis fun r member => agrees r (List.mem_cons_of_mem q member)
      change light q.method * q.blob.padded + weighed light (Placements.loads rest) = _
      rw [others, agrees q List.mem_cons_self, List.filter_cons]
      split
      · rw [Nat.one_mul, List.map_cons, List.sum_cons]
      · rw [Nat.zero_mul, Nat.zero_add]

end Weights

/-! ## Credits -/

/-- How often a run may still send a method to the fallback partition. -/
def Stage.credit (target : Method → Partition) (stage : Stage) (m : Method) : Nat :=
  if (target m).isManaged then
    (if m ∈ stage.transit.parked then 0 else 1) +
      (if target m ∈ stage.transit.compacted then 0 else 1) +
      (if m ∈ stage.leaving.map Prod.fst then 1 else 0)
  else if m ∈ stage.waiting.map Move.method then 1 else 0

/-- At the beginning every method has two credits at most. -/
theorem credit_le (target : Method → Partition) (t : Transit) (m : Method) :
    (Stage.moving t).credit target m ≤ 2 := by
  simp only [Stage.credit, Stage.leaving, List.map_nil, List.not_mem_nil, if_false]
  split_ifs <;> decide

theorem credit_pos {stage : Stage}
    (left : (target m).isManaged = true ∧
        (m ∉ stage.transit.parked ∨ m ∈ stage.leaving.map Prod.fst) ∨
      (target m).isManaged = false ∧ m ∈ stage.waiting.map Move.method) :
    0 < stage.credit target m := by
  unfold Stage.credit
  rcases left with ⟨managed, unparked | leaves⟩ | ⟨unmanaged, waits⟩
  · rw [if_pos managed, if_neg unparked]
    omega
  · rw [if_pos managed, if_pos leaves]
    omega
  · simp [unmanaged, waits]

/-- No credit is gained from one stage to the next. -/
structure Spends (target : Method → Partition) (first next : Stage) : Prop where
  parked : first.transit.parked ⊆ next.transit.parked
  compacted : first.transit.compacted ⊆ next.transit.compacted
  leaving : next.leaving.map Prod.fst ⊆ first.leaving.map Prod.fst
  waiting : ∀ n ∈ next.waiting.map Move.method, (target n).isManaged = false →
    n ∈ first.waiting.map Move.method

namespace Spends

theorem credit_le (spends : Spends target first next) (n : Method) :
    next.credit target n ≤ first.credit target n := by
  have parked := @spends.parked n
  have compacted := @spends.compacted (target n)
  have leaving := @spends.leaving n
  have waiting := spends.waiting n
  unfold Stage.credit
  split_ifs <;> simp_all

/-- A credit is used up when a method is parked for the first time, leaves its
partition or arrives. -/
theorem credit_lt (spends : Spends target first next) (n : Method)
    (used : (target n).isManaged = true ∧
        (n ∈ next.transit.parked ∧ n ∉ first.transit.parked ∨
          n ∈ first.leaving.map Prod.fst ∧ n ∉ next.leaving.map Prod.fst) ∨
      (target n).isManaged = false ∧ n ∈ first.waiting.map Move.method ∧
        n ∉ next.waiting.map Move.method) :
    next.credit target n < first.credit target n := by
  have parked := @spends.parked n
  have compacted := @spends.compacted (target n)
  have leaving := @spends.leaving n
  unfold Stage.credit
  rcases used with ⟨managed, ⟨isParked, notBefore⟩ | ⟨left, notAfter⟩⟩ |
    ⟨unmanaged, waited, arrived⟩
  · rw [if_pos managed, if_pos managed, if_pos isParked, if_neg notBefore]
    split_ifs <;> simp_all
  · rw [if_pos managed, if_pos managed, if_pos left, if_neg notAfter]
    split_ifs <;> simp_all
  · simp [unmanaged, waited, arrived]

end Spends

/-- The fallback partition has room for all that may still be sent there. -/
def Ample (target : Method → Partition) (stage : Stage) : Prop :=
  weighed (stage.credit target) stage.transit.placements.loads ≤
    stage.transit.cache.largestFree stage.transit.fallback

namespace Ample

theorem of_still (ample : Ample target first) (same : SameCode first.transit next.transit)
    (le : ∀ n, next.credit target n ≤ first.credit target n) : Ample target next := by
  rw [Ample, fallback, same.placements, same.cache]
  exact Nat.le_trans (weighed_mono le) ample

/-- A method that arrives in the fallback partition uses up a credit. -/
theorem of_relocated {order : List Partition} (ample : Ample target first)
    (held : first.transit.Held code)
    (exchanges : Exchanges first.transit m order placed b cache)
    (same : SameCode (first.transit.movedTo placed b cache passed) next.transit)
    (spends : Spends target first next)
    (used : b.partition = first.transit.fallback →
      next.credit target m < first.credit target m) : Ample target next := by
  rcases Placements.mem_of_find? exchanges.found with ⟨member, rfl⟩
  have loads : next.transit.placements.loads = first.transit.placements.loads := by
    rw [same.placements, held.loads_eq, ← exchanges.placed]
    exact (exchanges.held held).loads_eq
  have fallback : next.transit.fallback = first.transit.fallback := by
    rw [Transit.fallback, same.cache]
    exact congrArg Segmentation.fallback exchanges.segmentation
  have taken := exchanges.largestFree_le first.transit.fallback
  rw [Ample, loads, fallback, same.cache]
  change _ ≤ cache.largestFree first.transit.fallback
  have ample : weighed _ _ ≤ _ := ample
  split at taken
  · rename_i isThere
    have isLoad : (placed.method, placed.blob.padded) ∈ first.transit.placements.loads :=
      List.mem_map_of_mem member
    have saved := weighed_add_le spends.credit_le (used isThere.symm) isLoad
    omega
  · exact Nat.le_trans (weighed_mono spends.credit_le) (Nat.le_trans ample taken)

/-- A method with a credit finds room in the fallback partition. -/
theorem room (ample : Ample target first) (member : placed ∈ first.transit.placements)
    (credit : 0 < first.credit target placed.method) :
    placed.blob.padded ≤ first.transit.cache.largestFree first.transit.fallback := by
  have isLoad : (placed.method, placed.blob.padded) ∈ first.transit.placements.loads :=
    List.mem_map_of_mem member
  have others (n : Method) : (if n = placed.method then 0 else first.credit target n) ≤
      first.credit target n := by
    split <;> omega
  have counted := weighed_add_le others (by simpa using credit) isLoad
  exact Nat.le_trans (Nat.le_trans (Nat.le_add_left _ _) counted) ample

/-- A method with a credit is sent to the fallback partition. -/
theorem sends (ample : Ample target first) (held : first.transit.Held code)
    (reached : first.transit.safepoint.isReached = true)
    (ready : first.transit.cache.Ready first.transit.fallback)
    (installed : ∃ placed ∈ first.transit.placements, placed.method = m)
    (credit : 0 < first.credit target m) (requested : Partition) :
    ∃ size after,
      first.transit.relocate m [first.transit.fallback] requested = (.ok size, after) := by
  rcases installed with ⟨placed, member, rfl⟩
  exact relocate_of_room held reached member ready (ample.room member credit)

end Ample

/-! ## Acts -/

/-- To have tried a method does not matter to its relocation. -/
theorem Exchanges.of_tried {order : List Partition} {n : Method}
    (exchanges : Exchanges (t.tried n) m order placed b cache) :
    Exchanges t m order placed b cache :=
  ⟨⟨exchanges.reached, exchanges.found, exchanges.partition, exchanges.size,
    exchanges.segmentation, exchanges.sites, exchanges.held, exchanges.fresh⟩,
    exchanges.padded, exchanges.exchanged⟩

/-- A method to be parked is in a managed partition and belongs into another one. -/
theorem exists_move_of_parkable (orderly : Orderly target (.moving t))
    (parkable : t.parkable? = some m) :
    ∃ move ∈ t.pending, move.method = m ∧ (target m).isManaged = true ∧ m ∉ t.parked ∧
      ∃ q, t.partitionOf? m = some q ∧ q.isManaged = true := by
  rcases Option.map_eq_some_iff.mp parkable with ⟨move, found, rfl⟩
  have isPending := List.mem_of_find?_eq_some found
  have holds := List.find?_some found
  simp only [Bool.and_eq_true, Bool.not_eq_true', decide_eq_true_eq, ne_eq] at holds
  rcases holds with ⟨⟨elsewhere, notParked⟩, inside⟩
  refine ⟨move, isPending, rfl, ?_, by simpa using notParked, ?_⟩
  · rcases orderly.routable _ (List.mem_append_left _ (List.mem_map_of_mem isPending)) with
      managed | isFallback
    · exact managed
    · rw [← orderly.aim move isPending] at isFallback
      exact absurd isFallback elsewhere
  · cases there : t.partitionOf? move.method with
    | none =>
        rw [there] at inside
        contradiction
    | some q =>
        rw [there] at inside
        exact ⟨q, rfl, inside⟩

/-- Emptying a partition for the first time pays for the residents that leave. -/
theorem credit_empty_le (owed : Owed target t t.pending) (fresh : p ∉ t.compacted) (n : Method) :
    (Stage.emptying p ((t.marked p).residents p) (t.marked p)).credit target n ≤
      (Stage.moving t).credit target n := by
  have stays (elsewhere : target n ≠ p) : n ∉ ((t.marked p).residents p).map Prod.fst := by
    intro leaves
    rcases List.mem_map.mp leaves with ⟨resident, member, rfl⟩
    exact elsewhere (residents_home owed p resident member)
  generalize (t.marked p).residents p = residents at stays ⊢
  unfold Stage.credit
  split
  · change (if n ∈ t.parked then 0 else 1) + (if target n ∈ p :: t.compacted then 0 else 1) +
        (if n ∈ residents.map Prod.fst then 1 else 0) ≤
      (if n ∈ t.parked then 0 else 1) + (if target n ∈ t.compacted then 0 else 1) + 0
    by_cases belongs : target n = p
    · rw [belongs, if_pos List.mem_cons_self, if_neg fresh]
      split_ifs <;> decide
    · simp [stays belongs, belongs]
  · exact Nat.le_refl _

theorem subset_of_struck {moves kept rest : List Move} {move : Move}
    (split : moves = kept ++ move :: rest) : kept ++ rest ⊆ moves := by
  rw [split]
  exact ((List.sublist_cons_self move rest).append_left kept).subset

/-- Every act that makes moves exactly, or prepares them, keeps the room ample. -/
theorem Act.ample (act : Act first next) (held : first.transit.Held code)
    (orderly : Orderly target first) (owes : first.Owes target) (ample : Ample target first)
    (isExact : next.isExact = true) : Ample target next := by
  cases act with
  | @arrive t after kept rest move size pending elsewhere made =>
      have isPending : move ∈ t.pending := pending ▸ List.mem_append_right _ List.mem_cons_self
      have nodup := orderly.nodup.sublist (List.sublist_append_left _ _)
      rw [Stage.waiting, pending] at nodup
      rcases relocate_eq_ok held made with ⟨placed, b, cache, passed, rfl, _, _, exchanges⟩
      have spends : Spends target (.moving t)
          (.moving { (t.movedTo placed b cache passed).noteExact move size with
            pending := kept ++ rest }) :=
        ⟨List.Subset.refl _, List.Subset.refl _, List.Subset.refl _,
          fun _ waits _ => List.map_subset _ (subset_of_struck pending) waits⟩
      refine ample.of_relocated held exchanges ⟨rfl, rfl, rfl, rfl, rfl, rfl⟩ spends ?_
      intro isThere
      have unmanaged : (target move.method).isManaged = false := by
        rw [← orderly.aim move isPending, ← List.mem_singleton.mp exchanges.partition, isThere]
        exact Plan.isManaged_fallback _
      exact spends.credit_lt _ (Or.inr ⟨unmanaged, List.mem_map_of_mem isPending,
        not_waiting_of_nodup kept nodup⟩)
  | @skip t kept rest move pending _ =>
      have spends : Spends target (.moving t) (.moving { t with pending := kept ++ rest }) :=
        ⟨List.Subset.refl _, List.Subset.refl _, List.Subset.refl _,
          fun _ waits _ => List.map_subset _ (subset_of_struck pending) waits⟩
      exact ample.of_still ⟨rfl, rfl, rfl, rfl, rfl, rfl⟩ spends.credit_le
  | @empty t p _ fragmented =>
      have fresh : p ∉ t.compacted := by
        simpa using (fragmentedTarget_isFresh fragmented).2
      exact ample.of_still ⟨rfl, rfl, rfl, rfl, rfl, rfl⟩ (credit_empty_le owes fresh)
  | @displace t after p m rank size rest made =>
      rcases orderly.leaves p _ t rfl with ⟨managed, leaves⟩
      have belongs := (leaves _ List.mem_cons_self).1
      have nodup := orderly.nodup.sublist (List.sublist_append_right _ _)
      have pending := pending_of_relocate made
      rcases relocate_eq_ok held made with ⟨placed, b, cache, passed, rfl, _, _, exchanges⟩
      have spends : Spends target (.emptying p ((m, rank) :: rest) t)
          (.emptying p rest ((t.movedTo placed b cache passed).queued m rank p size)) := by
        refine ⟨List.Subset.refl _, List.Subset.refl _, List.subset_cons_self _ _, ?_⟩
        intro n waits unmanaged
        simp only [Stage.waiting, queued, List.map_append, List.mem_append] at waits
        rcases waits with old | new
        · exact old
        · rw [List.mem_singleton.mp new, belongs, managed] at unmanaged
          contradiction
      refine ample.of_relocated held exchanges ⟨rfl, rfl, rfl, rfl, rfl, rfl⟩ spends fun _ => ?_
      exact spends.credit_lt m (Or.inl ⟨belongs ▸ managed,
        Or.inr ⟨List.mem_cons_self, (List.nodup_cons.mp nodup).1⟩⟩)
  | @halt t p m rank rest _ _ _ =>
      have spends : Spends target (.emptying p ((m, rank) :: rest) t) (.moving t.sorted) :=
        ⟨List.Subset.refl _, List.Subset.refl _, List.nil_subset _,
          fun n waits _ => List.map_subset _ (List.mergeSort_perm _ _).subset waits⟩
      exact ample.of_still ⟨rfl, rfl, rfl, rfl, rfl, rfl⟩ spends.credit_le
  | @emptied t p =>
      have spends : Spends target (.emptying p [] t) (.moving t.sorted) :=
        ⟨List.Subset.refl _, List.Subset.refl _, List.nil_subset _,
          fun n waits _ => List.map_subset _ (List.mergeSort_perm _ _).subset waits⟩
      exact ample.of_still ⟨rfl, rfl, rfl, rfl, rfl, rfl⟩ spends.credit_le
  | @park t after m size _ _ parkable made =>
      have pending := pending_of_relocate made
      rcases exists_move_of_parkable orderly parkable with ⟨move, _, rfl, managed, notParked, _⟩
      rcases relocate_eq_ok (t := t.tried move.method) held made with
        ⟨placed, b, cache, passed, rfl, _, _, exchanges⟩
      have spends : Spends target (.moving t)
          (.moving (((t.tried move.method).movedTo placed b cache passed).noteMoved
            move.method size)) :=
        ⟨List.subset_cons_self _ _, List.Subset.refl _, List.Subset.refl _, fun _ waits _ => waits⟩
      refine ample.of_relocated held exchanges.of_tried ⟨rfl, rfl, rfl, rfl, rfl, rfl⟩ spends
        fun _ => ?_
      exact spends.credit_lt _ (Or.inl ⟨managed, Or.inl ⟨List.mem_cons_self, notParked⟩⟩)
  | @leave t m fault _ _ _ _ _ =>
      have spends : Spends target (.moving t) (.moving (t.tried m)) :=
        ⟨List.subset_cons_self _ _, List.Subset.refl _, List.Subset.refl _, fun _ waits _ => waits⟩
      exact ample.of_still ⟨rfl, rfl, rfl, rfl, rfl, rfl⟩ spends.credit_le
  | last | pass | settle | giveUp | finish | settled => contradiction

end Transit

end CodeLayout
