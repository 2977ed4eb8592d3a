import CodeLayout.Proofs.Heap.Stacking
import CodeLayout.Proofs.Transit.Room

/-!
# Filling empty heaps

Moves that bring methods into empty heaps are made in one go, provided that the
heaps are large enough for all of them: one sweep makes every move, so that nothing
is tried again, parked or compacted.  Each heap stacks the methods in the order of
the moves.
-/

namespace CodeLayout.Transit

variable {before t : Transit} {code : Method → Option ByteArray} {made left moves rest : List Move}
  {move : Move} {p : Partition} {ps : Placements}

/-- The code that moves bring into a partition, in their order. -/
def guests (ps : Placements) (moves : List Move) (p : Partition) : List Blob :=
  (moves.filter fun move => move.target = p).filterMap fun move =>
    (ps.find? move.method).map Placement.blob

theorem guests_append (ps : Placements) (moves others : List Move) (p : Partition) :
    guests ps (moves ++ others) p = guests ps moves p ++ guests ps others p := by
  rw [guests, List.filter_append, List.filterMap_append]
  rfl

theorem guests_singleton_of_ne (ps : Placements) (elsewhere : move.target ≠ p) :
    guests ps [move] p = [] := by
  simp [guests, elsewhere]

theorem guests_singleton {placed : Placement} (found : ps.find? move.method = some placed) :
    guests ps [move] move.target = [placed.blob] := by
  simp [guests, found]

theorem length_guests_singleton {placed : Placement}
    (found : ps.find? move.method = some placed) (p : Partition) :
    (guests ps [move] p).length = if move.target = p then 1 else 0 := by
  split
  · rename_i goal
    rw [← goal, guests_singleton found]
    rfl
  · rename_i elsewhere
    rw [guests_singleton_of_ne ps elsewhere]
    rfl

/-- Every move brings its guest. -/
theorem length_guests (managed : ∀ move ∈ moves, move.target.isManaged = true)
    (installed : ∀ move ∈ moves, (ps.find? move.method).isSome = true) :
    (guests ps moves .hot).length + (guests ps moves .tmp).length = moves.length := by
  induction moves with
  | nil => rfl
  | cons move rest inductionHypothesis =>
      have later := inductionHypothesis (List.forall_mem_of_forall_mem_cons managed)
        (List.forall_mem_of_forall_mem_cons installed)
      rcases Option.isSome_iff_exists.mp (installed move List.mem_cons_self) with ⟨placed, found⟩
      have isManaged := managed move List.mem_cons_self
      rw [← List.singleton_append, guests_append, guests_append, List.length_append,
        List.length_append, length_guests_singleton found, length_guests_singleton found,
        List.length_append, ← later]
      cases goal : move.target with
      | hot | tmp =>
          simp
          omega
      | _ =>
          rw [goal] at isManaged
          contradiction

/-- What the moves of a list ask for: each one leads a method of its own from outside
into a managed heap, and the heaps are large enough for all of them. -/
structure Fits (before : Transit) (moves : List Move) : Prop where
  nodup : (moves.map Move.method).Nodup
  managed : ∀ move ∈ moves, move.target.isManaged = true
  ready : ∀ move ∈ moves, before.cache.Ready move.target
  ranked : ∀ move ∈ moves, move.rank.isNone = false
  outside : ∀ move ∈ moves, ∃ placed, before.placements.find? move.method = some placed ∧
    placed.partition.isManaged = false
  room : ∀ site ∈ before.cache.sites, site.partition.isManaged = true →
    Blob.height (guests before.placements moves site.partition) ≤ site.capacity

/-- Some moves have been made: the managed heaps stack what they have brought, and
all other methods are where they were. -/
structure Filled (before : Transit) (code : Method → Option ByteArray) (made : List Move)
    (t : Transit) : Prop where
  held : t.Held code
  frame : Frame before t
  heaps : ∀ p, p.isManaged = true → ∀ h, t.cache.heap? p = some h →
    h.Stacked (guests before.placements made p)
  others : ∀ m, m ∉ made.map Move.method → t.placements.find? m = before.placements.find? m
  moved : t.moved = made.map Move.method
  evicted : t.evicted = 0
  unplaced : t.unplaced = 0

namespace Filled

/-- The method of the next move is where it was. -/
theorem waits (filled : Filled before code made t) (fits : Fits before (made ++ move :: rest)) :
    move.method ∉ made.map Move.method ∧
      ∃ placed, t.placements.find? move.method = some placed ∧
        before.placements.find? move.method = some placed ∧
        placed.partition.isManaged = false := by
  have new : move.method ∉ made.map Move.method := by
    intro old
    rcases List.mem_map.mp old with ⟨other, member, same⟩
    exact key_ne_of_nodup fits.nodup (Or.inl member) same
  rcases fits.outside move (List.mem_append_right _ List.mem_cons_self) with
    ⟨placed, found, unmanaged⟩
  exact ⟨new, placed, (filled.others _ new).trans found, found, unmanaged⟩

/-- The next move has room. -/
theorem room (filled : Filled before code made t) (fits : Fits before (made ++ move :: rest))
    {placed : Placement} (found : before.placements.find? move.method = some placed) :
    t.cache.Ready move.target ∧ placed.blob.padded ≤ t.cache.largestFree move.target := by
  have isNext : move ∈ made ++ move :: rest := List.mem_append_right _ List.mem_cons_self
  have ready := (fits.ready move isNext).of_sites filled.frame.sites
  have managed := fits.managed move isNext
  rcases filled.held.stores.valid.heap_of_ready ready with ⟨h, isHeap, _⟩
  rcases Cache.mem_of_heap? isHeap with ⟨member, isHere⟩
  have isSite : h.site ∈ before.cache.sites := by
    rw [← filled.frame.sites]
    exact List.mem_map_of_mem member
  have managedHere : h.site.partition.isManaged = true := by
    rw [← managed, ← isHere]
    rfl
  have enough : Blob.height (guests before.placements (made ++ move :: rest) h.partition) ≤
      h.capacity := fits.room h.site isSite managedHere
  rw [isHere, ← List.singleton_append, guests_append, guests_append, guests_singleton found,
    Blob.height_append, Blob.height_append, Blob.height_singleton] at enough
  rw [Cache.largestFree_eq isHeap, (filled.heaps _ managed h isHeap).largestFree_eq]
  exact ⟨ready, by omega⟩

/-- The code that comes into a managed heap goes on top of its stack. -/
theorem exchange (filled : Filled before code made t)
    (fits : Fits before (made ++ move :: rest)) {placed : Placement} {b : Blob} {cache : Cache}
    (exchanges : Exchanges t move.method [move.target] placed b cache) {passed : List Event}
    (size : Nat) : Filled before code (made ++ [move])
      ((t.movedTo placed b cache passed).noteExact move size) := by
  have isNext : move ∈ made ++ move :: rest := List.mem_append_right _ List.mem_cons_self
  rcases filled.waits fits with ⟨new, placed', found, foundBefore, unmanaged⟩
  cases found.symm.trans exchanges.found
  rcases Placements.mem_of_find? found with ⟨member, isMethod⟩
  have isTarget : b.partition = move.target := List.mem_singleton.mp exchanges.partition
  constructor
  · exact exchanges.held filled.held
  · exact filled.frame.trans
      ⟨rfl, exchanges.segmentation, exchanges.sites, exchanges.placed⟩
  · intro p managed h isHeap
    rcases exchanges.exchanged with ⟨bytes, gained, allocated, released⟩
    have left : p ≠ placed.blob.partition := by
      rintro rfl
      rw [Placement.partition, managed] at unmanaged
      contradiction
    have isHeapGained : gained.heap? p = some h :=
      (Cache.heap?_of_release released left).symm.trans isHeap
    rw [guests_append]
    by_cases goal : move.target = p
    · subst goal
      rw [guests_singleton foundBefore]
      rcases Cache.allocateExact_eq_ok allocated with ⟨g, k, foundHeap, inHeap, isHere, rfl⟩
      rw [isTarget] at foundHeap isHere
      cases (Cache.heap?_put_self foundHeap isHere).symm.trans isHeapGained
      have gain := (filled.held.stores.valid.gained_of_allocateExact allocated).1
      apply (filled.heaps _ managed g foundHeap).allocate inHeap _ exchanges.size exchanges.padded
      rw [gain.method, filled.held.owner placed member, isMethod]
    · rw [guests_singleton_of_ne _ goal, List.append_nil]
      apply filled.heaps p managed h
      rw [← isHeapGained]
      exact (Cache.heap?_of_allocateExact allocated (isTarget ▸ Ne.symm goal)).symm
  · intro m unmoved
    rw [List.map_append, List.mem_append, not_or] at unmoved
    have differs : m ≠ placed.method := by
      rintro rfl
      exact unmoved.2 (by simp [isMethod])
    change (t.placements.put { placed with blob := b }).find? m = _
    rw [Placements.find?_put, if_neg differs]
    exact filled.others m unmoved.1
  · have unmoved : ¬ t.moved.contains move.method = true := by
      rw [filled.moved]
      simpa using new
    change (if t.moved.contains move.method then t.moved else t.moved ++ [move.method]) = _
    rw [if_neg unmoved, filled.moved, List.map_append]
    rfl
  · change (if move.rank.isNone then t.evicted + 1 else t.evicted) = 0
    rw [fits.ranked move isNext]
    exact filled.evicted
  · exact filled.unplaced

/-- The next move is made. -/
theorem step (filled : Filled before code made t) (reached : before.safepoint.isReached = true)
    (fits : Fits before (made ++ move :: rest)) :
    t.partitionOf? move.method ≠ some move.target ∧
      ∃ size after, t.relocate move.method [move.target] move.target = (.ok size, after) ∧
        Filled before code (made ++ [move]) (after.noteExact move size) := by
  have managed := fits.managed move (List.mem_append_right _ List.mem_cons_self)
  rcases filled.waits fits with ⟨_, placed, found, foundBefore, unmanaged⟩
  rcases Placements.mem_of_find? found with ⟨member, isMethod⟩
  rcases filled.room fits foundBefore with ⟨ready, room⟩
  have stopped : t.safepoint.isReached = true := by
    rw [filled.frame.safepoint]
    exact reached
  constructor
  · intro inPlace
    rw [partitionOf?, found, Option.map_some, Option.some.injEq] at inPlace
    rw [inPlace, managed] at unmanaged
    contradiction
  · have made : ∃ size after,
        t.relocate move.method [move.target] move.target = (.ok size, after) := by
      rw [← isMethod]
      exact relocate_of_room filled.held stopped member ready room
    rcases made with ⟨size, after, relocated⟩
    rcases relocate_eq_ok filled.held relocated with
      ⟨_, b, cache, passed, rfl, _, _, exchanges⟩
    exact ⟨size, _, relocated, filled.exchange fits exchanges size⟩

/-- One sweep makes all moves that are left. -/
theorem sweep (filled : Filled before code made t) (reached : before.safepoint.isReached = true)
    (fits : Fits before (made ++ left)) :
    ∃ after progress, t.sweep left = ⟨after, [], progress, none⟩ ∧
      Filled before code (made ++ left) after := by
  induction left generalizing t made with
  | nil =>
      rw [List.append_nil]
      exact ⟨t, false, rfl, filled⟩
  | cons move rest inductionHypothesis =>
      rcases filled.step reached fits with ⟨elsewhere, size, after, relocated, next⟩
      rw [List.append_cons] at fits ⊢
      rcases inductionHypothesis next fits with ⟨last, progress, swept, all⟩
      refine ⟨last, true, ?_, all⟩
      rw [Transit.sweep, if_neg elsewhere, relocated]
      dsimp only
      rw [swept]

/-- A partition without a heap gets nobody. -/
theorem guests_eq_nil (filled : Filled before code made t) (fits : Fits before made)
    (absent : t.cache.heap? p = none) : guests before.placements made p = [] := by
  have nobody : made.filter (fun move => move.target = p) = [] := by
    rw [List.filter_eq_nil_iff]
    intro move member leads
    have ready := (fits.ready move member).of_sites filled.frame.sites
    rcases filled.held.stores.valid.heap_of_ready ready with ⟨h, found, _⟩
    rw [of_decide_eq_true leads, absent] at found
    contradiction
  rw [guests, nobody, List.filterMap_nil]

/-- The managed heaps hold as many methods as have moved. -/
theorem length_moved (filled : Filled before code made t) (fits : Fits before made) :
    t.moved.length = (t.cache.methodsIn .hot).length + (t.cache.methodsIn .tmp).length := by
  have held (p : Partition) (managed : p.isManaged = true) :
      (t.cache.methodsIn p).length = (guests before.placements made p).length := by
    rw [Cache.methodsIn]
    cases found : t.cache.heap? p with
    | none =>
        rw [filled.guests_eq_nil fits found]
        rfl
    | some h =>
        rw [Option.map_some, Option.getD_some, (filled.heaps p managed h found).blobs,
          Blob.methods_stack, List.length_map]
  have installed : ∀ move ∈ made, (before.placements.find? move.method).isSome = true := by
    intro move member
    rcases fits.outside move member with ⟨placed, found, _⟩
    rw [found, Option.isSome_some]
  rw [held .hot rfl, held .tmp rfl, length_guests fits.managed installed, filled.moved,
    List.length_map]

end Filled

/-- A run whose first sweep makes all moves is over after it. -/
theorem run_of_sweep {after : Transit} {progress : Bool}
    (swept : t.sweep t.pending = ⟨after, [], progress, none⟩) :
    t.run = (.ok (), { after with pending := [] }) := by
  have sweeps : t.sweeps t.pending = ⟨after, [], progress, none⟩ := by
    rw [Transit.sweeps, swept]
    simp
  have round : t.round = .finished { after with pending := [] } := by
    rw [Transit.round, makeExact, sweeps]
    rfl
  rw [run_eq, round]

/-- Moves that fill empty heaps are all made in one sweep; nothing is parked or
compacted. -/
theorem run_of_fits (reached : t.safepoint.isReached = true)
    (fits : Fits t t.pending) (empty : Filled t code [] t) :
    ∃ after, t.run = (.ok (), after) ∧ Filled t code t.pending after ∧
      after.parked = t.parked ∧ after.compacted = t.compacted := by
  rcases empty.sweep reached fits with ⟨after, progress, swept, filled⟩
  have same := sweep_sameDuties t t.pending
  rw [swept] at same
  refine ⟨_, run_of_sweep swept, ?_, same.parked, same.compacted⟩
  exact ⟨filled.held, ⟨filled.frame.safepoint, filled.frame.segmentation, filled.frame.sites,
    filled.frame.placed⟩, filled.heaps, filled.others, filled.moved, filled.evicted,
    filled.unplaced⟩

end CodeLayout.Transit
