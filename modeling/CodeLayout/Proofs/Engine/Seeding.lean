import CodeLayout.Proofs.Engine.Outline
import CodeLayout.Proofs.Engine.SeedTargets
import CodeLayout.Proofs.Order.WellFormed

/-!
# Compilation for a seed

While the methods of a seed are compiled, in whatever order and with whatever
other methods between them, those that have a target land there: the managed
partitions take nobody else, nobody leaves them, and so their free bytes stay one
range.  The pass that follows the seed then finds every method where it wants it.
-/

namespace CodeLayout

theorem Partition.isManaged_of_mayOverflow {p q : Partition} (unmanaged : p.isManaged = false)
    (overflows : q ∈ p.overflowTargets) : q.isManaged = false := by
  cases p with
  | hot => contradiction
  | tmp => contradiction
  | nonProfiled => contradiction
  | whole => contradiction
  | profiled =>
      rw [List.mem_singleton.mp overflows]
      rfl
  | nonMethod =>
      rcases List.mem_cons.mp overflows with rfl | last
      · rfl
      · rw [List.mem_singleton.mp last]
        rfl

/-- Code of an unmanaged partition stays out of the managed ones. -/
theorem Segmentation.isManaged_of_allocationOrder {s : Segmentation} {p q : Partition}
    (unmanaged : p.isManaged = false) (tried : q ∈ s.allocationOrder p) : q.isManaged = false := by
  rcases mem_allocationOrder_iff.mp tried with ⟨_, rfl | isTarget⟩
  · exact unmanaged
  · exact Partition.isManaged_of_mayOverflow unmanaged isTarget

namespace Engine

/-- Compiled code of a method and the partition it is meant for. -/
structure Compilation where
  method : Method
  code : ByteArray
  requested : Partition
  short : code.size ≤ Size.largest

def Compilation.call (c : Compilation) : Call :=
  .install c.method c.code c.requested c.short

/-- The engine after some compilations. -/
def compileAll (e : Engine) (compilations : List Compilation) : Engine :=
  e.performAll (compilations.map Compilation.call)

/-- If the method is listed, its code has the listed length; it is not meant for a
managed partition. -/
structure Compilation.Follows (order : Order) (c : Compilation) : Prop where
  size : ∀ entry ∈ order.methods, entry.1 = c.method → c.code.size = entry.2
  unmanaged : c.requested.isManaged = false

/-- Code is where the seed wants it, and the managed partitions have no gaps. -/
structure Sown (order : Order) (e : Engine) : Prop where
  moving : e.recording = false
  seed : e.seed = some order
  unused : e.seedUsed = false
  consistent : ∃ code, e.Consistent code
  usable : e.cache.Usable
  tidy : e.cache.Tidy
  active : e.cache.segmentation.isActive .hot = true
  targets : e.seedTargets = seedTargetsOf e.cache.segmentation order
  whole : ∀ p, p.isManaged = true → e.cache.pieces p ≤ 1
  sizes : ∀ p ∈ e.placements, ∀ size, (p.method, size) ∈ order.methods →
    p.blob.padded = Size.padded size
  lands : ∀ p ∈ e.placements,
    Plan.aim e.cache.segmentation (e.seedTargets.lookup p.method) p.partition = p.partition

/-- What some compilations have added to the placements: methods of theirs, among
them all that have targets. -/
structure Grows (e after : Engine) (compilations : List Compilation) : Prop where
  seedTargets : after.seedTargets = e.seedTargets
  placements : ∃ added, after.placements = e.placements ++ added ∧
    (added.map Placement.method).Sublist (compilations.map Compilation.method) ∧
    ∀ c ∈ compilations, e.seedTargets.lookup c.method ≠ none →
      c.method ∈ added.map Placement.method

theorem Grows.refl (e : Engine) : Grows e e [] :=
  ⟨rfl, [], (List.append_nil _).symm, List.Sublist.refl _, by simp⟩

theorem Grows.trans {e middle after : Engine} {first second : List Compilation}
    (grows : Grows e middle first) (growsToo : Grows middle after second) :
    Grows e after (first ++ second) := by
  rcases grows with ⟨seedTargets, added, placements, methods, complete⟩
  rcases growsToo with ⟨seedTargetsToo, addedToo, placementsToo, methodsToo, completeToo⟩
  refine ⟨seedTargetsToo.trans seedTargets, added ++ addedToo, ?_, ?_, ?_⟩
  · rw [placementsToo, placements, List.append_assoc]
  · rw [List.map_append, List.map_append]
    exact methods.append methodsToo
  · intro c member target
    rw [List.map_append, List.mem_append]
    rcases List.mem_append.mp member with early | late
    · exact Or.inl (complete c early target)
    · exact Or.inr (completeToo c late (seedTargets ▸ target))

/-- Who is not compiled is not added. -/
theorem Grows.find?_eq_none {e after : Engine} {compilations : List Compilation} {m : Method}
    (grows : Grows e after compilations) (new : e.placements.find? m = none)
    (other : m ∉ compilations.map Compilation.method) : after.placements.find? m = none := by
  rcases grows.placements with ⟨added, placements, methods, _⟩
  rw [Placements.find?_eq_none_iff] at new ⊢
  rw [placements]
  intro p isPlacement sameMethod
  rcases List.mem_append.mp isPlacement with old | isAdded
  · exact new p old sameMethod
  · exact other (sameMethod ▸ methods.subset (List.mem_map_of_mem isAdded))

/-- The code of a method is installed in a partition, and no heap is reported full on
the way. -/
structure Lands (e : Engine) (c : Compilation) (q : Partition) : Prop where
  installed : ∃ b, (e.install c.method c.code c.requested).1 = .ok b ∧ b.partition = q
  quiet : (e.perform c.call).events = e.events

variable {e : Engine} {order : Order} {c : Compilation} {m : Method} {code : ByteArray}
  {requested p q : Partition} {b : Blob} {cache : Cache} {events : List Event}

/-- Code of a new method is installed where it is allocated. -/
theorem install_of_new (new : e.placements.find? m = none)
    (allocated : e.cache.allocate (e.preferred m requested) m code = ⟨.ok b, cache, events⟩) :
    e.install m code requested = (.ok b, e.installed m b cache events) := by
  have stillNew : (e.report events).placements.find? m = none := new
  rw [install, allocated]
  dsimp only
  rw [stillNew]
  rfl

theorem Fresh.seedUsed (fresh : Fresh e) : e.seedUsed = false := by
  induction fresh with
  | start _ _ _ => rfl
  | dumpTo _ _ inductionHypothesis => exact inductionHypothesis
  | withSeed _ _ inductionHypothesis => exact inductionHypothesis

theorem Fresh.placements (fresh : Fresh e) : e.placements = [] := by
  induction fresh with
  | start _ _ _ => rfl
  | dumpTo _ _ inductionHypothesis => exact inductionHypothesis
  | withSeed _ _ inductionHypothesis => exact inductionHypothesis

/-- Placements and cache agree, and the managed partitions are there, with all that
reordering relies on. -/
structure Grounded (e : Engine) : Prop where
  consistent : ∃ code, e.Consistent code
  usable : e.cache.Usable
  tidy : e.cache.Tidy
  active : e.cache.segmentation.isActive .hot = true

/-- Whatever is called, this stays so. -/
theorem Grounded.perform (grounded : Grounded e) (call : Call) : Grounded (e.perform call) := by
  rcases grounded with ⟨⟨_, consistent⟩, usable, tidy, active⟩
  rcases consistent.perform call with ⟨after, frame⟩
  exact ⟨⟨_, after⟩, usable.of_sites frame.segmentation frame.sites,
    ((consistent.perform_evolves call).tidy consistent.held.stores.valid tidy).2,
    frame.segmentation ▸ active⟩

/-- Where nothing is placed, the free bytes of a managed partition are one range. -/
theorem Consistent.pieces_le_one {codes : Method → Option ByteArray}
    (consistent : e.Consistent codes) (usable : e.cache.Usable) (tidy : e.cache.Tidy)
    (nothing : e.placements = []) (managed : p.isManaged = true) : e.cache.pieces p ≤ 1 := by
  rw [Cache.pieces]
  cases found : e.cache.heap? p with
  | none => exact Nat.zero_le 1
  | some h =>
      rcases Cache.mem_of_heap? found with ⟨isHeap, rfl⟩
      have empty : h.blobs = [] := by
        have blobs := consistent.held.heap_blobs found
        rw [nothing] at blobs
        exact blobs.eq_nil
      exact (consistent.held.stores.valid.heaps h isHeap).free_whole
        (usable.tidy tidy isHeap managed) empty

/-- Where the free bytes of a managed partition are one range, it has all that the
methods there leave of the capacity. -/
theorem Grounded.largestFree_of_whole (grounded : Grounded e) (managed : q.isManaged = true)
    (whole : e.cache.pieces q ≤ 1) :
    e.cache.largestFree q = e.cache.segmentation.capacity q -
      ((e.placements.filter fun p => p.partition = q).map fun p => p.blob.padded).sum := by
  rcases grounded with ⟨⟨_, held, _⟩, usable, tidy, active⟩
  rcases usable.site_of_routable active (Or.inl managed) with
    ⟨site, isSite, isHere, backed, capacity⟩
  rcases List.mem_map.mp isSite with ⟨h, isHeap, rfl⟩
  have tidyHeap := tidy h isHeap backed
  have found : e.cache.heap? q = some h := isHere ▸ held.stores.valid.heap?_of_mem isHeap
  have sameCapacity : h.capacity = e.cache.segmentation.capacity q := capacity
  have used : h.used = ((e.placements.filter fun p => p.partition = q).map
      fun p => p.blob.padded).sum := by
    rw [tidyHeap.used, ((held.heap_blobs found).map Blob.padded).sum_nat, List.map_map]
    rfl
  rw [Cache.largestFree_of_whole found tidyHeap whole, Heap.freeBytes, used, sameCapacity]

/-- Code of a method that has a target is allocated there if it finds room. -/
theorem Grounded.allocate_of_room (grounded : Grounded e)
    (target : e.seedTargets.lookup m = some q) (managed : q.isManaged = true)
    (short : code.size + Size.segment ≤ Size.wordLimit)
    (room : Size.padded code.size ≤ e.cache.largestFree q) (requested : Partition) :
    ∃ b cache, e.cache.allocate (e.preferred m requested) m code = ⟨.ok b, cache, []⟩ ∧
      e.cache.allocateExact q m code = (.ok b, cache) := by
  rcases grounded with ⟨⟨_, held, _⟩, usable, _, active⟩
  have ready := usable.ready active (Or.inl managed)
  rcases held.stores.valid.allocateExact_of_room (m := m) ready short room with
    ⟨b, cache, allocated⟩
  have isActive := usable.isActive_of_routable active (Or.inl managed)
  refine ⟨b, cache, ?_, allocated⟩
  rw [preferred, target, Option.getD_some, Cache.allocate, Segmentation.allocationOrder,
    if_pos isActive, Cache.allocateInOrder, if_neg (by simp), Cache.tryEach, allocated]

namespace Sown

theorem grounded (sown : Sown order e) : Grounded e :=
  ⟨sown.consistent, sown.usable, sown.tidy, sown.active⟩

/-- In a new engine nothing is sown yet. -/
theorem of_fresh (fresh : Fresh e) (moving : e.recording = false)
    (active : e.cache.segmentation.isActive .hot = true) (order : Order) :
    Sown order (e.withSeed order) := by
  rcases (fresh.withSeed order).ready with ⟨usable, tidy⟩
  have consistent := (fresh.withSeed order).consistent fun _ => none
  have nothing : (e.withSeed order).placements = [] := (fresh.withSeed order).placements
  refine ⟨moving, rfl, fresh.seedUsed, ⟨_, consistent⟩, usable, tidy, active, rfl, ?_, ?_, ?_⟩
  · exact fun q managed => consistent.pieces_le_one usable tidy nothing managed
  · rw [nothing]
    simp
  · rw [nothing]
    simp

/-- A placement in a managed partition is there for its target. -/
theorem lookup_of_managed (sown : Sown order e) {placed : Placement}
    (isPlacement : placed ∈ e.placements) (managed : placed.partition.isManaged = true) :
    e.seedTargets.lookup placed.method = some placed.partition := by
  have lands := sown.lands placed isPlacement
  cases target : e.seedTargets.lookup placed.method with
  | some q =>
      rw [target] at lands
      exact congrArg some lands
  | none =>
      have unmanaged := Plan.isManaged_outside e.cache.segmentation placed.partition
      rw [target, Plan.aim, Option.getD_none] at lands
      rw [lands, managed] at unmanaged
      contradiction

/-- A method that has a target finds room there. -/
theorem room (sown : Sown order e) (new : e.placements.find? m = none)
    (target : e.seedTargets.lookup m = some q) :
    q.isManaged = true ∧ ∃ size, (m, size) ∈ order.methods ∧
      Size.padded size ≤ e.cache.largestFree q := by
  rcases sown.consistent with ⟨_, consistent⟩
  rcases exists_spent e.cache.segmentation order with
    ⟨shares, budget, spent, targets, listed⟩
  rw [sown.targets, ← targets] at target
  rcases spent.exists_share target with ⟨share, member, rfl, isTarget⟩
  have managed := spent.isManaged member isTarget
  refine ⟨managed, share.size, mem_of_listed listed member, ?_⟩
  have fits := spent.room e.placements (q := q) consistent.held.methods
    (fun p isPlacement other isShare sameMethod =>
      sown.sizes p isPlacement other.size (sameMethod ▸ mem_of_listed listed isShare))
    (fun p isPlacement here => by
      rw [targets, ← sown.targets, ← here]
      exact sown.lookup_of_managed isPlacement (here ▸ managed))
    member isTarget
    (fun old => by
      rcases List.mem_map.mp old with ⟨p, isPlacement, sameMethod⟩
      exact Placements.find?_eq_none_iff.mp new p isPlacement sameMethod)
  have budgeted := Plan.budget_le_capacity e.cache.segmentation q
  rw [sown.grounded.largestFree_of_whole managed (sown.whole q managed)]
  rw [Share.padded] at fits
  omega

/-- Code of a listed method that has a target is allocated there. -/
theorem allocate (sown : Sown order e) (wellFormed : order.WellFormed) (follows : c.Follows order)
    (new : e.placements.find? c.method = none)
    (target : e.seedTargets.lookup c.method = some q) :
    ∃ b cache, e.cache.allocate (e.preferred c.method c.requested) c.method c.code =
        ⟨.ok b, cache, []⟩ ∧
      e.cache.allocateExact q c.method c.code = (.ok b, cache) := by
  rcases sown.room new target with ⟨managed, size, listed, room⟩
  have length : c.code.size = size := follows.size _ listed rfl
  have short : c.code.size + Size.segment ≤ Size.wordLimit :=
    length ▸ Size.short_of_le_largest (wellFormed.sizes _ listed)
  rw [← length] at room
  exact sown.grounded.allocate_of_room target managed short room _

/-- Code that is allocated where the seed wants it leaves the rest where it is. -/
theorem installed (sown : Sown order e) (follows : c.Follows order)
    (new : e.placements.find? c.method = none)
    (allocated : e.cache.allocateExact p c.method c.code = (.ok b, cache))
    (lands : Plan.aim e.cache.segmentation (e.seedTargets.lookup c.method) p = p)
    (performed : e.perform c.call = e.installed c.method b cache events) :
    Sown order (e.perform c.call) ∧ Grows e (e.perform c.call) [c] := by
  rcases sown.consistent with ⟨_, consistent⟩
  have valid := consistent.held.stores.valid
  rcases valid.gained_of_allocateExact allocated with ⟨gained, isHere⟩
  rcases consistent.perform c.call with ⟨_, frame⟩
  have after := sown.grounded.perform c.call
  have placements : (e.perform c.call).placements =
      e.placements ++ [⟨c.method, b, none, e.compilations + 1⟩] := by
    rw [performed, Engine.installed, Placements.erase_eq_self new]
  have seedTargets : (e.perform c.call).seedTargets = e.seedTargets := by
    rw [performed]
    rfl
  constructor
  · constructor
    · exact frame.recording.trans sown.moving
    · rw [performed]
      exact sown.seed
    · rw [performed]
      exact sown.unused
    · exact after.consistent
    · exact after.usable
    · exact after.tidy
    · exact after.active
    · rw [frame.segmentation, seedTargets]
      exact sown.targets
    · intro r managed
      rw [performed]
      exact Nat.le_trans (Cache.pieces_of_allocateExact allocated r) (sown.whole r managed)
    · intro placed member size listed
      rw [placements] at member
      rcases List.mem_append.mp member with old | last
      · exact sown.sizes placed old size listed
      · rw [List.mem_singleton.mp last] at listed ⊢
        have live : b ∈ cache.blobs := gained.blobs.mem_iff.mpr List.mem_cons_self
        rw [gained.valid.padded_eq live, gained.size, follows.size _ listed rfl]
    · intro placed member
      rw [placements] at member
      rw [frame.segmentation, seedTargets]
      rcases List.mem_append.mp member with old | last
      · exact sown.lands placed old
      · rw [List.mem_singleton.mp last]
        change Plan.aim _ _ b.partition = b.partition
        rw [isHere]
        exact lands
  · refine ⟨seedTargets, _, placements, List.Sublist.refl _, ?_⟩
    intro other member _
    rw [List.mem_singleton.mp member]
    exact List.mem_singleton_self c.method

/-- A compilation that fails outside of the managed partitions leaves them alone. -/
theorem refused (sown : Sown order e) (performed : e.perform c.call = e.refused cache events)
    (apart : ∀ q, q.isManaged = true → cache.heap? q = e.cache.heap? q) :
    Sown order (e.perform c.call) := by
  rcases sown.grounded.perform c.call with ⟨⟨codes, consistent⟩, usable, tidy, active⟩
  rcases sown.consistent with ⟨_, before⟩
  have frame := (before.perform c.call).2
  refine ⟨frame.recording.trans sown.moving, ?_, ?_, ⟨codes, consistent⟩, usable, tidy, active,
    ?_, ?_, ?_, ?_⟩
  · rw [performed]
    exact sown.seed
  · rw [performed]
    exact sown.unused
  · rw [frame.segmentation, performed]
    exact sown.targets
  · intro q managed
    rw [performed]
    change cache.pieces q ≤ 1
    rw [Cache.pieces, apart q managed]
    exact sown.whole q managed
  · rw [performed]
    exact sown.sizes
  · rw [frame.segmentation, performed]
    exact sown.lands

/-- Compiling a new method lands it at its target, if it has one. -/
theorem perform (sown : Sown order e) (wellFormed : order.WellFormed)
    (follows : c.Follows order) (new : e.placements.find? c.method = none) :
    Sown order (e.perform c.call) ∧ Grows e (e.perform c.call) [c] ∧
      ∀ q, e.seedTargets.lookup c.method = some q → Lands e c q := by
  cases target : e.seedTargets.lookup c.method with
  | some q =>
      rcases sown.allocate wellFormed follows new target with ⟨b, cache, inOrder, allocated⟩
      have install := install_of_new new inOrder
      rcases sown.installed follows new allocated (by rw [target]; rfl)
        (congrArg Prod.snd install) with ⟨sownAfter, grows⟩
      rcases sown.consistent with ⟨_, ⟨held, _⟩⟩
      refine ⟨sownAfter, grows, ?_⟩
      rintro _ ⟨⟩
      refine ⟨⟨b, congrArg Prod.fst install,
        (held.stores.valid.gained_of_allocateExact allocated).2⟩, ?_⟩
      rw [show e.perform c.call = _ from congrArg Prod.snd install]
      exact List.append_nil _
  | none =>
      suffices kept : Sown order (e.perform c.call) ∧ Grows e (e.perform c.call) [c] from
        ⟨kept.1, kept.2, by simp⟩
      rcases sown.consistent with ⟨_, ⟨held, _⟩⟩
      have searched := held.stores.valid.searched_allocate (e.preferred c.method c.requested)
        c.method c.code
      have unmanaged (p : Partition) (tried : p ∈ e.cache.segmentation.allocationOrder
          (e.preferred c.method c.requested)) : p.isManaged = false := by
        rw [preferred, target, Option.getD_none] at tried
        exact Segmentation.isManaged_of_allocationOrder follows.unmanaged tried
      cases inOrder : e.cache.allocate (e.preferred c.method c.requested) c.method c.code with
      | mk answer after events =>
          rw [inOrder] at searched
          cases answer with
          | error fault =>
              have performed : e.perform c.call = _ := congrArg Prod.snd (install_of_fault inOrder)
              refine ⟨sown.refused performed ?_, ?_⟩
              · intro q managed
                exact searched.heap?_eq fun tried =>
                  Bool.noConfusion (managed.symm.trans (unmanaged q tried))
              · rw [performed]
                refine ⟨rfl, [], (List.append_nil _).symm, List.nil_sublist _, ?_⟩
                intro other member some
                rw [List.mem_singleton.mp member] at some
                exact absurd target some
          | ok b =>
              rcases searched.found b rfl with ⟨p, tried, allocated⟩
              apply sown.installed follows new allocated
              · rw [target]
                exact Plan.outside_of_unmanaged (unmanaged p tried)
              · exact congrArg Prod.snd (install_of_new new inOrder)

/-- Compiling new methods one after another keeps this up. -/
theorem compileAll (sown : Sown order e) (wellFormed : order.WellFormed)
    {compilations : List Compilation} (follows : ∀ c ∈ compilations, c.Follows order)
    (once : (compilations.map Compilation.method).Nodup)
    (new : ∀ c ∈ compilations, e.placements.find? c.method = none) :
    Sown order (e.compileAll compilations) ∧ Grows e (e.compileAll compilations) compilations := by
  induction compilations generalizing e with
  | nil => exact ⟨sown, .refl e⟩
  | cons c rest inductionHypothesis =>
      rcases List.nodup_cons.mp once with ⟨other, onceRest⟩
      rcases sown.perform wellFormed (follows c List.mem_cons_self) (new c List.mem_cons_self) with
        ⟨sownMiddle, grows, _⟩
      have stillNew : ∀ d ∈ rest, (e.perform c.call).placements.find? d.method = none := by
        intro d member
        apply grows.find?_eq_none (new d (List.mem_cons_of_mem c member))
        rw [List.map_singleton, List.mem_singleton]
        intro sameMethod
        exact other (sameMethod ▸ List.mem_map_of_mem member)
      rcases inductionHypothesis sownMiddle
        (fun d member => follows d (List.mem_cons_of_mem c member)) onceRest stillNew with
        ⟨sownAfter, growsRest⟩
      exact ⟨sownAfter, grows.trans growsRest⟩

/-- When everybody who has a target is there, the plan for the seed moves nobody. -/
theorem still (sown : Sown order e) (wellFormed : order.WellFormed)
    (complete : ∀ m, e.seedTargets.lookup m ≠ none → e.placements.find? m ≠ none) :
    (e.planFor order.ranking).moves = [] := by
  rcases sown.consistent with ⟨_, ⟨held, _⟩⟩
  rcases exists_spent e.cache.segmentation order with
    ⟨shares, budget, spent, targets, listed⟩
  have ranking := ranking_of_listed listed
  have distinct : (shares.map Share.method).Nodup := ranking ▸ wellFormed.distinct
  rcases spent.built e.placements distinct
    (fun p isPlacement share isShare sameMethod =>
      sown.sizes p isPlacement share.size (sameMethod ▸ mem_of_listed listed isShare))
    (fun share isShare some => by
      apply complete
      rw [sown.targets, ← targets, spent.lookup distinct isShare]
      exact some) with ⟨assigned, plan, isPlan, built, keys, _⟩
  rw [ranking] at isPlan
  rw [List.eq_nil_iff_forall_not_mem]
  intro move isMove
  rcases Plan.mem_moves_ofRanking (isPlan ▸ built) isMove with ⟨p, isPlacement, elsewhere, _⟩
  rw [spent.wanted_eq distinct built keys (held.find?_of_mem isPlacement), targets,
    ← sown.targets] at elsewhere
  exact elsewhere (sown.lands p isPlacement)

/-- A method that is compiled is at its target, if it has one. -/
theorem placed (sown : Sown order e) (compiled : m ∈ e.placements.map Placement.method)
    (target : e.seedTargets.lookup m = some q) :
    ∃ p, e.placements.find? m = some p ∧ p.partition = q := by
  rcases sown.consistent with ⟨_, ⟨held, _⟩⟩
  rcases List.mem_map.mp compiled with ⟨p, isPlacement, rfl⟩
  have lands := sown.lands p isPlacement
  rw [target] at lands
  exact ⟨p, held.find?_of_mem isPlacement, lands.symm⟩

end Sown

/-! ## The first pass -/

/-- The compilations go with a seed.  Every listed method is compiled once, and others
may be. -/
structure Faithful (order : Order) (compilations : List Compilation) : Prop where
  once : (compilations.map Compilation.method).Nodup
  complete : ∀ m ∈ order.ranking, m ∈ compilations.map Compilation.method
  follows : ∀ c ∈ compilations, c.Follows order

/-- A seed that has not been followed yet takes the place of the ranking at hand. -/
theorem runWith_of_unused (seed : e.seed = some order) (unused : e.seedUsed = false)
    (files : FileTree) (ranking : List Method) (elapsed : Nat) :
    e.runWith files ranking elapsed =
      { e with seedUsed := true }.runPass files order.ranking elapsed := by
  unfold runWith
  split
  · rename_i found
    cases seed.symm.trans found
    rw [unused]
    rfl
  · rename_i found
    cases seed.symm.trans found

/-- What becomes of a seed when some methods are compiled and a pass is run. -/
structure Fulfilled (e : Engine) (order : Order) (compilations : List Compilation) : Prop where
  /-- Whenever a method that has a target is compiled, it lands there. -/
  lands : ∀ before c behind q, compilations = before ++ c :: behind →
    e.seedTargets.lookup c.method = some q → Lands (e.compileAll before) c q
  /-- In the end all who have targets are there. -/
  placed : ∀ m q, e.seedTargets.lookup m = some q →
    ∃ p, (e.compileAll compilations).placements.find? m = some p ∧ p.partition = q
  /-- The first pass follows the seed and not the ranking at hand. -/
  followed : ∀ files ranking elapsed,
    (e.compileAll compilations).runWith files ranking elapsed =
      { e.compileAll compilations with seedUsed := true }.runPass files order.ranking elapsed
  undisturbed : ∀ files ranking elapsed, Undisturbed (e.compileAll compilations) order.ranking
    ((e.compileAll compilations).runWith files ranking elapsed)

/-- Compiling for a seed agrees with planning for it, whether or not there is room for
the methods that have no target. -/
theorem seed_fulfilled (fresh : Fresh e) (moving : e.recording = false)
    (active : e.cache.segmentation.isActive .hot = true) (wellFormed : order.WellFormed)
    {compilations : List Compilation} (faithful : Faithful order compilations) :
    Fulfilled (e.withSeed order) order compilations := by
  have sown := Sown.of_fresh fresh moving active order
  have nothing : (e.withSeed order).placements = [] := (fresh.withSeed order).placements
  have new (m : Method) : (e.withSeed order).placements.find? m = none := by
    rw [nothing]
    rfl
  rcases sown.compileAll wellFormed faithful.follows faithful.once (fun c _ => new c.method) with
    ⟨sownAfter, ⟨seedTargets, added, placements, methods, complete⟩⟩
  have placed (m : Method) (q : Partition)
      (target : (e.withSeed order).seedTargets.lookup m = some q) :
      ∃ p, ((e.withSeed order).compileAll compilations).placements.find? m = some p ∧
        p.partition = q := by
    rcases sown.room (new m) target with ⟨_, size, listed, _⟩
    have isListed : m ∈ order.ranking := List.mem_map_of_mem (f := Prod.fst) listed
    rcases List.mem_map.mp (faithful.complete m isListed) with ⟨c, member, rfl⟩
    apply sownAfter.placed
    · rw [placements, List.map_append]
      exact List.mem_append_right _ (complete c member (by simp [target]))
    · rw [seedTargets]
      exact target
  constructor
  · rintro before c behind q rfl target
    have once := faithful.once
    rw [List.map_append, List.map_cons] at once
    rcases List.nodup_cons.mp (List.nodup_middle.mp once) with ⟨other, others⟩
    rcases sown.compileAll wellFormed
      (fun d member => faithful.follows d (List.mem_append_left _ member))
      (others.sublist (List.sublist_append_left _ _)) (fun d _ => new d.method) with
      ⟨sownBefore, grows⟩
    have follows := faithful.follows c (List.mem_append_right _ List.mem_cons_self)
    have stillNew := grows.find?_eq_none (new c.method) fun early =>
      other (List.mem_append_left _ early)
    rw [← grows.seedTargets] at target
    exact (sownBefore.perform wellFormed follows stillNew).2.2 q target
  · exact placed
  · exact runWith_of_unused sownAfter.seed sownAfter.unused
  · intro files ranking elapsed
    rw [runWith_of_unused sownAfter.seed sownAfter.unused]
    have still := sownAfter.still wellFormed fun m target => by
      rw [seedTargets] at target
      rcases Option.ne_none_iff_exists'.mp target with ⟨q, isTarget⟩
      rcases placed m q isTarget with ⟨p, found, _⟩
      rw [found]
      simp
    have undisturbed := undisturbed_of_still (e := { (e.withSeed order).compileAll compilations with
      seedUsed := true }) sownAfter.moving still files elapsed
    exact ⟨undisturbed.result, undisturbed.cache, undisturbed.placements, undisturbed.safepoint⟩

/-! ## A small seed -/

/-- The first method fills the hot partition, the second one finds room in the tmp
partition, and the third one in neither. -/
def smallSeed : Order :=
  ⟨[.method firstMethod 65536, .method secondMethod 100, .separator, .method thirdMethod 70000]⟩

def smallCompilations : List Compilation :=
  [⟨thirdMethod, filler 70000, .nonProfiled, short_filler (by decide)⟩,
    ⟨secondMethod, filler 100, .profiled, short_filler (by decide)⟩,
    ⟨fourthMethod, filler 3, .nonMethod, short_filler (by decide)⟩,
    ⟨firstMethod, filler 65536, .nonProfiled, short_filler (by decide)⟩]

theorem follows_filler {length : Nat}
    (size : ∀ entry ∈ order.methods, entry.1 = m → length = entry.2)
    (unmanaged : requested.isManaged = false) (short : (filler length).size ≤ Size.largest) :
    Compilation.Follows order ⟨m, filler length, requested, short⟩ :=
  ⟨fun entry listed same => (size_filler length).trans (size entry listed same), unmanaged⟩

theorem faithful_small : Faithful smallSeed smallCompilations := by
  refine ⟨by decide, by decide, ?_⟩
  simp only [smallCompilations, List.forall_mem_cons]
  exact ⟨follows_filler (by decide) rfl _, follows_filler (by decide) rfl _,
    follows_filler (by decide) rfl _, follows_filler (by decide) rfl _, by simp⟩

theorem seed_fulfilled_small :
    Fresh (Engine.start false smallCache) ∧ (Engine.start false smallCache).recording = false ∧
      (Engine.start false smallCache).cache.segmentation.isActive .hot = true ∧
      smallSeed.WellFormed ∧ Faithful smallSeed smallCompilations ∧
      ((Engine.start false smallCache).withSeed smallSeed).seedTargets =
        [(firstMethod, .hot), (secondMethod, .tmp)] ∧
      Fulfilled ((Engine.start false smallCache).withSeed smallSeed) smallSeed
        smallCompilations := by
  have wellFormed : smallSeed.WellFormed := ⟨by decide, by decide⟩
  exact ⟨fresh_small false, rfl, rfl, wellFormed, faithful_small, by decide,
    seed_fulfilled (fresh_small false) rfl rfl wellFormed faithful_small⟩

end Engine

end CodeLayout
