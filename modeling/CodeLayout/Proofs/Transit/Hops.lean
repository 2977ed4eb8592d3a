import CodeLayout.Proofs.Forwarding.Chain
import CodeLayout.Proofs.Transit.Relocation

/-!
# The hops of a pass

Each relocation of a pass is a hop from the address that a method leaves to the
one that it comes to.  Replaying the hops leads from the address of a method
before the pass to its address after it; the forwarding table only keeps the
last hop out of each address.  The two agree as long as no method comes to an
address that was left earlier in the same pass.
-/

namespace CodeLayout

namespace Placements

variable {ps : Placements} {placed q : Placement}

/-- What is replaced is the only placement at its address. -/
theorem map_address_put (nodup : (ps.map Placement.address).Nodup)
    (found : ps.find? q.method = some placed) :
    (ps.put q).map (fun p => (p.method, p.address)) =
      ps.map fun p => (p.method, if p.address = placed.address then q.address else p.address) := by
  rcases mem_of_find? found with ⟨_, sameMethod⟩
  rcases put_eq found with ⟨before, rest, split, putSplit⟩
  rw [split] at nodup
  have kept (others : List Placement) (away : ∀ p ∈ others, p.address ≠ placed.address) :
      others.map (fun p => (p.method, p.address)) =
        others.map fun p =>
          (p.method, if p.address = placed.address then q.address else p.address) := by
    apply List.map_congr_left
    intro p member
    rw [if_neg (away p member)]
  rw [putSplit, split, List.map_append, List.map_cons, List.map_append, List.map_cons,
    kept before fun p first => key_ne_of_nodup nodup (Or.inl first),
    kept rest fun p last => key_ne_of_nodup nodup (Or.inr last), if_pos rfl, sameMethod]

end Placements

namespace Transit

variable {code : Method → Option ByteArray} {before : Placements} {hops : List (Nat × Nat)}
  {t : Transit}

/-- The hops are the relocations so far; they account for the table and for
where the methods are now. -/
structure Tracked (before : Placements) (hops : List (Nat × Nat)) (t : Transit) : Prop where
  made : t.events.countP Event.isRelocation = hops.length
  records : t.forwarding.Records hops
  isOpen : t.forwarding.complete = false
  addresses : t.placements.map (fun p => (p.method, p.address)) =
    before.map fun p => (p.method, replay hops p.address)
  /-- Without reuse, chains end where the methods are. -/
  direct : NoReuse hops → ∀ p ∈ before, ∃ k,
    walk (lastHop hops) k p.address = some (replay hops p.address) ∧
      lastHop hops (replay hops p.address) = none

theorem Held.addresses_nodup (held : t.Held code) (separate : t.cache.Separate) :
    (t.placements.map Placement.address).Nodup := by
  have nodup := held.stores.valid.addresses_nodup separate
  have same := (held.blobs.map Blob.address).nodup_iff.mp nodup
  rwa [List.map_map] at same

namespace Tracked

/-- The address of a placement is where some method of the beginning is now. -/
theorem exists_before (tracked : Tracked before hops t) {placed : Placement}
    (member : placed ∈ t.placements) :
    ∃ p ∈ before, p.method = placed.method ∧ replay hops p.address = placed.address := by
  have isNow : (placed.method, placed.address) ∈
      before.map fun p => (p.method, replay hops p.address) := by
    rw [← tracked.addresses]
    exact List.mem_map_of_mem (f := fun p : Placement => (p.method, p.address)) member
  rcases List.mem_map.mp isNow with ⟨p, first, equal⟩
  exact ⟨p, first, congrArg Prod.fst equal, congrArg Prod.snd equal⟩

/-- A relocation adds a hop. -/
theorem relocate (tracked : Tracked before hops t) (held : t.Held code)
    (separate : t.cache.Separate) {m : Method} {order : List Partition} {placed : Placement}
    {b : Blob} {cache : Cache} (relocates : Relocates t m order placed b cache)
    {passed : List Event} (quiet : ∀ event ∈ passed, event.isQuiet = true) :
    Tracked before (hops ++ [(placed.address, b.address)]) (t.movedTo placed b cache passed) := by
  rcases Placements.mem_of_find? relocates.found with ⟨member, rfl⟩
  have live := held.live member
  have differ : placed.address ≠ b.address := relocates.fresh separate placed.blob live
  constructor
  · rcases Event.countP_quiet quiet with ⟨_, noRelocation⟩
    rw [movedTo, List.countP_append, List.countP_append, noRelocation, tracked.made,
      List.length_append]
    rfl
  · exact tracked.records.add tracked.isOpen differ
  · change (t.forwarding.add _ _).complete = false
    rw [Forwarding.add]
    split <;> exact tracked.isOpen
  · change (t.placements.put { placed with blob := b }).map _ = _
    rw [Placements.map_address_put (q := { placed with blob := b })
      (held.addresses_nodup separate) relocates.found]
    have moved := congrArg (List.map fun now : Method × Nat =>
      (now.1, if now.2 = placed.address then b.address else now.2)) tracked.addresses
    simp only [List.map_map, Function.comp_def] at moved
    simp only [replay_append]
    exact moved
  · intro noReuse p first
    rcases List.pairwise_append.mp noReuse with ⟨noReuseBefore, _, fresh⟩
    rcases tracked.direct noReuseBefore p first with ⟨k, reached, ends⟩
    rcases tracked.exists_before member with ⟨q, inBefore, _, isOld⟩
    rcases tracked.direct noReuseBefore q inBefore with ⟨_, _, unleft⟩
    rw [isOld] at unleft
    have stillReached := walk_update b.address unleft reached
    rw [lastHop_append, replay_append]
    by_cases moves : replay hops p.address = placed.address
    · rw [if_pos moves]
      rw [moves] at stillReached
      have unleftYet : lastHop hops b.address = none := by
        rw [lastHop_eq_none_iff]
        intro hop earlier equal
        exact fresh hop earlier _ List.mem_cons_self equal.symm
      rw [Function.update_of_ne differ.symm]
      exact ⟨k + 1, walk_append_hop stillReached (Function.update_self ..), unleftYet⟩
    · rw [if_neg moves, Function.update_of_ne moves]
      exact ⟨k, stillReached, ends⟩

end Tracked

/-- Every run of steps is a sequence of hops. -/
theorem Steps.tracked {start : Transit} (steps : Steps start t) (held : start.Held code)
    (separate : start.cache.Separate) {generation : Nat}
    (unused : start.forwarding = Forwarding.empty generation) (silent : start.events = []) :
    ∃ hops, Tracked start.placements hops t := by
  induction steps with
  | refl =>
      refine ⟨[], ?_, ?_, ?_, rfl, ?_⟩
      · rw [silent]
        rfl
      · rw [unused]
        exact Forwarding.Records.empty generation
      · rw [unused]
        rfl
      · intro _ p _
        exact ⟨0, rfl, rfl⟩
  | relocate steps m order requested inductionHypothesis =>
      rcases inductionHypothesis with ⟨hops, tracked⟩
      rcases steps.held held with ⟨heldMiddle, frame⟩
      have separateMiddle := separate.of_sites frame.sites
      rcases relocate_cases heldMiddle m order requested with
        ⟨fault, after, equal, ⟨quiet, _, _, _⟩⟩ |
          ⟨placed, b, cache, passed, equal, quiet, exchanges⟩
      · rw [equal]
        refine ⟨hops, ?_, tracked.records, tracked.isOpen, tracked.addresses, tracked.direct⟩
        rcases Event.countP_quiet quiet with ⟨_, noRelocation⟩
        rw [logged, List.countP_append, noRelocation]
        exact tracked.made
      · rw [equal]
        exact ⟨_, tracked.relocate heldMiddle separateMiddle exchanges.toRelocates quiet⟩
  | giveUp _ move placed inductionHypothesis =>
      rcases inductionHypothesis with ⟨hops, tracked⟩
      refine ⟨hops, ?_, tracked.records, tracked.isOpen, tracked.addresses, tracked.direct⟩
      rw [Transit.giveUp, List.countP_append]
      exact tracked.made
  | note _ same inductionHypothesis =>
      rcases inductionHypothesis with ⟨hops, tracked⟩
      refine ⟨hops, ?_, ?_, ?_, ?_, tracked.direct⟩
      · rw [same.events]
        exact tracked.made
      · rw [same.forwarding]
        exact tracked.records
      · rw [same.forwarding]
        exact tracked.isOpen
      · rw [same.placements]
        exact tracked.addresses

end Transit

end CodeLayout
