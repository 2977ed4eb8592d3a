import CodeLayout.Proofs.Cache.Room
import CodeLayout.Proofs.Placement.Held
import CodeLayout.Proofs.Transit.Steps

/-!
# Relocations

A relocation either moves the code of one method into a blob of a partition
that it was offered, or fails and leaves all that is stored alone, and everything
but the log if it is for want of room.  The full heaps that it passed are logged
in either case.  Placements and cache agree after it as they did before.
-/

namespace CodeLayout

namespace Event

/-- The event says that a method found no room. -/
def isPlacementFailure : Event → Bool
  | .placementFailed .. => true
  | _ => false

/-- The event says that a method moved. -/
def isRelocation : Event → Bool
  | .methodRelocated .. => true
  | _ => false

/-- The event says neither. -/
def isQuiet (e : Event) : Bool :=
  !e.isPlacementFailure && !e.isRelocation

theorem filter_quiet {events : List Event} (quiet : ∀ event ∈ events, event.isQuiet = true) :
    events.filter isPlacementFailure = [] ∧ events.filter isRelocation = [] := by
  constructor
  · apply List.filter_eq_nil_iff.mpr
    intro event member failure
    have isQuiet := quiet event member
    simp [Event.isQuiet, failure] at isQuiet
  · apply List.filter_eq_nil_iff.mpr
    intro event member relocation
    have isQuiet := quiet event member
    simp [Event.isQuiet, relocation] at isQuiet

theorem countP_quiet {events : List Event} (quiet : ∀ event ∈ events, event.isQuiet = true) :
    events.countP isPlacementFailure = 0 ∧ events.countP isRelocation = 0 := by
  rcases filter_quiet quiet with ⟨failures, relocations⟩
  rw [List.countP_eq_length_filter, List.countP_eq_length_filter, failures, relocations]
  exact ⟨rfl, rfl⟩

end Event

/-- What stays of a placement when its code moves: the method, the rank, the
number of the compilation and the length of the code. -/
def Placement.lasting (p : Placement) : Method × Option Nat × Nat × Nat :=
  (p.method, p.rank, p.compiled, p.size)

/-- Each placed method with its padded size. -/
def Placements.loads (ps : Placements) : List (Method × Nat) :=
  ps.map fun p => (p.method, p.blob.padded)

/-- The padded sizes follow from what lasts. -/
theorem Placements.Held.loads_eq {ps : Placements} {c : Cache}
    {code : Method → Option ByteArray} (held : ps.Held c code) :
    ps.loads = (ps.map Placement.lasting).map fun l => (l.1, Size.padded l.2.2.2) := by
  rw [loads, List.map_map]
  apply List.map_congr_left
  intro p member
  rw [held.stores.valid.padded_eq (held.live member)]
  rfl

namespace Transit

variable {t : Transit} {code : Method → Option ByteArray} {m : Method} {order : List Partition}
  {p requested : Partition} {current : Placement} {bytes : ByteArray} {gained : Cache} {b : Blob}

/-- Placements and cache agree. -/
abbrev Held (t : Transit) (code : Method → Option ByteArray) : Prop :=
  t.placements.Held t.cache code

theorem searched_findRoom {c : Cache} (valid : c.Valid) (order : List Partition)
    (requested : Partition) (m : Method) (bytes : ByteArray) :
    Cache.Searched c order m bytes (findRoom c order requested m bytes) := by
  unfold findRoom
  split
  · rename_i p
    cases attempted : c.allocateExact p m bytes with
    | mk answer after =>
        refine ⟨by simp, ?_, ?_⟩
        · rintro b rfl
          exact ⟨p, List.mem_singleton.mpr rfl, attempted⟩
        · rintro fault rfl
          cases full : fault.isFull with
          | true => exact Or.inl ⟨Or.inl rfl, (valid.kept_of_allocateExact attempted).2 full⟩
          | false => exact Or.inr ⟨rfl, p, List.mem_singleton.mpr rfl, attempted⟩
  · exact valid.searched_allocateInOrder order requested m bytes

/-- The state after a relocation that found room, after passing full heaps. -/
def movedTo (t : Transit) (placed : Placement) (b : Blob) (cache : Cache) (passed : List Event) :
    Transit :=
  { t with
    cache
    placements := t.placements.put { placed with blob := b }
    forwarding := t.forwarding.add placed.blob.address b.address
    events := t.events ++ (passed ++
      [.methodRelocated placed.method.display placed.partition b.partition b.size]) }

/-- The state after a relocation that found none. -/
def logged (t : Transit) (events : List Event) : Transit :=
  { t with events := t.events ++ events }

/-- How a relocation fails.  Only for another reason than want of room may free bytes
be lost. -/
inductive Fails (t : Transit) (fault : Fault) : Transit → Prop
  | leaving {passed : List Event} {cache : Cache}
      (quiet : ∀ event ∈ passed, event.isQuiet = true) (kept : Cache.Kept t.cache cache)
      (evolves : t.cache.Evolves cache) (full : fault.isFull = true → cache = t.cache) :
      Fails t fault { t.logged passed with cache }

/-- A method moves from its placement into a blob of a new cache. -/
structure Relocates (t : Transit) (m : Method) (order : List Partition) (placed : Placement)
    (b : Blob) (cache : Cache) : Prop where
  reached : t.safepoint.isReached = true
  found : t.placements.find? m = some placed
  partition : b.partition ∈ order
  size : b.size = placed.blob.size
  segmentation : cache.segmentation = t.cache.segmentation
  sites : cache.sites = t.cache.sites
  held {code : Method → Option ByteArray} :
    t.Held code → Placements.Held (t.placements.put { placed with blob := b }) cache code
  fresh : t.cache.Separate → ∀ d ∈ t.cache.blobs, d.address ≠ b.address

/-- A method moves by an exact allocation and a release. -/
structure Exchanges (t : Transit) (m : Method) (order : List Partition) (placed : Placement)
    (b : Blob) (cache : Cache) : Prop extends Relocates t m order placed b cache where
  padded : b.padded = placed.blob.padded
  exchanged : ∃ bytes gained, t.cache.allocateExact b.partition m bytes = (.ok b, gained) ∧
    gained.release placed.blob = .ok (placed.blob, cache)

/-- The code of an installed method is short. -/
theorem Held.short_of_code? (held : t.Held code) (member : current ∈ t.placements)
    (isCode : t.cache.code? current.blob = some bytes) :
    bytes.size + Size.segment ≤ Size.wordLimit ∧ Size.padded bytes.size = current.blob.padded := by
  have valid := held.stores.valid
  have live := held.live member
  rcases valid.exists_heap live with ⟨h, _, isHeap, inHeap⟩
  rw [valid.code?_size live isCode, valid.padded_eq live]
  exact ⟨(valid.heaps h isHeap).short inHeap, rfl⟩

/-- Code that is current again and then released where it was has moved. -/
theorem exchanges_of_allocateExact (held : t.Held code) (reached : t.safepoint.isReached = true)
    (found : t.placements.find? m = some current)
    (isCode : t.cache.code? current.blob = some bytes) (inOrder : p ∈ order)
    (allocated : t.cache.allocateExact p m bytes = (.ok b, gained)) :
    ∃ cache, gained.release current.blob = .ok (current.blob, cache) ∧
      Exchanges t m order current b cache := by
  have valid := held.stores.valid
  rcases Placements.mem_of_find? found with ⟨member, _⟩
  have live := held.live member
  rcases valid.gained_of_allocateExact allocated with ⟨gain, rfl⟩
  rcases gain.release_of_mem live with ⟨cache, released, lost⟩
  refine ⟨cache, released, ?_⟩
  have size : b.size = current.blob.size := by
    rw [gain.size, valid.code?_size live isCode]
  constructor
  · constructor
    · exact reached
    · exact found
    · exact inOrder
    · exact size
    · rw [lost.segmentation, gain.segmentation]
    · rw [lost.sites, gain.sites]
    · intro code agree
      exact agree.put found isCode gain lost
    · intro separate d isLive equal
      -- Both blobs are live for a moment, so no address can be shared.
      have nodup := gain.valid.addresses_nodup (separate.of_sites gain.sites)
      rw [(gain.blobs.map Blob.address).nodup_iff, List.map_cons, List.nodup_cons] at nodup
      exact nodup.1 (List.mem_map.mpr ⟨d, isLive, equal⟩)
  · have gainedLive : b ∈ gained.blobs := gain.blobs.mem_iff.mpr List.mem_cons_self
    rw [gain.valid.padded_eq gainedLive, size, valid.padded_eq live]
  · exact ⟨bytes, gained, allocated, released⟩

theorem Fails.refl (valid : t.cache.Valid) (fault : Fault) : Fails t fault t := by
  have unlogged : { t.logged [] with cache := t.cache } = t :=
    congrArg (fun events => { t with events }) (List.append_nil t.events)
  have fails : Fails t fault { t.logged [] with cache := t.cache } :=
    .leaving nofun (.refl valid) .refl fun _ => rfl
  rwa [unlogged] at fails

/-- A relocation that finds no room leaves nothing but reports. -/
theorem Fails.eq_logged {fault : Fault} {after : Transit} (fails : Fails t fault after)
    (isFull : fault.isFull = true) :
    ∃ passed, after = t.logged passed ∧ ∀ event ∈ passed, event.isQuiet = true := by
  rcases fails with ⟨quiet, _, _, full⟩
  rw [full isFull]
  exact ⟨_, rfl, quiet⟩

/-- Where placements and cache agree, these are the two outcomes of a
relocation. -/
theorem relocate_cases (held : t.Held code) (m : Method) (order : List Partition)
    (requested : Partition) :
    (∃ fault after, t.relocate m order requested = (.error fault, after) ∧ Fails t fault after) ∨
    ∃ placed b cache passed,
      t.relocate m order requested = (.ok b.size, t.movedTo placed b cache passed) ∧
      (∀ event ∈ passed, event.isQuiet = true) ∧
      Exchanges t m order placed b cache := by
  have valid := held.stores.valid
  unfold relocate
  split
  · exact Or.inl ⟨_, _, rfl, .refl valid _⟩
  · rename_i reached
    split
    · exact Or.inl ⟨_, _, rfl, .refl valid _⟩
    · rename_i placed found
      split
      · exact Or.inl ⟨_, _, rfl, .refl valid _⟩
      · rename_i bytes isCode
        have searched := searched_findRoom valid order requested m bytes
        generalize findRoom t.cache order requested m bytes = served at searched
        have quiet : ∀ event ∈ served.events, event.isQuiet = true := by
          intro event passed
          rcases searched.events event passed with ⟨p, rfl⟩
          rfl
        dsimp only
        split
        · rename_i fault failed
          rcases searched.kept valid failed with ⟨kept, full⟩
          have member := (Placements.mem_of_find? found).1
          have evolves := searched.evolves (held.short_of_code? member isCode).1
          exact Or.inl ⟨fault, _, rfl, .leaving quiet kept evolves full⟩
        · rename_i b granted
          rcases searched.found b granted with ⟨p, inOrder, allocated⟩
          rcases exchanges_of_allocateExact held (by simpa using reached) found isCode inOrder
            allocated with ⟨after, released, exchanges⟩
          rw [released]
          refine Or.inr ⟨placed, b, after, served.events, ?_, quiet, exchanges⟩
          rw [movedTo, ← List.append_assoc, (Placements.mem_of_find? found).2]

/-- A relocation replaces one placement by another that lasts like it. -/
theorem Relocates.placed {placed : Placement} {b : Blob} {cache : Cache}
    (relocates : Relocates t m order placed b cache) :
    (t.placements.put { placed with blob := b }).map Placement.lasting =
      t.placements.map Placement.lasting := by
  have found := relocates.found
  rcases Placements.mem_of_find? found with ⟨_, rfl⟩
  obtain ⟨before, rest, split, putSplit⟩ :=
    Placements.put_eq (q := { placed with blob := b }) found
  have sameSize : Placement.lasting { placed with blob := b } = placed.lasting := by
    simp only [Placement.lasting, Placement.size, relocates.size]
  rw [putSplit, split, List.map_append, List.map_cons, sameSize, List.map_append, List.map_cons]

/-! ## Steps -/

/-- What no step changes: the safepoint, the partitions, where the heaps are,
and what is placed. -/
structure Frame (t after : Transit) : Prop where
  safepoint : after.safepoint = t.safepoint
  segmentation : after.cache.segmentation = t.cache.segmentation
  sites : after.cache.sites = t.cache.sites
  placed : after.placements.map Placement.lasting = t.placements.map Placement.lasting

theorem Frame.refl (t : Transit) : Frame t t :=
  ⟨rfl, rfl, rfl, rfl⟩

theorem Frame.trans {middle after : Transit} (first : Frame t middle)
    (second : Frame middle after) : Frame t after :=
  ⟨second.safepoint.trans first.safepoint, second.segmentation.trans first.segmentation,
    second.sites.trans first.sites, second.placed.trans first.placed⟩

theorem SameCode.held {after : Transit} (same : SameCode t after) (held : t.Held code) :
    after.Held code := by
  rw [Held, same.cache, same.placements]
  exact held

theorem SameCode.frame {after : Transit} (same : SameCode t after) : Frame t after :=
  ⟨same.safepoint, by rw [same.cache], by rw [same.cache], by rw [same.placements]⟩

/-- A relocation that fails leaves the placements in place. -/
theorem Fails.held {fault : Fault} {after : Transit} (fails : Fails t fault after)
    (held : t.Held code) : after.Held code ∧ Frame t after := by
  rcases fails with ⟨_, kept, _, _⟩
  exact ⟨Placements.Held.kept held kept, ⟨rfl, kept.segmentation, kept.sites, rfl⟩⟩

theorem relocate_held (held : t.Held code) (m : Method) (order : List Partition)
    (requested : Partition) :
    (t.relocate m order requested).2.Held code ∧ Frame t (t.relocate m order requested).2 := by
  rcases relocate_cases held m order requested with
    ⟨fault, after, equal, fails⟩ | ⟨placed, b, cache, events, equal, _, relocates⟩
  · rw [equal]
    exact fails.held held
  · rw [equal]
    exact ⟨relocates.held held,
      ⟨rfl, relocates.segmentation, relocates.sites, relocates.toRelocates.placed⟩⟩

/-- Placements and cache agree after any number of steps. -/
theorem Steps.held {after : Transit} (steps : Steps t after) (held : t.Held code) :
    after.Held code ∧ Frame t after := by
  induction steps with
  | refl => exact ⟨held, Frame.refl t⟩
  | relocate _ m order requested inductionHypothesis =>
      rcases inductionHypothesis with ⟨heldMiddle, frame⟩
      rcases relocate_held heldMiddle m order requested with ⟨heldAfter, frameStep⟩
      exact ⟨heldAfter, frame.trans frameStep⟩
  | giveUp _ move placed inductionHypothesis =>
      rcases inductionHypothesis with ⟨heldMiddle, frame⟩
      exact ⟨heldMiddle, frame.trans ⟨rfl, rfl, rfl, rfl⟩⟩
  | note _ same inductionHypothesis =>
      rcases inductionHypothesis with ⟨heldMiddle, frame⟩
      exact ⟨same.held heldMiddle, frame.trans same.frame⟩

/-- Methods and padded sizes stay the same. -/
theorem Frame.loads_eq {after : Transit} (frame : Frame t after) (held : t.Held code)
    (heldAfter : after.Held code) : after.placements.loads = t.placements.loads := by
  rw [heldAfter.loads_eq, held.loads_eq, frame.placed]

end Transit

end CodeLayout
