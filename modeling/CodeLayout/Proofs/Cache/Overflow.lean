import CodeLayout.Proofs.Cache.Requests

/-!
# Overflow

Code for a partition is placed in the first partition of its allocation order
that has a free range for it.  Whether there is one can be told before anything is
tried, so this says which requests are granted, where the code then is, and which
partitions are reported as full on the way.

A heap may have a free range and no memory: rounding its size to pages left the words
when it was reserved.  The code then finds room there, cannot be written, and the room is lost.
-/

namespace CodeLayout

/-- The longest range is long enough if some range is. -/
theorem Extent.le_longest_iff {need : Nat} {free : List Extent} (positive : 0 < need) :
    need ≤ longest free ↔ ∃ e ∈ free, need ≤ e.length := by
  constructor
  · intro enough
    by_contra! short
    have bounded : longest free ≤ need - 1 :=
      longest_le_iff.mpr fun e isFree => Nat.le_sub_one_of_lt (short e isFree)
    omega
  · rintro ⟨e, isFree, enough⟩
    exact Nat.le_trans enough (length_le_longest isFree)

namespace Cache

variable {c start : Cache} {host : Host} {p q : Partition} {m : Method} {code : ByteArray}
  {b : Blob} {need : Nat}

/-- Some free range of a partition is long enough. -/
def HasRoom (c : Cache) (p : Partition) (need : Nat) : Prop :=
  ∃ h, c.heap? p = some h ∧ ∃ e ∈ h.free, need ≤ e.length

theorem hasRoom_iff (positive : 0 < need) : c.HasRoom p need ↔ need ≤ c.largestFree p := by
  constructor
  · rintro ⟨h, found, isLong⟩
    rw [largestFree_eq found]
    exact (Extent.le_longest_iff positive).mpr isLong
  · intro enough
    cases found : c.heap? p with
    | none =>
        rw [largestFree, found] at enough
        exact absurd enough (Nat.not_le.mpr positive)
    | some h =>
        rw [largestFree_eq found] at enough
        exact ⟨h, found, (Extent.le_longest_iff positive).mp enough⟩

/-- A blob was placed in the first partition in which it has room. -/
structure Placed (c : Cache) (p : Partition) (m : Method) (code : ByteArray) (b : Blob)
    (after : Cache) (events : List Event) : Prop where
  active : c.segmentation.isActive b.partition = true
  target : b.partition = p ∨ b.partition ∈ p.overflowTargets
  /-- It has room there; those that are tried before have none, and are reported. -/
  first : ∃ before behind, c.segmentation.allocationOrder p = before ++ b.partition :: behind ∧
    c.HasRoom b.partition (Size.padded code.size) ∧
    (∀ q ∈ before, ¬ c.HasRoom q (Size.padded code.size)) ∧ events = before.map .heapFull
  /-- The heap of the partition allocates the code. -/
  here : ∃ h k, c.heap? b.partition = some h ∧ h.allocate m code = (.ok b, k) ∧
    h.Allocated k m code b ∧ after.heap? b.partition = some k
  elsewhere : ∀ q, q ≠ b.partition → after.heap? q = c.heap? q
  segmentation : after.segmentation = c.segmentation

/-- Why code for a partition is refused, and what is reported: nothing where no partition
can be tried, and each of those that are tried where none of them has room. -/
inductive Refuses (c : Cache) (p : Partition) (need : Nat) : Fault → List Event → Prop
  | inactive (nowhere : c.segmentation.allocationOrder p = []) : Refuses c p need (.inactive p) []
  | full (somewhere : c.segmentation.allocationOrder p ≠ [])
      (noRoom : ∀ q ∈ c.segmentation.allocationOrder p, ¬ c.HasRoom q need) :
      Refuses c p need (.full p need) ((c.segmentation.allocationOrder p).map .heapFull)

/-- What becomes of code for a partition.  Where it is refused the cache stays as it is. -/
structure Overflows (c : Cache) (p : Partition) (m : Method) (code : ByteArray)
    (served : Served) : Prop where
  granted : (∃ b, served.answer = .ok b) ↔
    ∃ q ∈ c.segmentation.allocationOrder p, c.HasRoom q (Size.padded code.size)
  placed : ∀ b, served.answer = .ok b → Placed c p m code b served.cache served.events
  refused : ∀ fault, served.answer = .error fault →
    c.Refuses p (Size.padded code.size) fault served.events ∧ served.cache = c

/-- Code is refused by a heap that has room for it, but no memory to hold it.  The room is
no longer free then. -/
inductive Spoils (c : Cache) (p : Partition) (m : Method) (code : ByteArray) : Served → Prop
  | unbacked {before behind : List Partition} {q : Partition} {h : Heap} {offset : Nat}
      {free : List Extent} {fault : Fault}
      (listed : c.segmentation.allocationOrder p = before ++ q :: behind)
      (full : ∀ r ∈ before, ¬ c.HasRoom r (Size.padded code.size))
      (beyond : ¬ c.Ready q) (found : c.heap? q = some h)
      (room : Extent.carve (Size.padded code.size) h.free = some (offset, free))
      (unwritten : h.memory.write offset code = .error fault) :
      Spoils c p m code ⟨.error fault, c.put { h with free }, before.map .heapFull⟩

theorem Spoils.exists_eq {served : Served} (spoils : c.Spoils p m code served) :
    ∃ fault after events, served = ⟨.error fault, after, events⟩ := by
  cases spoils with
  | unbacked => exact ⟨_, _, _, rfl⟩

theorem isActive_of_mem_allocationOrder (member : q ∈ c.segmentation.allocationOrder p) :
    c.segmentation.isActive q = true :=
  (Segmentation.mem_allocationOrder_iff.mp member).1

/-! ## Room and answers -/

/-- A partition that says that it is full has no room. -/
theorem IsFull.not_hasRoom (full : c.IsFull m code q) (short : code.size ≤ Size.largest) :
    ¬ c.HasRoom q (Size.padded code.size) := by
  have positive := Size.padded_pos (Size.short_of_le_largest short)
  rcases full with ⟨fault, isFull, failed⟩
  rcases allocateExact_eq_error failed with ⟨nothing, _, _⟩ | ⟨h, k, found, inHeap, _⟩
  · rintro ⟨h, found, _⟩
    cases nothing.symm.trans found
  · rcases Heap.allocate_eq_error inHeap with ⟨uncarved, _, _⟩ | ⟨_, _, _, written, _⟩
    · rw [hasRoom_iff positive, largestFree_eq found]
      exact Nat.not_le.mpr ((Extent.carve_eq_none_iff positive).mp uncarved)
    · rw [Memory.isFull_of_write written] at isFull
      contradiction

/-- One that takes code has room for it. -/
theorem hasRoom_of_allocateExact {after : Cache} (short : code.size ≤ Size.largest)
    (allocated : c.allocateExact q m code = (.ok b, after)) :
    c.HasRoom q (Size.padded code.size) := by
  rw [hasRoom_iff (Size.padded_pos (Size.short_of_le_largest short))]
  rcases allocateExact_eq_ok allocated with ⟨h, k, found, inHeap, _⟩
  rcases Heap.allocate_eq_ok inHeap with ⟨_, _, _, carved, _, _, _⟩
  rw [largestFree_eq found]
  exact Extent.le_longest_of_carve carved

/-- An allocation in one partition leaves the others alone. -/
theorem Valid.placed_of_allocateExact (valid : c.Valid) {before behind : List Partition}
    {after : Cache} (listed : c.segmentation.allocationOrder p = before ++ q :: behind)
    (short : code.size ≤ Size.largest) (full : ∀ r ∈ before, c.IsFull m code r)
    (allocated : c.allocateExact q m code = (.ok b, after)) :
    Placed c p m code b after (before.map .heapFull) := by
  have room := hasRoom_of_allocateExact short allocated
  rcases valid.gained_of_allocateExact allocated with ⟨gained, rfl⟩
  rcases allocateExact_eq_ok allocated with ⟨h, k, found, inHeap, isHere, rfl⟩
  have member : b.partition ∈ c.segmentation.allocationOrder p :=
    listed ▸ List.mem_append_right _ List.mem_cons_self
  rcases Segmentation.mem_allocationOrder_iff.mp member with ⟨active, target⟩
  have validHeap := valid.heaps h (mem_of_heap? found).1
  constructor
  · exact active
  · exact target
  · exact ⟨before, behind, listed, room, fun r passed => (full r passed).not_hasRoom short, rfl⟩
  · exact ⟨h, k, found, inHeap, validHeap.allocated_of_allocate inHeap,
      heap?_put_self found isHere⟩
  · intro other differs
    exact heap?_of_allocateExact allocated differs
  · exact gained.segmentation

/-! ## What becomes of a request -/

/-- What is placed overflows as it should. -/
theorem Placed.overflows {after : Cache} {events : List Event}
    (placed : Placed c p m code b after events) :
    c.Overflows p m code ⟨.ok b, after, events⟩ := by
  rcases placed.first with ⟨before, behind, listed, room, _⟩
  constructor
  · have member : b.partition ∈ c.segmentation.allocationOrder p :=
      listed ▸ List.mem_append_right _ List.mem_cons_self
    exact ⟨fun _ => ⟨_, member, room⟩, fun _ => ⟨b, rfl⟩⟩
  · rintro blob ⟨⟩
    exact placed
  · exact nofun

/-- And so does what is refused for want of room. -/
theorem Refuses.overflows {fault : Fault} {events : List Event}
    (refuses : c.Refuses p (Size.padded code.size) fault events) :
    c.Overflows p m code ⟨.error fault, c, events⟩ := by
  have noRoom : ∀ q ∈ c.segmentation.allocationOrder p, ¬ c.HasRoom q (Size.padded code.size) := by
    cases refuses with
    | inactive nowhere =>
        rw [nowhere]
        simp
    | full _ noRoom => exact noRoom
  constructor
  · constructor
    · rintro ⟨b, granted⟩
      cases granted
    · rintro ⟨q, member, room⟩
      exact absurd room (noRoom q member)
  · exact nofun
  · rintro other ⟨⟩
    exact ⟨refuses, rfl⟩

namespace Complete

/-- Where code is refused, though a partition is not full, its heap has no memory. -/
theorem spoils_of_allocateExact (complete : c.Complete) {before behind : List Partition}
    {after : Cache} {fault : Fault}
    (listed : c.segmentation.allocationOrder p = before ++ q :: behind)
    (short : code.size ≤ Size.largest) (full : ∀ r ∈ before, c.IsFull m code r)
    (other : fault.isFull = false) (failed : c.allocateExact q m code = (.error fault, after)) :
    c.Spoils p m code ⟨.error fault, after, before.map .heapFull⟩ := by
  have beyond : ¬ c.Ready q := by
    intro ready
    have isFull := complete.valid.isFull_of_allocateExact ready (Size.short_of_le_largest short)
      failed
    rw [other] at isFull
    contradiction
  rcases allocateExact_eq_error failed with ⟨nothing, _, _⟩ | ⟨h, k, found, inHeap, rfl⟩
  · rcases complete.exists_heap (isActive_of_mem_allocationOrder
      (listed ▸ List.mem_append_right _ List.mem_cons_self)) with ⟨h, found⟩
    cases nothing.symm.trans found
  · rcases Heap.allocate_eq_error inHeap with ⟨_, rfl, _⟩ | ⟨offset, free, carved, written, rfl⟩
    · contradiction
    · exact .unbacked listed (fun r passed => (full r passed).not_hasRoom short) beyond found
        carved written

/-- Code for a partition is placed, or it finds no room, or a heap that has room for it has
no memory. -/
theorem overflows_or_spoils (complete : c.Complete) (p : Partition) (m : Method)
    (code : ByteArray) (short : code.size ≤ Size.largest) :
    c.Overflows p m code (c.allocate p m code) ∨ c.Spoils p m code (c.allocate p m code) := by
  by_cases nowhere : c.segmentation.allocationOrder p = []
  · have refused : c.allocate p m code = ⟨.error (.inactive p), c, []⟩ := by
      rw [allocate, nowhere]
      rfl
    rw [refused]
    exact Or.inl (Refuses.inactive nowhere).overflows
  · have tried := complete.valid.tried (c.segmentation.allocationOrder p) p m code
    rw [allocate, allocateInOrder, if_neg (by simpa using nowhere)]
    generalize c.tryEach p m code (c.segmentation.allocationOrder p) = served at tried ⊢
    cases tried with
    | placed listed full allocated =>
        exact Or.inl (complete.valid.placed_of_allocateExact listed short full allocated).overflows
    | failed listed full other failed =>
        exact Or.inr (complete.spoils_of_allocateExact listed short full other failed)
    | full full =>
        exact Or.inl (Refuses.full nowhere fun q member =>
          (full q member).not_hasRoom short).overflows

/-- Where all heaps that are tried have memory, code is placed or finds no room. -/
theorem overflows (complete : c.Complete)
    (ready : ∀ q ∈ c.segmentation.allocationOrder p, c.Ready q) (m : Method) (code : ByteArray)
    (short : code.size ≤ Size.largest) : c.Overflows p m code (c.allocate p m code) := by
  rcases complete.overflows_or_spoils p m code short with overflows | spoils
  · exact overflows
  · generalize c.allocate p m code = served at spoils
    cases spoils with
    | unbacked listed _ beyond _ _ _ =>
        exact absurd (ready _ (listed ▸ List.mem_append_right _ List.mem_cons_self)) beyond

end Complete

/-! ## After any requests -/

theorem heap?_of_reserve {s : Segmentation} (reserved : reserve s host = .ok start)
    (active : s.isActive p = true) :
    ∃ h, start.heap? p = some h ∧ Heap.reserve host p (s.capacity p) = .ok h := by
  have valid := (valid_of_reserve reserved).1
  rcases List.forall₂_iff_get.mp (reserve_eq_ok reserved).2 with ⟨length, heaps⟩
  rcases List.get_of_mem (Segmentation.mem_active active) with ⟨i, isHere⟩
  have inHeaps := heaps i i.isLt (length ▸ i.isLt)
  rw [isHere] at inHeaps
  have isPartition := (Heap.reserve_eq_ok inHeaps).1
  have partition : (start.heaps.get ⟨i, length ▸ i.isLt⟩).partition = p :=
    (congrArg Heap.Site.partition isPartition).trans (Heap.partition_reservedSite host p _)
  exact ⟨_, partition ▸ valid.heap?_of_mem (List.get_mem _ _), inHeaps⟩

/-- A heap whose size the rounding takes beyond the words refuses what it has room for. -/
theorem not_overflows_of_wraps {s : Segmentation} (reserved : reserve s host = .ok start)
    (active : s.isActive p = true) (beyond : ¬ host.Holds (s.capacity p)) (m : Method) :
    ¬ start.Overflows p m Heap.oneByte (start.allocate p m Heap.oneByte) := by
  intro overflows
  have segmentation := (reserve_eq_ok reserved).1
  rcases heap?_of_reserve reserved active with ⟨h, found, inHeap⟩
  rcases Heap.allocate_of_wraps inHeap beyond m with ⟨enough, text, after, failed, _⟩
  have room : start.HasRoom p (Size.padded Heap.oneByte.size) := by
    rw [hasRoom_iff (by decide), largestFree_eq found]
    exact enough
  have head : start.segmentation.allocationOrder p = p :: s.overflowChain p := by
    rw [segmentation, Segmentation.allocationOrder, if_pos active]
  rcases overflows.granted.mpr ⟨p, head ▸ List.mem_cons_self, room⟩ with ⟨b, granted⟩
  have placed := overflows.placed b granted
  -- Nothing is tried before the partition itself, so the code is there, or a partition with
  -- room was passed over.
  have isHere : b.partition = p := by
    rcases placed.first with ⟨before, behind, listed, _, full, _⟩
    rw [head] at listed
    cases before with
    | nil => exact (List.cons.inj listed).1.symm
    | cons first rest =>
        rw [← (List.cons.inj listed).1] at full
        exact absurd room (full p List.mem_cons_self)
  rcases placed.here with ⟨g, k, foundThere, allocated, _⟩
  rw [isHere, found] at foundThere
  cases foundThere
  cases failed.symm.trans allocated

/-- Whatever a cache is asked, it goes on to place code for a partition in the first one that
has room for it. -/
def Overflowing (start : Cache) : Prop :=
  ∀ (requests : List Request) (p : Partition) (m : Method) (code : ByteArray)
    (short : code.size ≤ Size.largest),
  let c := start.serveAll requests
  c.Overflows p m code (c.serve (.allocate p m code short))

/-- After any requests code for a partition goes to the first one that has room for it, or to
none with nothing changed, unless it comes upon a heap without memory.  It never does exactly
if the host holds all the active heaps. -/
theorem overflows_serveAll {s : Segmentation} (reserved : reserve s host = .ok start) :
    (∀ (requests : List Request) (p : Partition) (m : Method) (code : ByteArray)
        (short : code.size ≤ Size.largest),
      let c := start.serveAll requests
      let served := c.serve (.allocate p m code short)
      (c.Overflows p m code served ∨ c.Spoils p m code served) ∧
        ((∀ q ∈ s.allocationOrder p, host.Holds (s.capacity q)) → c.Overflows p m code served)) ∧
    (start.Overflowing ↔ ∀ p, s.isActive p = true → host.Holds (s.capacity p)) := by
  have each (requests : List Request) (p : Partition) : (start.serveAll requests).Complete ∧
      ((∀ q ∈ s.allocationOrder p, host.Holds (s.capacity q)) →
        ∀ q ∈ (start.serveAll requests).segmentation.allocationOrder p,
          (start.serveAll requests).Ready q) := by
    rcases (sound_of_reserve reserved).serveAll requests with ⟨sound, same⟩
    refine ⟨sound.complete, ?_⟩
    intro whole q member
    rw [sound.ready_iff]
    rw [same, (reserve_eq_ok reserved).1] at member ⊢
    exact ⟨(Segmentation.mem_allocationOrder_iff.mp member).1, whole q member⟩
  constructor
  · intro requests p m code short
    rcases each requests p with ⟨complete, ready⟩
    exact ⟨complete.overflows_or_spoils p m code short,
      fun whole => complete.overflows (ready whole) m code short⟩
  · constructor
    · intro always p active
      apply Decidable.byContradiction
      intro beyond
      exact not_overflows_of_wraps reserved active beyond ⟨"", "", ""⟩
        (always [] p _ Heap.oneByte (by decide))
    · intro whole requests p m code short
      rcases each requests p with ⟨complete, ready⟩
      exact complete.overflows (ready fun q member =>
        whole q (Segmentation.mem_allocationOrder_iff.mp member).1) m code short

/-- One segment for hot code, and the partition that it overflows into. -/
def scantSegmentation : Segmentation where
  active := PartitionSet.ofList [.nonProfiled, .hot]
  capacity p := if p = .hot then 64 else 128

/-- A host with a page for each partition. -/
def scantHost : Host := .ofBase fun p => (p.id + 1) * 0x1000

def scantCache : Cache where
  segmentation := scantSegmentation
  heaps :=
    [{ partition := .nonProfiled, base := 0x1000, capacity := 128, memory := ⟨4096, true, []⟩
       free := [⟨0, 128⟩], blobs := [], used := 0 },
      { partition := .hot, base := 0x3000, capacity := 64, memory := ⟨4096, true, []⟩
        free := [⟨0, 64⟩], blobs := [], used := 0 }]

theorem reserved_scant : reserve scantSegmentation scantHost = .ok scantCache :=
  rfl

/-- A method that takes all the room there is for hot code. -/
def crowded : List Request :=
  [.allocateExact .hot ⟨"Main", "first", "()V"⟩ ⟨#[6, 7, 8]⟩ (by decide)]

/-- The next hot method is placed outside the hot partition, which is reported. -/
theorem overflows_scant :
    let c := scantCache.serveAll crowded
    let served := c.serve (.allocate .hot ⟨"Main", "second", "()V"⟩ ⟨#[4, 5]⟩ (by decide))
    served.answer = .ok ⟨⟨"Main", "second", "()V"⟩, .nonProfiled, 0x1000, 2, 64⟩ ∧
      served.events = [.heapFull .hot] ∧
      c.Overflows .hot ⟨"Main", "second", "()V"⟩ ⟨#[4, 5]⟩ served :=
  ⟨rfl, rfl, ((overflows_serveAll reserved_scant).1 crowded _ _ _ _).2 (by decide)⟩

/-- Options that ask for as much memory as can be asked for. -/
def vastOptions : Options :=
  { Options.default with nonMethodSize := 0xFFFFFFFFFFFFFFFF }

/-- The partitions that they call for. -/
def vastSegmentation : Segmentation where
  active := Segmentation.activeOf vastOptions
  capacity := Segmentation.requestedCapacity vastOptions

/-- The cache for them.  Its last partition has no memory. -/
def vastCache : Cache where
  segmentation := vastSegmentation
  heaps :=
    [{ partition := .nonProfiled, base := 0x1000, capacity := 121634816
       memory := ⟨121634816, true, []⟩, free := [⟨0, 121634816⟩], blobs := [], used := 0 },
      { partition := .profiled, base := 0x2000, capacity := 121634816
        memory := ⟨121634816, true, []⟩, free := [⟨0, 121634816⟩], blobs := [], used := 0 },
      Heap.hollowHeap .nonMethod 0x5000]

theorem reserved_vast : reserve vastSegmentation scantHost = .ok vastCache :=
  rfl

/-- Three bytes for a partition that has the largest heap, which has no memory. -/
theorem allocate_of_hollow {base : Nat} (active : c.segmentation.isActive p = true)
    (hollow : c.heap? p = some (Heap.hollowHeap p base)) (three : code.size = 3) (m : Method) :
    c.allocate p m code = ⟨.error (.internal "code write out of bounds: offset=0, len=3, size=0"),
      c.put (Heap.spoiltHeap p base), []⟩ := by
  rw [allocate, Segmentation.allocationOrder, if_pos active, allocateInOrder,
    if_neg (by simp), tryEach, allocateExact, hollow]
  simp only [Heap.allocate_hollowHeap p base m three]
  rfl

/-- Three bytes find room in it, are refused for another reason than want of room, and the room
is lost. -/
theorem not_overflows :
    Segmentation.ofOptions vastOptions = .ok vastSegmentation ∧
      reserve vastSegmentation scantHost = .ok vastCache ∧
      vastCache.HasRoom .nonMethod (Size.padded 3) ∧
      let served := vastCache.serve (.allocate .nonMethod ⟨"app/A", "a", "()V"⟩ ⟨#[0, 1, 2]⟩
        (by decide))
      served.answer = .error (.internal "code write out of bounds: offset=0, len=3, size=0") ∧
        served.cache.heap? .nonMethod = some (Heap.spoiltHeap .nonMethod 0x5000) ∧
        ¬ vastCache.Overflows .nonMethod ⟨"app/A", "a", "()V"⟩ ⟨#[0, 1, 2]⟩ served := by
  have room : vastCache.HasRoom .nonMethod (Size.padded 3) :=
    ⟨_, rfl, _, List.mem_singleton.mpr rfl, by decide⟩
  have failed := allocate_of_hollow (c := vastCache) (p := .nonMethod) (by decide) rfl
    (show (⟨#[0, 1, 2]⟩ : ByteArray).size = 3 from rfl) ⟨"app/A", "a", "()V"⟩
  rw [serve, failed]
  refine ⟨rfl, reserved_vast, room, rfl, rfl, ?_⟩
  intro overflows
  rcases overflows.granted.mpr ⟨.nonMethod, List.mem_cons_self, room⟩ with ⟨b, granted⟩
  cases granted

end Cache

end CodeLayout
