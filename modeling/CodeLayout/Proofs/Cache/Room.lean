import CodeLayout.Proofs.Cache.Allocation
import CodeLayout.Proofs.Heap.Room

/-!
# Room in a cache

A partition is ready if its heap is backed by memory.  Code finds room in a
ready partition exactly when its longest free range is long enough; a search
through ready partitions fails only for want of room.  A cache changes by
exact allocations and by releases, which keep the heaps tidy that are backed.
-/

namespace CodeLayout.Cache

variable {c after : Cache} {p q : Partition} {m : Method} {code : ByteArray} {b freed : Blob}
  {h k : Heap}

/-- The partition has a heap, which is backed by memory. -/
def Ready (c : Cache) (p : Partition) : Prop :=
  ∃ s ∈ c.sites, s.partition = p ∧ s.Backed

theorem Ready.of_sites (ready : c.Ready p) (same : after.sites = c.sites) : after.Ready p := by
  rw [Ready, same]
  exact ready

theorem Valid.heap_of_ready (valid : c.Valid) (ready : c.Ready p) :
    ∃ h, c.heap? p = some h ∧ h.site.Backed := by
  rcases ready with ⟨s, isSite, rfl, backed⟩
  rcases List.mem_map.mp isSite with ⟨h, isHeap, rfl⟩
  exact ⟨h, valid.heap?_of_mem isHeap, backed⟩

theorem largestFree_eq (found : c.heap? p = some h) : c.largestFree p = h.largestFree := by
  rw [largestFree, found]
  rfl

/-! ## Heaps after a change -/

theorem heap?_put_self (found : c.heap? p = some h) (same : k.partition = p) :
    (c.put k).heap? p = some k := by
  rw [heap?_put, found, Option.map_some, if_pos ((mem_of_heap? found).2.trans same.symm)]

theorem heap?_put_of_ne (other : k.partition ≠ p) : (c.put k).heap? p = c.heap? p := by
  rw [heap?_put]
  cases found : c.heap? p with
  | none => rfl
  | some h =>
      have differs : h.partition ≠ k.partition := by
        rw [(mem_of_heap? found).2]
        exact other.symm
      rw [Option.map_some, if_neg differs]

/-- A release takes a blob out of the heap of its partition. -/
theorem release_eq_ok (released : c.release b = .ok (freed, after)) :
    ∃ h, c.heap? b.partition = some h ∧ freed ∈ h.blobs ∧ freed.address = b.address ∧
      after = c.put (h.without freed) := by
  rw [release] at released
  split at released
  · contradiction
  · rename_i h found
    cases inHeap : h.release b.address with
    | error fault =>
        rw [inHeap] at released
        contradiction
    | ok result =>
        rw [inHeap] at released
        cases released
        rcases result with ⟨freed, k⟩
        rcases Heap.release_eq_ok inHeap with ⟨live, sameAddress, rfl⟩
        exact ⟨h, found, live, sameAddress, rfl⟩

/-! ## Room for an allocation -/

theorem Valid.allocateExact_of_room (valid : c.Valid) (ready : c.Ready p)
    (short : code.size + Size.segment ≤ Size.wordLimit)
    (room : Size.padded code.size ≤ c.largestFree p) :
    ∃ b after, c.allocateExact p m code = (.ok b, after) := by
  rcases valid.heap_of_ready ready with ⟨h, found, backed⟩
  rw [largestFree_eq found] at room
  rcases (valid.heaps h (mem_of_heap? found).1).allocate_of_room (m := m) backed short room with
    ⟨b, k, allocated⟩
  refine ⟨b, c.put k, ?_⟩
  simp only [allocateExact, found, allocated]

theorem Valid.allocateExact_of_full (valid : c.Valid) (ready : c.Ready p)
    (short : code.size + Size.segment ≤ Size.wordLimit)
    (full : c.largestFree p < Size.padded code.size) :
    c.allocateExact p m code = (.error (.full p (Size.padded code.size)), c) := by
  rcases valid.heap_of_ready ready with ⟨h, found, _⟩
  rw [largestFree_eq found] at full
  simp only [allocateExact, found, Heap.allocate_of_full short full, (mem_of_heap? found).2,
    valid.put_self (mem_of_heap? found).1]

/-- In a ready partition an allocation fails for want of room only. -/
theorem Valid.isFull_of_allocateExact (valid : c.Valid) (ready : c.Ready p)
    (short : code.size + Size.segment ≤ Size.wordLimit) {fault : Fault}
    (failed : c.allocateExact p m code = (.error fault, after)) : fault.isFull = true := by
  rcases Nat.lt_or_ge (c.largestFree p) (Size.padded code.size) with full | room
  · cases failed.symm.trans (valid.allocateExact_of_full ready short full)
    rfl
  · rcases valid.allocateExact_of_room (m := m) ready short room with ⟨b, gained, allocated⟩
    cases failed.symm.trans allocated

/-- And so does a search through ready partitions. -/
theorem Searched.isFull_of_ready {order : List Partition} {served : Served}
    (searched : Searched c order m code served) (valid : c.Valid)
    (ready : ∀ p ∈ order, c.Ready p) (some : order ≠ [])
    (short : code.size + Size.segment ≤ Size.wordLimit) {fault : Fault}
    (failed : served.answer = .error fault) : fault.isFull = true := by
  rcases searched.failed fault failed with ⟨isFull | nothing, _⟩ | ⟨_, p, inOrder, attempted⟩
  · exact isFull
  · exact absurd nothing some
  · exact valid.isFull_of_allocateExact (ready p inOrder) short attempted

/-! ## Heaps of other partitions -/

/-- An allocation leaves them alone, also if it fails. -/
theorem heap?_of_allocateExact {answer : Except Fault Blob}
    (attempted : c.allocateExact p m code = (answer, after)) (other : q ≠ p) :
    after.heap? q = c.heap? q := by
  cases answer with
  | ok b =>
      rcases allocateExact_eq_ok attempted with ⟨h, k, _, _, isHere, rfl⟩
      exact heap?_put_of_ne (isHere ▸ Ne.symm other)
  | error fault =>
      rcases allocateExact_eq_error attempted with ⟨_, _, rfl⟩ | ⟨h, k, found, inHeap, rfl⟩
      · rfl
      · have isHere : k.partition = p := by
          rcases Heap.allocate_eq_error inHeap with ⟨_, _, rfl⟩ | ⟨_, _, _, _, rfl⟩ <;>
            exact (mem_of_heap? found).2
        exact heap?_put_of_ne (isHere ▸ Ne.symm other)

/-- So does a search for room with those of the partitions that it does not try. -/
theorem Searched.heap?_eq {order : List Partition} {served : Served}
    (searched : Searched c order m code served) (outside : q ∉ order) :
    served.cache.heap? q = c.heap? q := by
  have other {p : Partition} (inOrder : p ∈ order) : q ≠ p := fun same => outside (same ▸ inOrder)
  cases answer : served.answer with
  | ok b =>
      rcases searched.found b answer with ⟨p, inOrder, allocated⟩
      exact heap?_of_allocateExact allocated (other inOrder)
  | error fault =>
      rcases searched.failed fault answer with ⟨_, same⟩ | ⟨_, p, inOrder, attempted⟩
      · rw [same]
      · exact heap?_of_allocateExact attempted (other inOrder)

theorem heap?_of_release (released : c.release b = .ok (freed, after))
    (other : q ≠ b.partition) : after.heap? q = c.heap? q := by
  rcases release_eq_ok released with ⟨h, found, _, _, rfl⟩
  have isHere : (h.without freed).partition = b.partition := (mem_of_heap? found).2
  exact heap?_put_of_ne (isHere ▸ Ne.symm other)

/-! ## Free ranges after a change -/

/-- Code goes into a free range only if this is long enough. -/
theorem le_largestFree_of_allocateExact (allocated : c.allocateExact p m code = (.ok b, after)) :
    b.padded ≤ c.largestFree p := by
  rcases allocateExact_eq_ok allocated with ⟨h, k, found, inHeap, _⟩
  rw [largestFree_eq found]
  exact (Heap.free_of_allocate inHeap).1

/-- What an allocation takes off the longest free range of its partition. -/
theorem largestFree_of_allocateExact (allocated : c.allocateExact p m code = (.ok b, after))
    (q : Partition) :
    c.largestFree q ≤ after.largestFree q + if q = p then b.padded else 0 := by
  split
  · rename_i same
    cases same
    rcases allocateExact_eq_ok allocated with ⟨h, k, found, inHeap, isHere, rfl⟩
    rw [largestFree_eq found, largestFree_eq (heap?_put_self found isHere)]
    exact (Heap.free_of_allocate inHeap).2.1
  · rename_i other
    refine Nat.le_of_eq ?_
    rw [largestFree, largestFree, heap?_of_allocateExact allocated other, Nat.add_zero]

theorem largestFree_of_release (released : c.release b = .ok (freed, after)) (q : Partition) :
    c.largestFree q ≤ after.largestFree q := by
  by_cases same : q = b.partition
  · cases same
    rcases release_eq_ok released with ⟨h, found, _, _, rfl⟩
    have isHere : (h.without freed).partition = b.partition := (mem_of_heap? found).2
    rw [largestFree_eq found, largestFree_eq (heap?_put_self found isHere)]
    exact Heap.largestFree_without h freed
  · refine Nat.le_of_eq ?_
    rw [largestFree, largestFree, heap?_of_release released same]

/-- The number of free ranges of a partition. -/
def pieces (c : Cache) (p : Partition) : Nat :=
  ((c.heap? p).map fun h => h.free.length).getD 0

/-- An allocation does not split a free range. -/
theorem pieces_of_allocateExact (allocated : c.allocateExact p m code = (.ok b, after))
    (q : Partition) : after.pieces q ≤ c.pieces q := by
  by_cases same : q = p
  · cases same
    rcases allocateExact_eq_ok allocated with ⟨h, k, found, inHeap, isHere, rfl⟩
    rw [pieces, pieces, heap?_put_self found isHere, found]
    exact (Heap.free_of_allocate inHeap).2.2
  · refine Nat.le_of_eq ?_
    rw [pieces, pieces, heap?_of_allocateExact allocated same]

/-- Where there is one free range at most, it has all free bytes. -/
theorem largestFree_of_whole (found : c.heap? p = some h) (tidy : h.Tidy)
    (whole : c.pieces p ≤ 1) : c.largestFree p = h.freeBytes := by
  rw [pieces, found] at whole
  rw [largestFree_eq found, tidy.freeBytes_eq]
  exact Extent.longest_eq_total whole

/-! ## Changes of a cache -/

/-- A cache becomes another one by exact allocations, which may fail, and by releases. -/
inductive Evolves (c : Cache) : Cache → Prop
  | refl : Evolves c c
  | allocate {middle after : Cache} {p : Partition} {m : Method} {code : ByteArray} {b : Blob}
      (evolves : Evolves c middle) (allocated : middle.allocateExact p m code = (.ok b, after)) :
      Evolves c after
  | fail {middle after : Cache} {p : Partition} {m : Method} {code : ByteArray} {fault : Fault}
      (evolves : Evolves c middle) (short : code.size + Size.segment ≤ Size.wordLimit)
      (failed : middle.allocateExact p m code = (.error fault, after)) : Evolves c after
  | release {middle after : Cache} {b freed : Blob} (evolves : Evolves c middle)
      (released : middle.release b = .ok (freed, after)) : Evolves c after

theorem Evolves.trans {middle : Cache} (first : Evolves c middle) (second : Evolves middle after) :
    Evolves c after := by
  induction second with
  | refl => exact first
  | allocate _ allocated inductionHypothesis => exact inductionHypothesis.allocate allocated
  | fail _ short failed inductionHypothesis => exact inductionHypothesis.fail short failed
  | release _ released inductionHypothesis => exact inductionHypothesis.release released

/-- A search is one exact allocation, or nothing. -/
theorem Searched.evolves {order : List Partition} {served : Served}
    (searched : Searched c order m code served)
    (short : code.size + Size.segment ≤ Size.wordLimit) : c.Evolves served.cache := by
  cases answer : served.answer with
  | ok b =>
      rcases searched.found b answer with ⟨p, _, allocated⟩
      exact Evolves.refl.allocate allocated
  | error fault =>
      rcases searched.failed fault answer with ⟨_, same⟩ | ⟨_, p, _, failed⟩
      · rw [same]
        exact .refl
      · exact Evolves.refl.fail short failed

/-- The heaps that are backed are tidy. -/
def Tidy (c : Cache) : Prop :=
  ∀ h ∈ c.heaps, h.site.Backed → h.Tidy

theorem Tidy.put (tidy : c.Tidy) (tidyHeap : k.site.Backed → k.Tidy) : (c.put k).Tidy := by
  intro g isHeap
  rcases List.mem_map.mp isHeap with ⟨h, old, rfl⟩
  split
  · exact tidyHeap
  · exact tidy h old

theorem Evolves.tidy (evolves : Evolves c after) (valid : c.Valid) (tidy : c.Tidy) :
    after.Valid ∧ after.Tidy := by
  induction evolves with
  | refl => exact ⟨valid, tidy⟩
  | allocate _ allocated inductionHypothesis =>
      rcases inductionHypothesis with ⟨validMiddle, tidyMiddle⟩
      rcases allocateExact_eq_ok allocated with ⟨h, k, found, inHeap, _, rfl⟩
      have isHeap := (mem_of_heap? found).1
      have site := ((validMiddle.heaps h isHeap).allocated_of_allocate inHeap).site
      rcases validMiddle.gained_of_allocateExact allocated with ⟨gained, _⟩
      exact ⟨gained.valid, tidyMiddle.put fun backed =>
        (tidyMiddle h isHeap (site ▸ backed)).allocate inHeap⟩
  | fail _ short failed inductionHypothesis =>
      rcases inductionHypothesis with ⟨validMiddle, tidyMiddle⟩
      refine ⟨(validMiddle.kept_of_allocateExact failed).1.valid, ?_⟩
      rcases allocateExact_eq_error failed with ⟨_, _, rfl⟩ | ⟨h, k, found, inHeap, rfl⟩
      · exact tidyMiddle
      · have isHeap := (mem_of_heap? found).1
        have site : k.site = h.site := by
          rcases Heap.allocate_eq_error inHeap with ⟨_, _, rfl⟩ | ⟨_, _, _, _, rfl⟩ <;> rfl
        -- A heap that is backed loses nothing by a failure.
        refine tidyMiddle.put fun backed => ?_
        rw [site] at backed
        rw [((validMiddle.heaps h isHeap).allocate_of_error backed short inHeap).2]
        exact tidyMiddle h isHeap backed
  | release _ released inductionHypothesis =>
      rcases inductionHypothesis with ⟨validMiddle, tidyMiddle⟩
      rcases release_eq_ok released with ⟨h, found, inHeap, _, rfl⟩
      have isHeap := (mem_of_heap? found).1
      have validHeap := validMiddle.heaps h isHeap
      rcases (validHeap.release_of_mem inHeap).2 with ⟨site, validLost, _, _⟩
      exact ⟨(validMiddle.put_valid isHeap site validLost).1,
        tidyMiddle.put fun backed => (tidyMiddle h isHeap backed).without validHeap inHeap⟩

/-! ## New caches -/

theorem heaps_tidy_of_reserve {host : Host} {size : Partition → Nat} {ps : List Partition}
    {heaps : List Heap}
    (listed : List.Forall₂ (fun p h => Heap.reserve host p (size p) = .ok h) ps heaps) :
    (∀ h ∈ heaps, h.Tidy) ∧
      heaps.map Heap.site = ps.map fun p => Heap.reservedSite host p (size p) := by
  induction listed with
  | nil => simp
  | cons first _ inductionHypothesis =>
      rcases inductionHypothesis with ⟨tidyRest, sites⟩
      rcases Heap.tidy_of_reserve first with ⟨tidy, site⟩
      rw [List.map_cons, List.map_cons, site, sites]
      exact ⟨List.forall_mem_cons.mpr ⟨tidy, tidyRest⟩, rfl⟩

/-- The heaps of a new cache are tidy and have the sizes that the segmentation
says. -/
theorem tidy_of_reserve {s : Segmentation} {host : Host}
    (reserved : reserve s host = .ok c) :
    c.Tidy ∧ c.segmentation = s ∧
      c.sites = s.active.toList.map fun p => Heap.reservedSite host p (s.capacity p) := by
  rcases reserve_eq_ok reserved with ⟨isSegmentation, listed⟩
  rcases heaps_tidy_of_reserve listed with ⟨tidy, sites⟩
  exact ⟨fun h isHeap _ => tidy h isHeap, isSegmentation, sites⟩

end CodeLayout.Cache
