import CodeLayout.Proofs.Cache.Usable
import CodeLayout.Proofs.Heap.Requests

/-!
# Requests to a cache

A cache serves one request after the other.  Whatever is asked, its heaps stay where they
are and as long as they are; so it can be told from the segmentation, and for all times,
which of them are backed by the memory of the host.
-/

namespace CodeLayout.Cache

variable {c after : Cache} {p : Partition} {host : Host}

/-- What a cache is asked to do.  No code is longer than the largest size. -/
inductive Request where
  | allocateExact (p : Partition) (method : Method) (code : ByteArray)
      (short : code.size ≤ Size.largest)
  | allocateInOrder (order : List Partition) (requested : Partition) (method : Method)
      (code : ByteArray) (short : code.size ≤ Size.largest)
  | allocate (p : Partition) (method : Method) (code : ByteArray)
      (short : code.size ≤ Size.largest)
  | release (blob : Blob)

/-- Serve a request. -/
def serve (c : Cache) : Request → Served
  | .allocateExact p m code _ =>
    let (answer, after) := c.allocateExact p m code
    ⟨answer, after, []⟩
  | .allocateInOrder order requested m code _ => c.allocateInOrder order requested m code
  | .allocate p m code _ => c.allocate p m code
  | .release blob =>
    match c.release blob with
    | .ok (freed, after) => ⟨.ok freed, after, []⟩
    | .error fault => ⟨.error fault, c, []⟩

/-- The cache after a list of requests. -/
def serveAll (c : Cache) (requests : List Request) : Cache :=
  requests.foldl (fun c request => (c.serve request).cache) c

/-- The active partitions, and no others, have a heap. -/
structure Complete (c : Cache) : Prop where
  valid : c.Valid
  active : c.sites.map Heap.Site.partition = c.segmentation.active.toList

theorem Complete.exists_heap (complete : c.Complete) (active : c.segmentation.isActive p = true) :
    ∃ h, c.heap? p = some h := by
  have listed := Segmentation.mem_active active
  rw [← complete.active, sites, List.map_map] at listed
  rcases List.mem_map.mp listed with ⟨h, isHeap, rfl⟩
  exact ⟨h, complete.valid.heap?_of_mem isHeap⟩

/-- The heaps are those that a segmentation calls for on a host. -/
structure Sound (host : Host) (c : Cache) : Prop where
  valid : c.Valid
  sites : c.sites = c.segmentation.active.toList.map fun p =>
    Heap.reservedSite host p (c.segmentation.capacity p)

/-- A new cache is sound. -/
theorem sound_of_reserve {s : Segmentation} (reserved : reserve s host = .ok c) :
    c.Sound host := by
  rcases tidy_of_reserve reserved with ⟨_, rfl, sites⟩
  exact ⟨(valid_of_reserve reserved).1, sites⟩

/-- No change of a cache touches its segmentation, or moves a heap. -/
theorem Evolves.frame (evolves : c.Evolves after) (valid : c.Valid) :
    after.Valid ∧ after.segmentation = c.segmentation ∧ after.sites = c.sites := by
  induction evolves with
  | refl => exact ⟨valid, rfl, rfl⟩
  | allocate _ allocated inductionHypothesis =>
      rcases inductionHypothesis with ⟨validMiddle, segmentation, sites⟩
      rcases validMiddle.gained_of_allocateExact allocated with ⟨gained, _⟩
      exact ⟨gained.valid, gained.segmentation.trans segmentation, gained.sites.trans sites⟩
  | fail _ _ failed inductionHypothesis =>
      rcases inductionHypothesis with ⟨validMiddle, segmentation, sites⟩
      rcases validMiddle.kept_of_allocateExact failed with ⟨kept, _⟩
      exact ⟨kept.valid, kept.segmentation.trans segmentation, kept.sites.trans sites⟩
  | release _ released inductionHypothesis =>
      rcases inductionHypothesis with ⟨validMiddle, segmentation, sites⟩
      rcases release_eq_ok released with ⟨h, found, inHeap, _, rfl⟩
      have isHeap := (mem_of_heap? found).1
      rcases ((validMiddle.heaps h isHeap).release_of_mem inHeap).2 with ⟨site, validHeap, _, _⟩
      rcases validMiddle.put_valid isHeap site validHeap with ⟨validAfter, sitesAfter⟩
      exact ⟨validAfter, segmentation, sitesAfter.trans sites⟩

/-- A request is an allocation in one partition, which may fail, or a release. -/
theorem Valid.evolves_serve (valid : c.Valid) (request : Request) :
    c.Evolves (c.serve request).cache := by
  cases request with
  | allocateExact p m code short =>
      cases attempted : c.allocateExact p m code with
      | mk answer after =>
          rw [serve, attempted]
          cases answer with
          | ok b => exact Evolves.refl.allocate attempted
          | error fault => exact Evolves.refl.fail (Size.short_of_le_largest short) attempted
  | allocateInOrder order requested m code short =>
      exact (valid.searched_allocateInOrder order requested m code).evolves
        (Size.short_of_le_largest short)
  | allocate p m code short =>
      exact (valid.searched_allocateInOrder _ p m code).evolves (Size.short_of_le_largest short)
  | release blob =>
      rw [serve]
      split
      · rename_i freed after released
        exact Evolves.refl.release released
      · exact .refl

namespace Sound

theorem evolves (sound : c.Sound host) (evolves : c.Evolves after) :
    after.Sound host ∧ after.segmentation = c.segmentation := by
  rcases evolves.frame sound.valid with ⟨valid, segmentation, sites⟩
  refine ⟨⟨valid, ?_⟩, segmentation⟩
  rw [sites, segmentation]
  exact sound.sites

theorem serveAll (sound : c.Sound host) (requests : List Request) :
    (c.serveAll requests).Sound host ∧
      (c.serveAll requests).segmentation = c.segmentation := by
  induction requests generalizing c with
  | nil => exact ⟨sound, rfl⟩
  | cons request rest inductionHypothesis =>
      rcases sound.evolves (sound.valid.evolves_serve request) with ⟨first, segmentation⟩
      rcases inductionHypothesis first with ⟨last, same⟩
      exact ⟨last, same.trans segmentation⟩

/-- The partitions that are ready are the active ones whose memory the host holds. -/
theorem ready_iff (sound : c.Sound host) :
    c.Ready p ↔ c.segmentation.isActive p = true ∧ host.Holds (c.segmentation.capacity p) := by
  rw [Ready, sound.sites]
  constructor
  · rintro ⟨s, isSite, rfl, backed⟩
    rcases List.mem_map.mp isSite with ⟨q, active, rfl⟩
    rw [Heap.partition_reservedSite]
    exact ⟨(List.mem_filter.mp active).2, (Heap.backed_reservedSite_iff host q _).mp backed⟩
  · rintro ⟨active, whole⟩
    exact ⟨_, List.mem_map_of_mem (Segmentation.mem_active active),
      Heap.partition_reservedSite host p _, (Heap.backed_reservedSite_iff host p _).mpr whole⟩

theorem complete (sound : c.Sound host) : c.Complete where
  valid := sound.valid
  active := by
    have partition : Heap.Site.partition ∘ (fun p => Heap.reservedSite host p
        (c.segmentation.capacity p)) = id := funext fun p => Heap.partition_reservedSite host p _
    rw [sound.sites, List.map_map, partition, List.map_id]

end Sound

end CodeLayout.Cache
