import CodeLayout.Cache
import CodeLayout.Proofs.Heap.Allocation

/-!
# Valid caches

The heaps of a valid cache are valid and belong to different partitions, so a
blob is found again in the heap of its partition.  Where the heaps lie apart
in the address space, so do all blobs of the cache, and an address tells the
partition of the blob that starts there.
-/

namespace CodeLayout

namespace Heap

namespace Site

/-- The bytes of address space that a heap takes up.  Memory that is mapped at
all takes up a segment at least. -/
def span (s : Site) : Nat :=
  if s.isMapped then max s.memorySize Size.segment else 0

/-- The address belongs to the heap. -/
def Holds (s : Site) (a : Nat) : Prop :=
  s.base ≤ a ∧ a < s.base + s.span

end Site

/-- A blob ends within the addresses of its heap. -/
theorem Valid.stop_le_span {h : Heap} (valid : h.Valid) {b : Blob} (member : b ∈ h.blobs) :
    b.address + b.padded ≤ h.base + h.site.span := by
  have above := valid.above b member
  have stop := valid.stop_le member
  have backed := valid.backed b member
  have mapped : h.site.span = max h.memory.size Size.segment := if_pos (valid.mapped b member)
  rw [mapped]
  rcases valid.roomy with roomy | nothing
  · have spans : h.memory.size ≤ max h.memory.size Size.segment := Nat.le_max_left _ _
    omega
  · have noSize : b.size = 0 := by omega
    have oneSegment : b.padded ≤ max h.memory.size Size.segment := by
      rw [valid.padded b member, noSize]
      exact Nat.le_trans (by decide) (Nat.le_max_right _ _)
    omega

end Heap

namespace Cache

/-- The live blobs of all heaps. -/
def blobs (c : Cache) : List Blob :=
  c.heaps.flatMap Heap.blobs

def sites (c : Cache) : List Heap.Site :=
  c.heaps.map Heap.site

/-- No address belongs to two heaps. -/
def Separate (c : Cache) : Prop :=
  c.sites.Pairwise fun s t => ∀ a, ¬ (s.Holds a ∧ t.Holds a)

theorem Separate.of_sites {c after : Cache} (separate : c.Separate)
    (same : after.sites = c.sites) : after.Separate := by
  rw [Separate, same]
  exact separate

/-- Heaps that follow each other in the address space are separate. -/
theorem separate_of_ascending {c : Cache}
    (ascending : c.sites.Pairwise fun s t => s.base + s.span ≤ t.base) : c.Separate := by
  apply ascending.imp
  rintro s t after a ⟨inFirst, inSecond⟩
  exact absurd (Nat.lt_of_lt_of_le inFirst.2 after) (Nat.not_lt.mpr inSecond.1)

structure Valid (c : Cache) : Prop where
  heaps : ∀ h ∈ c.heaps, h.Valid
  distinct : (c.heaps.map Heap.partition).Nodup

namespace Valid

variable {c : Cache}

theorem heap?_of_mem (valid : c.Valid) {h : Heap} (member : h ∈ c.heaps) :
    c.heap? h.partition = some h := by
  obtain ⟨k, found⟩ : ∃ k, c.heap? h.partition = some k := by
    apply Option.isSome_iff_exists.mp
    rw [heap?, List.find?_isSome]
    exact ⟨h, member, by simp⟩
  have samePartition : k.partition = h.partition := by simpa using List.find?_some found
  have same : k = h :=
    List.inj_on_of_nodup_map valid.distinct (List.mem_of_find?_eq_some found) member samePartition
  rw [found, same]

/-- A live blob is in the heap of its partition. -/
theorem exists_heap (valid : c.Valid) {b : Blob} (member : b ∈ c.blobs) :
    ∃ h, c.heap? b.partition = some h ∧ h ∈ c.heaps ∧ b ∈ h.blobs := by
  rcases List.mem_flatMap.mp member with ⟨h, isHeap, inHeap⟩
  rw [(valid.heaps h isHeap).owned b inHeap]
  exact ⟨h, valid.heap?_of_mem isHeap, isHeap, inHeap⟩

/-- The heap of the partition of a live blob stores it at its address. -/
theorem blob?_of_mem (valid : c.Valid) {b : Blob} (member : b ∈ c.blobs) :
    (c.heap? b.partition).bind (·.blob? b.address) = some b := by
  rcases valid.exists_heap member with ⟨h, found, isHeap, inHeap⟩
  rw [found]
  exact (valid.heaps h isHeap).blob?_of_mem inHeap

theorem padded_eq (valid : c.Valid) {b : Blob} (member : b ∈ c.blobs) :
    b.padded = Size.padded b.size := by
  rcases valid.exists_heap member with ⟨h, _, isHeap, inHeap⟩
  exact (valid.heaps h isHeap).padded b inHeap

theorem padded_pos (valid : c.Valid) {b : Blob} (member : b ∈ c.blobs) : 0 < b.padded := by
  rcases valid.exists_heap member with ⟨h, _, isHeap, inHeap⟩
  exact (valid.heaps h isHeap).padded_pos inHeap

theorem exists_code (valid : c.Valid) {b : Blob} (member : b ∈ c.blobs) :
    ∃ code, c.code? b = some code := by
  rcases valid.exists_heap member with ⟨h, found, isHeap, inHeap⟩
  rw [code?, found]
  exact (valid.heaps h isHeap).exists_code inHeap

theorem code?_size (valid : c.Valid) {b : Blob} (member : b ∈ c.blobs) {code : ByteArray}
    (isCode : c.code? b = some code) : code.size = b.size := by
  rcases valid.exists_heap member with ⟨h, found, isHeap, inHeap⟩
  rw [code?, found] at isCode
  exact (valid.heaps h isHeap).code?_size inHeap isCode

/-- No blob is stored twice. -/
theorem blobs_nodup (valid : c.Valid) : c.blobs.Nodup := by
  apply List.pairwise_flatMap.mpr
  constructor
  · intro h isHeap
    exact List.Nodup.of_map _ (valid.heaps h isHeap).addresses_nodup
  · apply (List.pairwise_map.mp valid.distinct).imp_of_mem
    intro h k firstHeap secondHeap differ b inFirst d inSecond equal
    apply differ
    rw [← (valid.heaps h firstHeap).owned b inFirst, equal,
      (valid.heaps k secondHeap).owned d inSecond]

/-! ## Addresses -/

/-- In separate heaps all live blobs lie apart. -/
theorem apart (valid : c.Valid) (separate : c.Separate) : c.blobs.Pairwise Blob.Apart := by
  apply List.pairwise_flatMap.mpr
  constructor
  · intro h isHeap
    exact (valid.heaps h isHeap).apart
  · apply (List.pairwise_map.mp separate).imp_of_mem
    intro h k firstHeap secondHeap disjoint b inFirst d inSecond
    have firstStop := (valid.heaps h firstHeap).stop_le_span inFirst
    have secondStop := (valid.heaps k secondHeap).stop_le_span inSecond
    have firstAbove := (valid.heaps h firstHeap).above b inFirst
    have secondAbove := (valid.heaps k secondHeap).above d inSecond
    have firstPositive := (valid.heaps h firstHeap).padded_pos inFirst
    have secondPositive := (valid.heaps k secondHeap).padded_pos inSecond
    -- The later one of the two starts would lie in both heaps.
    have noCommon := disjoint (max b.address d.address)
    simp only [Heap.Site.Holds, Heap.site] at noCommon firstStop secondStop
    simp only [Blob.Apart]
    omega

theorem addresses_nodup (valid : c.Valid) (separate : c.Separate) :
    (c.blobs.map Blob.address).Nodup :=
  Blob.nodup_of_apart (valid.apart separate) fun _ member => valid.padded_pos member

/-- The address of a live blob tells its partition. -/
theorem partitionOf_of_mem (valid : c.Valid) (separate : c.Separate) {b : Blob}
    (member : b ∈ c.blobs) : c.partitionOf b.address = some b.partition := by
  rcases valid.exists_heap member with ⟨h, _, isHeap, inHeap⟩
  obtain ⟨k, found⟩ : ∃ k, c.heaps.find? (fun h => (h.blob? b.address).isSome) = some k := by
    apply Option.isSome_iff_exists.mp
    rw [List.find?_isSome]
    exact ⟨h, isHeap, by rw [(valid.heaps h isHeap).blob?_of_mem inHeap]; rfl⟩
  have holds := List.find?_some found
  rcases Option.isSome_iff_exists.mp holds with ⟨d, atAddress⟩
  have isHeapToo := List.mem_of_find?_eq_some found
  have inHeapToo : d ∈ k.blobs := List.mem_of_find?_eq_some atAddress
  have sameAddress : d.address = b.address := by simpa using List.find?_some atAddress
  have same : d = b :=
    List.inj_on_of_nodup_map (valid.addresses_nodup separate)
      (List.mem_flatMap.mpr ⟨k, isHeapToo, inHeapToo⟩) member sameAddress
  rw [partitionOf, found, Option.map_some, ← same, (valid.heaps k isHeapToo).owned d inHeapToo]

end Valid

/-! ## The empty cache -/

/-- Heaps that are reserved one after another are reserved each by itself. -/
theorem forall₂_of_mapM {reserve : Partition → Except Fault Heap} {ps : List Partition}
    {heaps : List Heap} (reserved : ps.mapM reserve = .ok heaps) :
    List.Forall₂ (fun p h => reserve p = .ok h) ps heaps := by
  induction ps generalizing heaps with
  | nil =>
      cases reserved
      exact .nil
  | cons p rest inductionHypothesis =>
      rw [List.mapM_cons] at reserved
      cases first : reserve p with
      | error fault =>
          rw [first] at reserved
          contradiction
      | ok h =>
          rw [first] at reserved
          cases others : rest.mapM reserve with
          | error fault =>
              simp only [others, bind, Except.bind] at reserved
              contradiction
          | ok hs =>
              simp only [others, bind, Except.bind, pure, Except.pure] at reserved
              cases reserved
              exact .cons first (inductionHypothesis others)

/-- Each heap of a new cache is the one reserved for its partition. -/
theorem reserve_eq_ok {s : Segmentation} {host : Host} {c : Cache}
    (reserved : reserve s host = .ok c) :
    c.segmentation = s ∧
      List.Forall₂ (fun p h => Heap.reserve host p (s.capacity p) = .ok h)
        s.active.toList c.heaps := by
  cases mapped : s.active.toList.mapM fun p => Heap.reserve host p (s.capacity p) with
  | error fault =>
      rw [reserve, mapped] at reserved
      contradiction
  | ok heaps =>
      rw [reserve, mapped] at reserved
      cases reserved
      exact ⟨rfl, forall₂_of_mapM mapped⟩

theorem heaps_of_reserve {host : Host} {size : Partition → Nat} {ps : List Partition}
    {heaps : List Heap}
    (listed : List.Forall₂ (fun p h => Heap.reserve host p (size p) = .ok h) ps heaps) :
    heaps.map Heap.partition = ps ∧ ∀ h ∈ heaps, h.Valid ∧ h.blobs = [] := by
  induction listed with
  | nil => simp
  | cons first _ inductionHypothesis =>
      rcases inductionHypothesis with ⟨partitions, empties⟩
      rcases Heap.valid_of_reserve first with ⟨valid, partition, empty⟩
      rw [List.map_cons, partition, partitions]
      exact ⟨rfl, List.forall_mem_cons.mpr ⟨⟨valid, empty⟩, empties⟩⟩

/-- A new cache is valid and empty. -/
theorem valid_of_reserve {s : Segmentation} {host : Host} {c : Cache}
    (reserved : reserve s host = .ok c) : c.Valid ∧ c.segmentation = s ∧ c.blobs = [] := by
  rcases reserve_eq_ok reserved with ⟨isSegmentation, listed⟩
  rcases heaps_of_reserve listed with ⟨partitions, empties⟩
  have distinct : (c.heaps.map Heap.partition).Nodup := by
    rw [partitions]
    exact List.Nodup.filter _ (by decide)
  have noBlobs : c.heaps.flatMap Heap.blobs = [] :=
    List.flatMap_eq_nil_iff.mpr fun h member => (empties h member).2
  exact ⟨⟨fun h member => (empties h member).1, distinct⟩, isSegmentation, noBlobs⟩

end Cache

end CodeLayout
