import CodeLayout.Proofs.Cache.Room

/-!
# Outlines of a cache

Where code finds room depends on the free ranges of the heaps and not on the
bytes that they hold.  An outline says of each heap where it starts and which
of its ranges are free; allocations and releases follow it.
-/

namespace CodeLayout

/-- Where the heap of a partition starts, and its free ranges. -/
structure Drawing where
  partition : Partition
  base : Nat
  free : List Extent
deriving DecidableEq

/-- The drawings of the heaps of a cache. -/
abbrev Outline := List Drawing

def Heap.drawing (h : Heap) : Drawing :=
  ⟨h.partition, h.base, h.free⟩

namespace Outline

def find? (o : Outline) (p : Partition) : Option Drawing :=
  List.find? (fun d => d.partition = p) o

/-- Put a drawing in the place of the one of its partition. -/
def put (o : Outline) (drawing : Drawing) : Outline :=
  o.map fun d => if d.partition = drawing.partition then drawing else d

/-- The free ranges of a partition. -/
def free (o : Outline) (p : Partition) : List Extent :=
  ((o.find? p).map Drawing.free).getD []

/-- The place for code in a partition and the outline after it is taken, if a
range is long enough. -/
def place? (o : Outline) (p : Partition) (m : Method) (size : Nat) : Option (Blob × Outline) :=
  (o.find? p).bind fun d =>
    (Extent.carve (Size.padded size) d.free).map fun (offset, rest) =>
      (⟨m, p, d.base + offset, size, Size.padded size⟩, o.put { d with free := rest })

/-- The first place for code in some partitions. -/
def search? (o : Outline) (order : List Partition) (m : Method) (size : Nat) :
    Option (Blob × Outline) :=
  order.findSome? fun p => o.place? p m size

/-- The outline after a blob is released. -/
def vacate (o : Outline) (b : Blob) : Outline :=
  match o.find? b.partition with
  | some d => o.put { d with free := Extent.release (b.extent d.base) d.free }
  | none => o

end Outline

namespace Cache

variable {c after : Cache} {o next : Outline} {p : Partition} {m : Method} {code : ByteArray}
  {b : Blob} {h k : Heap}

/-- The heaps of the active partitions are backed by memory, and an outline shows
them. -/
structure Outlined (c : Cache) (o : Outline) : Prop where
  valid : c.Valid
  tidy : c.Tidy
  active : c.sites.map Heap.Site.partition = c.segmentation.active.toList
  backed : ∀ s ∈ c.sites, s.Backed
  drawn : c.heaps.map Heap.drawing = o

theorem put_drawing (c : Cache) (k : Heap) :
    (c.put k).heaps.map Heap.drawing = Outline.put (c.heaps.map Heap.drawing) k.drawing := by
  rw [put, Outline.put, List.map_map, List.map_map]
  apply List.map_congr_left
  intro h _
  simp only [Function.comp_apply]
  split
  · rename_i same
    exact (if_pos same).symm
  · rename_i other
    exact (if_neg other).symm

namespace Outlined

theorem find?_eq (outlined : c.Outlined o) (p : Partition) :
    o.find? p = (c.heap? p).map Heap.drawing := by
  rw [← outlined.drawn, Outline.find?, heap?, List.find?_map]
  rfl

theorem exists_heap (outlined : c.Outlined o) (active : c.segmentation.isActive p = true) :
    ∃ h ∈ c.heaps, c.heap? p = some h ∧ h.partition = p ∧ h.site.Backed := by
  have listed := Segmentation.mem_active active
  rw [← outlined.active] at listed
  rcases List.mem_map.mp listed with ⟨s, isSite, rfl⟩
  have backed := outlined.backed s isSite
  rcases List.mem_map.mp isSite with ⟨h, isHeap, rfl⟩
  exact ⟨h, isHeap, outlined.valid.heap?_of_mem isHeap, rfl, backed⟩

theorem tidy_of_mem (outlined : c.Outlined o) (isHeap : h ∈ c.heaps) : h.Tidy :=
  outlined.tidy h isHeap (outlined.backed h.site (List.mem_map_of_mem isHeap))

theorem ready (outlined : c.Outlined o) (active : c.segmentation.isActive p = true) :
    c.Ready p := by
  rcases outlined.exists_heap active with ⟨h, isHeap, _, isHere, backed⟩
  exact ⟨h.site, List.mem_map_of_mem isHeap, isHere, backed⟩

theorem free_eq (outlined : c.Outlined o) (found : c.heap? p = some h) : o.free p = h.free := by
  rw [Outline.free, outlined.find?_eq, found]
  rfl

theorem largestFree_eq (outlined : c.Outlined o) (active : c.segmentation.isActive p = true) :
    c.largestFree p = Extent.longest (o.free p) := by
  rcases outlined.exists_heap active with ⟨h, _, found, _⟩
  rw [Cache.largestFree_eq found, outlined.free_eq found, Heap.largestFree]

theorem freeBytes?_eq (outlined : c.Outlined o) (active : c.segmentation.isActive p = true) :
    c.freeBytes? p = some (Extent.total (o.free p)) := by
  rcases outlined.exists_heap active with ⟨h, isHeap, found, _⟩
  rw [freeBytes?, found, Option.map_some, (outlined.tidy_of_mem isHeap).freeBytes_eq,
    outlined.free_eq found]

/-- A heap that changes is drawn again. -/
theorem put (outlined : c.Outlined o) (isHeap : h ∈ c.heaps) (site : k.site = h.site)
    (valid : k.Valid) (tidy : k.Tidy) : (c.put k).Outlined (o.put k.drawing) := by
  rcases outlined.valid.put_valid isHeap site valid with ⟨validAfter, sites⟩
  refine ⟨validAfter, outlined.tidy.put fun _ => tidy, ?_, ?_, ?_⟩
  · rw [sites]
    exact outlined.active
  · rw [sites]
    exact outlined.backed
  · rw [put_drawing, outlined.drawn]

/-- Code is allocated at the place that the outline has for it. -/
theorem allocateExact (outlined : c.Outlined o) (active : c.segmentation.isActive p = true)
    (short : code.size + Size.segment ≤ Size.wordLimit)
    (room : o.place? p m code.size = some (b, next)) :
    ∃ after, c.allocateExact p m code = (.ok b, after) ∧ after.Outlined next := by
  rcases outlined.exists_heap active with ⟨h, isHeap, found, rfl, backed⟩
  have valid := outlined.valid.heaps h isHeap
  rw [Outline.place?, outlined.find?_eq, found] at room
  rcases Option.map_eq_some_iff.mp room with ⟨⟨offset, rest⟩, carved, equal⟩
  cases equal
  have enough : Size.padded code.size ≤ h.largestFree := by
    apply Nat.le_of_not_lt
    intro full
    have nothing := (Extent.carve_eq_none_iff (Size.padded_pos short)).mpr full
    exact absurd (nothing.symm.trans carved) (by simp)
  rcases valid.allocate_of_room (m := m) backed short enough with ⟨b, k, allocated⟩
  have site := (valid.allocated_of_allocate allocated).site
  have drawn := outlined.put isHeap site (valid.allocate_valid allocated)
    ((outlined.tidy_of_mem isHeap).allocate allocated)
  obtain ⟨offset', rest', memory, carved', _, isBlob, isAfter⟩ := Heap.allocate_eq_ok allocated
  cases carved.symm.trans carved'
  refine ⟨c.put k, ?_, ?_⟩
  · simp only [Cache.allocateExact, found, allocated, isBlob]
    rfl
  · rw [isAfter] at drawn ⊢
    exact drawn

/-- Where the outline has no place for code, all free ranges are too short. -/
theorem largestFree_lt (outlined : c.Outlined o)
    (active : c.segmentation.isActive p = true)
    (short : code.size + Size.segment ≤ Size.wordLimit) (full : o.place? p m code.size = none) :
    c.largestFree p < Size.padded code.size := by
  rcases outlined.exists_heap active with ⟨h, _, found, _⟩
  rw [Outline.place?, outlined.find?_eq, found] at full
  rw [Cache.largestFree_eq found]
  exact (Extent.carve_eq_none_iff (Size.padded_pos short)).mp (Option.map_eq_none_iff.mp full)

theorem allocateExact_of_full (outlined : c.Outlined o)
    (active : c.segmentation.isActive p = true)
    (short : code.size + Size.segment ≤ Size.wordLimit) (full : o.place? p m code.size = none) :
    c.allocateExact p m code = (.error (.full p (Size.padded code.size)), c) :=
  outlined.valid.allocateExact_of_full (outlined.ready active) short
    (outlined.largestFree_lt active short full)

/-- A search through active partitions ends at the first place that the outline
has. -/
theorem tryEach (outlined : c.Outlined o) {order : List Partition}
    (active : ∀ p ∈ order, c.segmentation.isActive p = true)
    (short : code.size + Size.segment ≤ Size.wordLimit)
    (room : o.search? order m code.size = some (b, next)) (requested : Partition) :
    (c.tryEach requested m code order).answer = .ok b ∧
      (c.tryEach requested m code order).cache.Outlined next := by
  induction order with
  | nil => contradiction
  | cons p rest inductionHypothesis =>
      have activeHere := active p List.mem_cons_self
      rw [Outline.search?, List.findSome?_cons] at room
      rw [Cache.tryEach]
      split at room
      · rename_i found
        cases room
        rcases outlined.allocateExact activeHere short found with ⟨after, allocated, drawn⟩
        rw [allocated]
        exact ⟨rfl, drawn⟩
      · rename_i full
        rw [outlined.allocateExact_of_full activeHere short full]
        exact inductionHypothesis (fun q member => active q (List.mem_cons_of_mem p member)) room

/-- A blob is released to the free ranges of its partition. -/
theorem release (outlined : c.Outlined o) (live : b ∈ c.blobs) :
    ∃ after, c.release b = .ok (b, after) ∧ after.Outlined (o.vacate b) := by
  rcases outlined.valid.exists_heap live with ⟨h, found, isHeap, inHeap⟩
  have valid := outlined.valid.heaps h isHeap
  rcases valid.release_of_mem inHeap with ⟨released, lost⟩
  refine ⟨c.put (h.without b), ?_, ?_⟩
  · rw [Cache.release, found]
    dsimp only
    rw [released]
    rfl
  · rw [Outline.vacate, outlined.find?_eq, found]
    exact outlined.put isHeap lost.site lost.valid
      ((outlined.tidy_of_mem isHeap).without valid inHeap)

end Outlined

end Cache

end CodeLayout
