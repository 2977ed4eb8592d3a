import CodeLayout.Proofs.Heap.Allocation
import CodeLayout.Proofs.Heap.Spacing
import Mathlib.Algebra.Ring.Nat

/-!
# Room in a heap

Where the memory reaches as far as the heap, code finds room exactly when the
longest free range is long enough; otherwise the heap says that it is full.
The free ranges of a tidy heap are the gaps between its blobs, and every byte
is accounted for.
-/

namespace CodeLayout.Heap

variable {h after : Heap} {m : Method} {code : ByteArray} {b : Blob}

/-- The memory reaches as far as the heap. -/
structure Site.Backed (s : Site) : Prop where
  roomy : s.capacity ≤ s.memorySize
  mapped : 0 < s.capacity → s.isMapped = true

instance (s : Site) : Decidable s.Backed :=
  decidable_of_iff (s.capacity ≤ s.memorySize ∧ (0 < s.capacity → s.isMapped = true))
    ⟨fun ⟨roomy, mapped⟩ => ⟨roomy, mapped⟩, fun ⟨roomy, mapped⟩ => ⟨roomy, mapped⟩⟩

/-- The free ranges are the gaps between the blobs, and the bytes that the blobs
do not take up are free. -/
structure Tidy (h : Heap) : Prop where
  tiled : ∀ x, Extent.coverage h.pieces x = if x < h.capacity then 1 else 0
  spaced : Extent.Spaced h.free
  used : h.used = (h.blobs.map Blob.padded).sum
  total : Extent.total h.free + h.used = h.capacity

theorem Tidy.freeBytes_eq (tidy : h.Tidy) : h.freeBytes = Extent.total h.free := by
  have total := tidy.total
  rw [freeBytes]
  omega

/-- A free range ends within the capacity. -/
theorem Valid.free_stop_le (valid : h.Valid) (tidy : h.Tidy) {e : Extent} (isFree : e ∈ h.free) :
    e.stop ≤ h.capacity := by
  have positive := tidy.spaced.positive e isFree
  apply Nat.le_of_not_lt
  intro beyond
  simp only [Extent.stop] at beyond
  have covered : e.covers (e.offset + e.length - 1) = true := by
    rw [Extent.covers_iff]
    omega
  have counted : 0 < Extent.coverage h.pieces (e.offset + e.length - 1) :=
    List.countP_pos_iff.mpr ⟨e, List.mem_append_left _ isFree, covered⟩
  have within := valid.covered (e.offset + e.length - 1)
  rw [if_neg (by omega)] at within
  omega

/-! ## Allocation -/

/-- Where bytes are taken off, the heap reaches to their end. -/
theorem Valid.carve_le (valid : h.Valid) {need start : Nat} {rest : List Extent}
    (positive : 0 < need) (carved : Extent.carve need h.free = some (start, rest)) :
    start + need ≤ h.capacity := by
  apply Nat.le_of_not_lt
  intro beyond
  have taken := Extent.coverage_carve carved (start + need - 1)
  have covered : Extent.covers ⟨start, need⟩ (start + need - 1) = true := by
    rw [Extent.covers_iff]
    simp only
    omega
  have within := valid.covered (start + need - 1)
  rw [pieces, Extent.coverage_append, taken, if_pos covered, if_neg (by omega)] at within
  omega

theorem Valid.allocate_of_room (valid : h.Valid) (backed : h.site.Backed)
    (short : code.size + Size.segment ≤ Size.wordLimit)
    (room : Size.padded code.size ≤ h.largestFree) :
    ∃ b after, h.allocate m code = (.ok b, after) := by
  have positive := Size.padded_pos short
  cases carved : Extent.carve (Size.padded code.size) h.free with
  | none =>
      have full := (Extent.carve_eq_none_iff positive).mp carved
      exact absurd room (Nat.not_le.mpr full)
  | some found =>
      rcases found with ⟨offset, rest⟩
      have fits := valid.carve_le positive carved
      have isMapped : h.memory.isMapped = true :=
        backed.mapped (Nat.lt_of_lt_of_le (Nat.add_pos_right offset positive) fits)
      have within : ¬ h.memory.size < offset + code.size := by
        have roomy : h.capacity ≤ h.memory.size := backed.roomy
        have padded := Size.le_padded short
        omega
      simp only [allocate, carved, Memory.write, isMapped, if_neg within]
      exact ⟨_, _, rfl⟩

theorem allocate_of_full (short : code.size + Size.segment ≤ Size.wordLimit)
    (full : h.largestFree < Size.padded code.size) :
    h.allocate m code = (.error (.full h.partition (Size.padded code.size)), h) := by
  have nothing := (Extent.carve_eq_none_iff (Size.padded_pos short)).mpr full
  simp only [allocate, nothing]

/-- In a heap that is backed an allocation of code that is short enough changes nothing
where it fails. -/
theorem Valid.allocate_of_error (valid : h.Valid) (backed : h.site.Backed)
    (short : code.size + Size.segment ≤ Size.wordLimit) {fault : Fault}
    (failed : h.allocate m code = (.error fault, after)) :
    fault = .full h.partition (Size.padded code.size) ∧ after = h := by
  rcases Nat.lt_or_ge h.largestFree (Size.padded code.size) with full | room
  · rw [allocate_of_full short full] at failed
    cases failed
    exact ⟨rfl, rfl⟩
  · rcases valid.allocate_of_room (m := m) backed short room with ⟨b, gained, allocated⟩
    cases failed.symm.trans allocated

/-- What an allocation takes off the free ranges. -/
theorem free_of_allocate (allocated : h.allocate m code = (.ok b, after)) :
    b.padded ≤ h.largestFree ∧ h.largestFree ≤ after.largestFree + b.padded ∧
      after.free.length ≤ h.free.length := by
  rcases allocate_eq_ok allocated with ⟨offset, free, memory, carved, _, rfl, rfl⟩
  exact ⟨Extent.le_longest_of_carve carved, (Extent.total_carve carved).2⟩

theorem Tidy.allocate (tidy : h.Tidy) (allocated : h.allocate m code = (.ok b, after)) :
    after.Tidy := by
  rcases allocate_eq_ok allocated with ⟨offset, free, memory, carved, _, rfl, rfl⟩
  constructor
  · intro x
    have tiled := tidy.tiled x
    rw [pieces, Extent.coverage_append, Extent.coverage_carve carved] at tiled
    rw [pieces, Extent.coverage_append,
      Extent.coverage_perm ((insertBlob_perm _ h.blobs).map _), List.map_cons,
      Extent.coverage_cons]
    simp only [Blob.extent, Nat.add_sub_cancel_left]
    omega
  · exact tidy.spaced.carve carved
  · have inserted := insertBlob_perm
      ⟨m, h.partition, h.base + offset, code.size, Size.padded code.size⟩ h.blobs
    rw [(inserted.map Blob.padded).sum_nat, List.map_cons, List.sum_cons, ← tidy.used]
    exact Nat.add_comm _ _
  · have total := tidy.total
    rw [(Extent.total_carve carved).1] at total
    simp only
    omega

/-! ## Release -/

theorem largestFree_without (h : Heap) (b : Blob) :
    h.largestFree ≤ (h.without b).largestFree :=
  Nat.le_trans (Nat.le_max_right _ _) Extent.longest_release

/-- The free ranges lie apart from the blobs. -/
theorem Valid.free_apart (valid : h.Valid) (tidy : h.Tidy) (live : b ∈ h.blobs) {e : Extent}
    (isFree : e ∈ h.free) :
    e.stop ≤ (b.extent h.base).offset ∨ (b.extent h.base).stop ≤ e.offset := by
  have positive := tidy.spaced.positive e isFree
  have positiveBlob := valid.padded_pos live
  have disjoint := (List.pairwise_append.mp valid.disjoint).2.2 e isFree
    (b.extent h.base) (List.mem_map_of_mem live)
  -- The later one of the two starts would lie in both ranges.
  have noCommon := disjoint (max e.offset (b.address - h.base))
  simp only [Extent.covers_iff, Extent.stop, Blob.extent] at noCommon ⊢
  omega

theorem Tidy.without (tidy : h.Tidy) (valid : h.Valid) (live : b ∈ h.blobs) :
    (h.without b).Tidy := by
  have removed := perm_cons_filter valid.addresses_nodup live
  have sum := (removed.map Blob.padded).sum_nat
  rw [List.map_cons, List.sum_cons, ← tidy.used] at sum
  constructor
  · intro x
    have tiled := tidy.tiled x
    rw [pieces, Extent.coverage_append, Extent.coverage_perm (removed.map _), List.map_cons,
      Extent.coverage_cons] at tiled
    change Extent.coverage (Extent.release (b.extent h.base) h.free ++
      (h.blobs.filter fun c => c.address ≠ b.address).map (Blob.extent h.base)) x =
        if x < h.capacity then 1 else 0
    rw [Extent.coverage_append, Extent.coverage_release]
    omega
  · exact tidy.spaced.release (valid.padded_pos live) fun e isFree =>
      valid.free_apart tidy live isFree
  · change h.used - b.padded = _
    rw [sum]
    exact Nat.add_sub_cancel_left _ _
  · have total := tidy.total
    change Extent.total (Extent.release (b.extent h.base) h.free) + (h.used - b.padded) = h.capacity
    rw [Extent.total_release, Blob.extent]
    simp only
    omega

/-! ## Heaps without blobs -/

/-- The free bytes of a heap without blobs are one range. -/
theorem Valid.free_whole (valid : h.Valid) (tidy : h.Tidy) (empty : h.blobs = []) :
    h.free.length ≤ 1 := by
  have total := tidy.total
  rw [tidy.used, empty] at total
  match listed : h.free with
  | [] => exact Nat.zero_le _
  | [e] => exact Nat.le_refl _
  | e :: f :: rest =>
      -- No piece contains the offset where the first range ends.
      have spaced := tidy.spaced
      rw [listed] at spaced
      have gap := spaced.before f List.mem_cons_self
      have stop := valid.free_stop_le tidy (listed ▸ List.mem_cons_of_mem e List.mem_cons_self)
      simp only [Extent.stop] at gap stop
      have tiled := tidy.tiled (e.offset + e.length)
      have uncovered : Extent.coverage h.pieces (e.offset + e.length) = 0 := by
        rw [pieces, empty, List.map_nil, List.append_nil, listed]
        apply List.countP_eq_zero.mpr
        intro g isFree
        rw [Extent.covers_iff]
        rcases List.mem_cons.mp isFree with rfl | later
        · omega
        · have beyond := spaced.before g later
          simp only [Extent.stop] at beyond
          omega
      rw [uncovered, if_pos (by omega)] at tiled
      contradiction

theorem tidy_of_reserve {host : Host} {p : Partition} {size : Nat}
    (reserved : reserve host p size = .ok h) : h.Tidy ∧ h.site = reservedSite host p size := by
  rcases reserve_eq_ok reserved with ⟨isSite, _, isHeap⟩
  refine ⟨?_, isSite⟩
  rw [isHeap]
  by_cases nothing : Size.alignDown size Size.segment = 0
  · exact ⟨by simp [pieces, nothing], by simp [nothing, Extent.Spaced.mk], rfl,
      by simp [nothing]⟩
  · refine ⟨?_, ⟨?_, ?_⟩, rfl, by simp [nothing]⟩
    · simp [pieces, nothing, Extent.covers_iff]
    · simpa [nothing] using Nat.pos_of_ne_zero nothing
    · simp [nothing]

/-- The memory that is reserved reaches as far as the heap exactly if the rounding to pages
does not leave the words. -/
theorem backed_reservedSite_iff (host : Host) (p : Partition) (size : Nat) :
    (reservedSite host p size).Backed ↔
      Size.alignDown size Size.segment + host.pageSize ≤ Size.wordLimit := by
  have fits : host.pageSize ≤ Size.wordLimit := Nat.le_trans host.pageSize_le (by decide)
  have word : Size.alignDown size Size.segment < Size.wordLimit :=
    Nat.lt_of_le_of_lt Nat.and_le_right (by decide)
  rw [reservedSite]
  split
  · rename_i nothing
    rw [nothing, Nat.zero_add]
    exact ⟨fun _ => fits, fun _ => ⟨Nat.le_refl _, fun positive => absurd positive (by simp)⟩⟩
  · rename_i some
    constructor
    · rintro ⟨roomy, _⟩
      apply Nat.le_of_not_lt
      intro wraps
      rw [Size.wholePages_eq_zero host.isPower fits word wraps] at roomy
      exact some (Nat.le_zero.mp roomy)
    · intro short
      exact ⟨Size.le_wholePages host.isPower short, fun _ => rfl⟩

end CodeLayout.Heap
