import CodeLayout.Proofs.Heap.Valid

/-!
# Allocation in a heap

Allocating and releasing as changes of the set of blobs: which blob comes or
goes, that the heap stays valid, and that the code of the other blobs stays
what it was.
-/

namespace CodeLayout

/-- Taking out what has a given key takes out one entry, if no two share a
key. -/
theorem perm_cons_filter {α β : Type} [DecidableEq β] {key : α → β} {x : α} {entries : List α}
    (nodup : (entries.map key).Nodup) (member : x ∈ entries) :
    entries.Perm (x :: entries.filter fun y => key y ≠ key x) := by
  induction entries with
  | nil => contradiction
  | cons y rest inductionHypothesis =>
      rw [List.map_cons, List.nodup_cons] at nodup
      rcases List.mem_cons.mp member with rfl | inRest
      · have others : ∀ z ∈ rest, key z ≠ key x := fun z inRest equal =>
          nodup.1 (List.mem_map.mpr ⟨z, inRest, equal⟩)
        rw [List.filter_cons_of_neg (by simp),
          List.filter_eq_self.mpr fun z inRest => by simpa using others z inRest]
      · have differs : key y ≠ key x := fun equal =>
          nodup.1 (List.mem_map.mpr ⟨x, inRest, equal.symm⟩)
        rw [List.filter_cons_of_pos (by simpa using differs)]
        exact ((inductionHypothesis nodup.2 inRest).cons y).trans (List.Perm.swap x y _)

/-- Where no two entries share a key, those around an entry have other keys. -/
theorem key_ne_of_nodup {α β : Type} {key : α → β} {x y : α} {before rest : List α}
    (nodup : ((before ++ x :: rest).map key).Nodup) (around : y ∈ before ∨ y ∈ rest) :
    key y ≠ key x := by
  rw [List.map_append, List.map_cons, List.nodup_append, List.nodup_cons] at nodup
  rcases nodup with ⟨_, ⟨notLater, _⟩, notEarlier⟩
  rcases around with first | last
  · exact notEarlier _ (List.mem_map_of_mem first) _ List.mem_cons_self
  · intro equal
    exact notLater (List.mem_map.mpr ⟨y, last, equal⟩)

namespace Heap

theorem insertBlob_perm (b : Blob) (blobs : List Blob) :
    (insertBlob b blobs).Perm (b :: blobs) := by
  induction blobs with
  | nil => exact List.Perm.refl _
  | cons c rest inductionHypothesis =>
      rw [insertBlob]
      split
      · exact List.Perm.refl _
      · exact (inductionHypothesis.cons c).trans (List.Perm.swap b c rest)

/-- The heap gained a blob that holds the code. -/
structure Allocated (h after : Heap) (m : Method) (code : ByteArray) (b : Blob) : Prop where
  method : b.method = m
  partition : b.partition = h.partition
  size : b.size = code.size
  site : after.site = h.site
  valid : after.Valid
  blobs : after.blobs.Perm (b :: h.blobs)
  code : after.code? b.address = some code
  kept : ∀ c ∈ h.blobs, after.code? c.address = h.code? c.address

/-- The heap lost a blob. -/
structure Released (h after : Heap) (b : Blob) : Prop where
  site : after.site = h.site
  valid : after.Valid
  blobs : h.blobs.Perm (b :: after.blobs)
  kept : ∀ c ∈ after.blobs, after.code? c.address = h.code? c.address

/-- The heap without one of its blobs. -/
def without (h : Heap) (b : Blob) : Heap :=
  { h with
    free := Extent.release (b.extent h.base) h.free
    blobs := h.blobs.filter fun c => c.address ≠ b.address
    used := h.used - b.padded }

/-- The heap without what was taken off its free ranges, as it is left where this was not
written. -/
def spoilt (h : Heap) (free : List Extent) : Heap :=
  { h with free }

/-- What an allocation does that succeeds, in terms of the free list and the memory. -/
theorem allocate_eq_ok {h after : Heap} {m : Method} {code : ByteArray} {b : Blob}
    (allocated : h.allocate m code = (.ok b, after)) :
    ∃ offset free memory,
      Extent.carve (Size.padded code.size) h.free = some (offset, free) ∧
      h.memory.write offset code = .ok memory ∧
      b = ⟨m, h.partition, h.base + offset, code.size, Size.padded code.size⟩ ∧
      after = { h with
        memory, free
        blobs := insertBlob b h.blobs
        used := h.used + Size.padded code.size } := by
  unfold allocate at allocated
  dsimp only at allocated
  split at allocated
  · cases allocated
  · rename_i offset free carved
    split at allocated
    · cases allocated
    · rename_i memory written
      cases allocated
      exact ⟨offset, free, memory, carved, written, rfl, rfl⟩

/-- What an allocation does that fails: there is no room, or what was found cannot be
written. -/
theorem allocate_eq_error {h after : Heap} {m : Method} {code : ByteArray} {fault : Fault}
    (failed : h.allocate m code = (.error fault, after)) :
    (Extent.carve (Size.padded code.size) h.free = none ∧
      fault = .full h.partition (Size.padded code.size) ∧ after = h) ∨
    ∃ offset free, Extent.carve (Size.padded code.size) h.free = some (offset, free) ∧
      h.memory.write offset code = .error fault ∧ after = h.spoilt free := by
  unfold allocate at failed
  dsimp only at failed
  split at failed
  · rename_i carved
    cases failed
    exact Or.inl ⟨carved, rfl, rfl⟩
  · rename_i offset free carved
    split at failed
    · rename_i written
      cases failed
      exact Or.inr ⟨offset, free, carved, written, rfl⟩
    · cases failed

/-- A release that succeeds takes out the blob at the address. -/
theorem release_eq_ok {h after : Heap} {address : Nat} {b : Blob}
    (released : h.release address = .ok (b, after)) :
    b ∈ h.blobs ∧ b.address = address ∧ after = h.without b := by
  unfold release at released
  split at released
  · contradiction
  · rename_i blob isBlob
    cases released
    have sameAddress : b.address = address := by simpa using List.find?_some isBlob
    refine ⟨List.mem_of_find?_eq_some isBlob, sameAddress, ?_⟩
    rw [← sameAddress]
    rfl

namespace Valid

variable {h after : Heap}

theorem allocate_valid (valid : h.Valid) {m : Method} {code : ByteArray} {b : Blob}
    (allocated : h.allocate m code = (.ok b, after)) : after.Valid := by
  rcases allocate_eq_ok allocated with ⟨offset, free, memory, carved, wrote, rfl, rfl⟩
  have written := Memory.written_of_write wrote
  have inserted := insertBlob_perm
    ⟨m, h.partition, h.base + offset, code.size, Size.padded code.size⟩ h.blobs
  have memberIff (c : Blob) := inserted.mem_iff (a := c)
  constructor
  · intro x
    have covered := valid.covered x
    rw [pieces, Extent.coverage_append, Extent.coverage_carve carved] at covered
    rw [pieces, Extent.coverage_append, Extent.coverage_perm (inserted.map _), List.map_cons,
      Extent.coverage_cons]
    simp only [Blob.extent, Nat.add_sub_cancel_left]
    omega
  · intro c member
    rcases List.mem_cons.mp ((memberIff c).mp member) with rfl | old
    · exact Nat.le_add_right _ _
    · exact valid.above c old
  · intro c _
    exact written.isMapped.trans written.mapped
  · intro c member
    rcases List.mem_cons.mp ((memberIff c).mp member) with rfl | old
    · simpa only [Nat.add_sub_cancel_left, written.size] using written.fits
    · simpa only [written.size] using valid.backed c old
  · intro c member
    rcases List.mem_cons.mp ((memberIff c).mp member) with rfl | old
    · rfl
    · exact valid.padded c old
  · intro c member
    rcases List.mem_cons.mp ((memberIff c).mp member) with rfl | old
    · rfl
    · exact valid.owned c old
  · simpa only [written.size] using valid.limited
  · simpa only [written.size] using valid.roomy

/-- Taking bytes off the free ranges leaves the blobs and their code alone. -/
theorem spoilt_valid (valid : h.Valid) {need offset : Nat} {free : List Extent}
    (carved : Extent.carve need h.free = some (offset, free)) : (h.spoilt free).Valid where
  covered := by
    intro x
    have covered := valid.covered x
    rw [pieces, Extent.coverage_append, Extent.coverage_carve carved] at covered
    rw [pieces, Extent.coverage_append]
    change Extent.coverage free x + Extent.coverage (h.blobs.map (Blob.extent h.base)) x ≤
      if x < h.capacity then 1 else 0
    omega
  above := valid.above
  mapped := valid.mapped
  backed := valid.backed
  padded := valid.padded
  owned := valid.owned
  limited := valid.limited
  roomy := valid.roomy

/-- Allocation adds a blob with the given code and leaves the others alone. -/
theorem allocated_of_allocate (valid : h.Valid) {m : Method} {code : ByteArray} {b : Blob}
    (allocated : h.allocate m code = (.ok b, after)) : Allocated h after m code b := by
  have validAfter := valid.allocate_valid allocated
  rcases allocate_eq_ok allocated with ⟨offset, free, memory, _, wrote, isBlob, isAfter⟩
  have written := Memory.written_of_write wrote
  have blobs : after.blobs.Perm (b :: h.blobs) := by
    rw [isAfter]
    exact insertBlob_perm b h.blobs
  have memory_eq : after.memory = memory := by rw [isAfter]
  have base_eq : after.base = h.base := by rw [isAfter]
  have offset_eq : b.address - h.base = offset := by
    simp [isBlob]
  have size_eq : b.size = code.size := by rw [isBlob]
  have member : b ∈ after.blobs := blobs.mem_iff.mpr List.mem_cons_self
  have apart : (b :: h.blobs).Pairwise Blob.Apart :=
    (blobs.pairwise_iff Blob.Apart.symm).mp validAfter.apart
  constructor
  · rw [isBlob]
  · rw [isBlob]
  · exact size_eq
  · rw [isAfter]
    simp only [site, written.size, written.isMapped]
  · exact validAfter
  · exact blobs
  · rw [validAfter.code?_of_mem member, memory_eq, base_eq, offset_eq, size_eq]
    exact written.read_self
  · intro c old
    have inAfter : c ∈ after.blobs := blobs.mem_iff.mpr (List.mem_cons_of_mem b old)
    rw [validAfter.code?_of_mem inAfter, valid.code?_of_mem old, memory_eq, base_eq]
    apply written.read_of_apart
    have above := valid.above c old
    have fits := valid.size_le_padded old
    have fitsNew := validAfter.size_le_padded member
    have aboveNew := validAfter.above b member
    rw [base_eq] at aboveNew
    rcases List.rel_of_pairwise_cons apart old with before | behind <;> omega

theorem without_valid (valid : h.Valid) {b : Blob} (member : b ∈ h.blobs) :
    (h.without b).Valid := by
  have removed := perm_cons_filter valid.addresses_nodup member
  have subset (c : Blob) (kept : c ∈ (h.without b).blobs) : c ∈ h.blobs :=
    List.mem_of_mem_filter kept
  constructor
  · intro x
    have covered := valid.covered x
    rw [pieces, Extent.coverage_append, Extent.coverage_perm (removed.map _), List.map_cons,
      Extent.coverage_cons] at covered
    change Extent.coverage (Extent.release (b.extent h.base) h.free ++
      (h.blobs.filter fun c => c.address ≠ b.address).map (Blob.extent h.base)) x ≤
        if x < h.capacity then 1 else 0
    rw [Extent.coverage_append, Extent.coverage_release]
    omega
  · exact fun c kept => valid.above c (subset c kept)
  · exact fun c kept => valid.mapped c (subset c kept)
  · exact fun c kept => valid.backed c (subset c kept)
  · exact fun c kept => valid.padded c (subset c kept)
  · exact fun c kept => valid.owned c (subset c kept)
  · exact valid.limited
  · exact valid.roomy

/-- A blob of the heap can be released; this takes it out and leaves the others
alone. -/
theorem release_of_mem (valid : h.Valid) {b : Blob} (member : b ∈ h.blobs) :
    h.release b.address = .ok (b, h.without b) ∧ Released h (h.without b) b := by
  have validAfter := valid.without_valid member
  have keptCode (c : Blob) (kept : c ∈ (h.without b).blobs) :
      (h.without b).code? c.address = h.code? c.address := by
    rw [validAfter.code?_of_mem kept, valid.code?_of_mem (List.mem_of_mem_filter kept)]
    rfl
  constructor
  · rw [release, valid.blob?_of_mem member]
    rfl
  · exact ⟨rfl, validAfter, perm_cons_filter valid.addresses_nodup member, keptCode⟩

end Valid

/-- What is settled about the heap that is reserved for a partition. -/
def reservedSite (host : Host) (p : Partition) (size : Nat) : Site :=
  let capacity := Size.alignDown size Size.segment
  let pages := Size.wholePages host.pageSize capacity
  if capacity = 0 then ⟨p, 0, 0, 0, false⟩
  else ⟨p, (host.map p pages).toOption.getD 0, capacity, pages, true⟩

/-- What is reserved: a heap at its site, all of which is free. -/
theorem reserve_eq_ok {host : Host} {p : Partition} {size : Nat} {h : Heap}
    (reserved : reserve host p size = .ok h) :
    h.site = reservedSite host p size ∧ h.memory.size ≤ Size.largest ∧
      h = { partition := p, base := h.base, capacity := Size.alignDown size Size.segment
            memory := h.memory
            free := if Size.alignDown size Size.segment = 0 then []
              else [⟨0, Size.alignDown size Size.segment⟩]
            blobs := []
            used := 0 } := by
  unfold reserve Memory.reserve at reserved
  dsimp only at reserved
  rw [reservedSite]
  split at reserved
  · rename_i nothing
    cases reserved
    refine ⟨?_, Nat.zero_le _, ?_⟩ <;> simp [site, nothing]
  · rename_i some
    split at reserved
    · cases reserved
    · rename_i base mapped
      cases reserved
      refine ⟨?_, host.limited _ _ _ mapped, ?_⟩ <;> simp [site, some, mapped, Except.toOption]

/-- Rounding to pages holds the capacity or leaves nothing of it. -/
theorem roomy_reservedSite (host : Host) (p : Partition) (size : Nat) :
    (reservedSite host p size).capacity ≤ (reservedSite host p size).memorySize ∨
      (reservedSite host p size).memorySize = 0 := by
  have word : Size.alignDown size Size.segment < Size.wordLimit :=
    Nat.lt_of_le_of_lt Nat.and_le_right (by decide)
  rw [reservedSite]
  split
  · exact Or.inr rfl
  · rcases Nat.lt_or_ge Size.wordLimit (Size.alignDown size Size.segment + host.pageSize) with
      wraps | short
    · exact Or.inr (Size.wholePages_eq_zero host.isPower
        (Nat.le_trans host.pageSize_le (by decide)) word wraps)
    · exact Or.inl (Size.le_wholePages host.isPower short)

/-- A heap is valid, and empty, when its memory has just been reserved. -/
theorem valid_of_reserve {host : Host} {p : Partition} {size : Nat} {h : Heap}
    (reserved : reserve host p size = .ok h) :
    h.Valid ∧ h.partition = p ∧ h.blobs = [] := by
  rcases reserve_eq_ok reserved with ⟨isSite, limited, isHeap⟩
  have free : h.free = if Size.alignDown size Size.segment = 0 then []
      else [⟨0, Size.alignDown size Size.segment⟩] := congrArg Heap.free isHeap
  have empty : h.blobs = [] := congrArg Heap.blobs isHeap
  have capacity : h.capacity = Size.alignDown size Size.segment := congrArg Heap.capacity isHeap
  refine ⟨?_, congrArg Heap.partition isHeap, empty⟩
  constructor
  case covered =>
    intro x
    rw [pieces, free, empty, capacity]
    by_cases nothing : Size.alignDown size Size.segment = 0
    · simp [nothing]
    · simp [nothing, Extent.covers_iff]
  case limited => exact limited
  case roomy =>
    have roomy := roomy_reservedSite host p size
    rw [← isSite] at roomy
    exact roomy
  all_goals simp [empty]

end Heap

end CodeLayout
