import CodeLayout.Proofs.Heap.Room

/-!
# The layout of a heap

The pieces of a heap are its free ranges and the ranges of its blobs.  They
start and end between segments, since code is padded to whole segments and the
capacity consists of whole segments.  The free ranges are determined by the
blobs: they are the gaps that the blobs leave and that cannot be made wider.
-/

namespace CodeLayout

namespace Extent

variable {need start : Nat} {free rest : List Extent} {e f freed : Extent}

/-- The range consists of whole segments. -/
structure Aligned (e : Extent) : Prop where
  offset : Size.segment ∣ e.offset
  length : Size.segment ∣ e.length

theorem Aligned.join (first : e.Aligned) (second : f.Aligned) :
    Aligned ⟨e.offset, e.length + f.length⟩ :=
  ⟨first.offset, Nat.dvd_add first.length second.length⟩

/-- Whole segments come off the front of a range, and whole segments remain. -/
theorem aligned_of_carve (aligned : ∀ e ∈ free, e.Aligned) (whole : Size.segment ∣ need)
    (carved : carve need free = some (start, rest)) :
    Size.segment ∣ start ∧ ∀ f ∈ rest, f.Aligned := by
  induction free generalizing rest with
  | nil => contradiction
  | cons e others inductionHypothesis =>
      rcases List.forall_mem_cons.mp aligned with ⟨alignedHead, alignedOthers⟩
      rw [carve] at carved
      split at carved
      · cases carved
        refine ⟨alignedHead.offset, ?_⟩
        intro f member
        rcases List.mem_append.mp member with isRemainder | inOthers
        · split at isRemainder
          · rw [List.mem_singleton.mp isRemainder]
            exact ⟨Nat.dvd_add alignedHead.offset whole, Nat.dvd_sub alignedHead.length whole⟩
          · contradiction
        · exact alignedOthers f inOthers
      · rcases Option.map_eq_some_iff.mp carved with ⟨⟨offset, left⟩, found, equal⟩
        cases equal
        rcases inductionHypothesis alignedOthers found with ⟨alignedStart, alignedLeft⟩
        exact ⟨alignedStart, List.forall_mem_cons.mpr ⟨alignedHead, alignedLeft⟩⟩

/-- Joining whole segments leaves whole segments. -/
theorem aligned_of_release (aligned : ∀ e ∈ free, e.Aligned) (whole : freed.Aligned) :
    ∀ f ∈ release freed free, f.Aligned := by
  induction free generalizing freed with
  | nil =>
      intro f member
      rw [List.mem_singleton.mp member]
      exact whole
  | cons e rest inductionHypothesis =>
      rcases List.forall_mem_cons.mp aligned with ⟨alignedHead, alignedRest⟩
      rw [release]
      split
      · exact inductionHypothesis alignedRest (alignedHead.join whole)
      · split
        · exact List.forall_mem_cons.mpr ⟨whole.join alignedHead, alignedRest⟩
        · split
          · exact List.forall_mem_cons.mpr ⟨alignedHead, inductionHypothesis alignedRest whole⟩
          · exact List.forall_mem_cons.mpr ⟨whole, aligned⟩

end Extent

namespace Heap

variable {h after : Heap} {b : Blob} {e f : Extent}

/-! ## Whole segments -/

/-- The heap and all its pieces consist of whole segments. -/
structure Aligned (h : Heap) : Prop where
  capacity : Size.segment ∣ h.capacity
  pieces : ∀ e ∈ h.pieces, e.Aligned

theorem Aligned.free (aligned : h.Aligned) : ∀ e ∈ h.free, e.Aligned :=
  fun e isFree => aligned.pieces e (List.mem_append_left _ isFree)

theorem Aligned.blob (aligned : h.Aligned) (live : b ∈ h.blobs) : (b.extent h.base).Aligned :=
  aligned.pieces _ (List.mem_append_right _ (List.mem_map_of_mem live))

theorem Aligned.allocate (aligned : h.Aligned) {m : Method} {code : ByteArray}
    (allocated : h.allocate m code = (.ok b, after)) : after.Aligned := by
  rcases allocate_eq_ok allocated with ⟨offset, free, memory, carved, _, rfl, rfl⟩
  have whole := Size.segment_dvd_padded code.size
  have inserted := insertBlob_perm
    ⟨m, h.partition, h.base + offset, code.size, Size.padded code.size⟩ h.blobs
  rcases Extent.aligned_of_carve aligned.free whole carved with ⟨alignedStart, alignedFree⟩
  refine ⟨aligned.capacity, ?_⟩
  intro e member
  rcases List.mem_append.mp member with isFree | isBlob
  · exact alignedFree e isFree
  · rcases List.mem_map.mp isBlob with ⟨c, live, rfl⟩
    rcases List.mem_cons.mp (inserted.mem_iff.mp live) with rfl | old
    · refine ⟨?_, whole⟩
      simpa only [Blob.extent, Nat.add_sub_cancel_left] using alignedStart
    · exact aligned.blob old

theorem Aligned.without (aligned : h.Aligned) (live : b ∈ h.blobs) : (h.without b).Aligned := by
  refine ⟨aligned.capacity, ?_⟩
  intro e member
  rcases List.mem_append.mp member with isFree | isBlob
  · exact Extent.aligned_of_release aligned.free (aligned.blob live) e isFree
  · rcases List.mem_map.mp isBlob with ⟨c, kept, rfl⟩
    exact aligned.blob (List.mem_of_mem_filter kept)

theorem aligned_of_reserve {host : Host} {p : Partition} {size : Nat}
    (reserved : reserve host p size = .ok h) : h.Aligned := by
  have whole := Size.segment_dvd_alignDown size
  rw [(reserve_eq_ok reserved).2.2]
  refine ⟨whole, ?_⟩
  intro e member
  simp only [pieces, List.map_nil, List.append_nil] at member
  split at member
  · contradiction
  · rw [List.mem_singleton.mp member]
    exact ⟨Nat.dvd_zero _, whole⟩

/-! ## Gaps -/

/-- The range is free of blobs and reaches on either side up to a blob or to an
end of the heap. -/
structure IsGap (h : Heap) (e : Extent) : Prop where
  positive : 0 < e.length
  within : e.stop ≤ h.capacity
  vacant : ∀ b ∈ h.blobs,
    e.stop ≤ (b.extent h.base).offset ∨ (b.extent h.base).stop ≤ e.offset
  left : e.offset = 0 ∨ ∃ b ∈ h.blobs, (b.extent h.base).stop = e.offset
  right : e.stop = h.capacity ∨ ∃ b ∈ h.blobs, (b.extent h.base).offset = e.stop

/-- Of two gaps that have an offset in common neither starts before the other. -/
theorem IsGap.offset_le (valid : h.Valid) (first : h.IsGap e) (second : h.IsGap f)
    (meets : e.offset < f.stop) : e.offset ≤ f.offset := by
  apply Nat.le_of_not_lt
  intro earlier
  rcases first.left with atStart | ⟨b, live, touches⟩
  · omega
  · -- The blob in front of the one gap would lie in the other.
    have positive := valid.padded_pos live
    rcases second.vacant b live with behind | before
    · simp only [Extent.stop, Blob.extent] at behind touches meets
      omega
    · omega

/-- Of two gaps that have an offset in common neither reaches farther than the
other. -/
theorem IsGap.stop_le (valid : h.Valid) (first : h.IsGap e) (second : h.IsGap f)
    (meets : f.offset < e.stop) : f.stop ≤ e.stop := by
  apply Nat.le_of_not_lt
  intro farther
  rcases first.right with atEnd | ⟨b, live, touches⟩
  · exact absurd second.within (Nat.not_le.mpr (atEnd ▸ farther))
  · have positive := valid.padded_pos live
    rcases second.vacant b live with behind | before
    · omega
    · simp only [Extent.stop, Blob.extent] at before touches meets
      omega

/-- Two gaps that have an offset in common are the same. -/
theorem IsGap.eq_of_meets (valid : h.Valid) (first : h.IsGap e) (second : h.IsGap f)
    (before : e.offset < f.stop) (after : f.offset < e.stop) : e = f := by
  have sameOffset : e.offset = f.offset :=
    Nat.le_antisymm (first.offset_le valid second before) (second.offset_le valid first after)
  have sameStop : e.stop = f.stop :=
    Nat.le_antisymm (second.stop_le valid first before) (first.stop_le valid second after)
  have sameLength : e.length = f.length := by
    simp only [Extent.stop] at sameStop
    omega
  cases e
  cases f
  simp only at sameOffset sameLength
  rw [sameOffset, sameLength]

/-- An offset within the capacity lies in a free range or in a blob. -/
theorem Tidy.exists_piece (tidy : h.Tidy) {x : Nat} (within : x < h.capacity) :
    (∃ e ∈ h.free, e.covers x = true) ∨
      ∃ b ∈ h.blobs, (b.extent h.base).covers x = true := by
  have counted : 0 < Extent.coverage h.pieces x := by
    rw [tidy.tiled, if_pos within]
    exact Nat.one_pos
  rcases List.countP_pos_iff.mp counted with ⟨e, member, covered⟩
  rcases List.mem_append.mp member with isFree | isBlob
  · exact Or.inl ⟨e, isFree, covered⟩
  · rcases List.mem_map.mp isBlob with ⟨b, live, rfl⟩
    exact Or.inr ⟨b, live, covered⟩

/-- A free range is a gap. -/
theorem Valid.isGap_of_free (valid : h.Valid) (tidy : h.Tidy) (isFree : e ∈ h.free) :
    h.IsGap e := by
  have positive := tidy.spaced.positive e isFree
  have within := valid.free_stop_le tidy isFree
  have vacant (b : Blob) (live : b ∈ h.blobs) := valid.free_apart tidy live isFree
  refine ⟨positive, within, vacant, ?_, ?_⟩
  · rcases Nat.eq_zero_or_pos e.offset with atStart | inside
    · exact Or.inl atStart
    · right
      have before : e.offset - 1 < h.capacity := by
        simp only [Extent.stop] at within
        omega
      rcases tidy.exists_piece before with ⟨f, isFreeToo, covered⟩ | ⟨b, live, covered⟩
      · rw [Extent.covers_iff] at covered
        rcases tidy.spaced.eq_or_apart isFree isFreeToo with rfl | behind | ahead
        · omega
        · simp only [Extent.stop] at behind
          omega
        · simp only [Extent.stop] at ahead
          omega
      · rw [Extent.covers_iff] at covered
        have apart := vacant b live
        simp only [Extent.stop] at apart
        exact ⟨b, live, by simp only [Extent.stop]; omega⟩
  · rcases Nat.eq_or_lt_of_le within with atEnd | inside
    · exact Or.inl atEnd
    · right
      rcases tidy.exists_piece inside with ⟨f, isFreeToo, covered⟩ | ⟨b, live, covered⟩
      · rw [Extent.covers_iff] at covered
        rcases tidy.spaced.eq_or_apart isFree isFreeToo with rfl | behind | ahead
        · simp only [Extent.stop] at covered
          omega
        · omega
        · simp only [Extent.stop] at ahead covered
          omega
      · rw [Extent.covers_iff] at covered
        have apart := vacant b live
        simp only [Extent.stop] at apart covered
        exact ⟨b, live, by simp only [Extent.stop]; omega⟩

/-- The free ranges are exactly the gaps. -/
theorem Valid.mem_free_iff (valid : h.Valid) (tidy : h.Tidy) : e ∈ h.free ↔ h.IsGap e := by
  constructor
  · exact valid.isGap_of_free tidy
  · intro isGap
    have positive := isGap.positive
    have start : e.offset < h.capacity := by
      have within := isGap.within
      simp only [Extent.stop] at within
      omega
    rcases tidy.exists_piece start with ⟨f, isFree, covered⟩ | ⟨b, live, covered⟩
    · rw [Extent.covers_iff] at covered
      have same : e = f := by
        apply isGap.eq_of_meets valid (valid.isGap_of_free tidy isFree)
        · exact covered.2
        · simp only [Extent.stop]
          omega
      exact same ▸ isFree
    · rw [Extent.covers_iff] at covered
      have apart := isGap.vacant b live
      simp only [Extent.stop] at apart
      omega

end Heap

end CodeLayout
