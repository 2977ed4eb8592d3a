import CodeLayout.Proofs.Heap.Room

/-!
# Stacked blobs

A heap that is filled from empty stacks its blobs: each one begins where the one
before it ends, the first one at the base, and what is left is a single free range
behind the last one.  Such a heap has room for code exactly if the bytes left
suffice.
-/

namespace CodeLayout

namespace Blob

variable {p : Partition} {start : Nat} {blobs rest : List Blob} {b : Blob}

/-- The blobs brought into a partition, one directly behind the other. -/
def stack (p : Partition) : Nat → List Blob → List Blob
  | _, [] => []
  | start, b :: rest =>
      { b with partition := p, address := start } :: stack p (start + b.padded) rest

/-- The bytes that stacked blobs take up. -/
def height (blobs : List Blob) : Nat :=
  (blobs.map Blob.padded).sum

theorem height_nil : height [] = 0 :=
  rfl

theorem height_cons (b : Blob) (rest : List Blob) : height (b :: rest) = b.padded + height rest :=
  List.sum_cons

theorem height_append (blobs rest : List Blob) :
    height (blobs ++ rest) = height blobs + height rest := by
  rw [height, List.map_append, List.sum_append]
  rfl

theorem height_singleton (b : Blob) : height [b] = b.padded :=
  List.sum_singleton

/-- A further blob comes on top. -/
theorem stack_concat (p : Partition) (start : Nat) (blobs : List Blob) (b : Blob) :
    stack p start (blobs ++ [b]) =
      stack p start blobs ++ [{ b with partition := p, address := start + height blobs }] := by
  induction blobs generalizing start with
  | nil => rfl
  | cons c rest inductionHypothesis =>
      rw [List.cons_append, stack, inductionHypothesis, stack, List.cons_append, height_cons,
        Nat.add_assoc]

/-- Nothing in a stack begins behind its end. -/
theorem address_le_of_mem_stack (member : b ∈ stack p start blobs) :
    b.address ≤ start + height blobs := by
  induction blobs generalizing start with
  | nil => contradiction
  | cons c rest inductionHypothesis =>
      rw [height_cons]
      rcases List.mem_cons.mp member with rfl | later
      · exact Nat.le_add_right _ _
      · exact Nat.le_trans (inductionHypothesis later) (Nat.le_of_eq (Nat.add_assoc _ _ _))

theorem methods_stack (p : Partition) (start : Nat) (blobs : List Blob) :
    (stack p start blobs).map Blob.method = blobs.map Blob.method := by
  induction blobs generalizing start with
  | nil => rfl
  | cons c rest inductionHypothesis =>
      rw [stack, List.map_cons, inductionHypothesis, List.map_cons]

end Blob

namespace Heap

variable {h after : Heap} {blobs guests : List Blob} {b : Blob} {m : Method} {code : ByteArray}

/-- A blob that begins behind all others comes last. -/
theorem insertBlob_of_last (last : ∀ c ∈ blobs, c.address ≤ b.address) :
    insertBlob b blobs = blobs ++ [b] := by
  induction blobs with
  | nil => rfl
  | cons c rest inductionHypothesis =>
      rw [insertBlob, if_neg (Nat.not_lt.mpr (last c List.mem_cons_self)),
        inductionHypothesis fun d member => last d (List.mem_cons_of_mem c member)]
      rfl

/-- The heap holds stacked blobs, and what is behind them is free. -/
structure Stacked (h : Heap) (guests : List Blob) : Prop where
  blobs : h.blobs = Blob.stack h.partition h.base guests
  free : h.free = if Blob.height guests < h.capacity then
    [⟨Blob.height guests, h.capacity - Blob.height guests⟩] else []

/-- An empty heap stacks nothing. -/
theorem Valid.stacked_nil (valid : h.Valid) (tidy : h.Tidy) (empty : h.blobs = []) :
    h.Stacked [] := by
  have whole := valid.free_whole tidy empty
  have total := tidy.total
  rw [tidy.used, empty, List.map_nil, List.sum_nil, Nat.add_zero] at total
  constructor
  · exact empty
  · rw [Blob.height_nil, Nat.sub_zero]
    match listed : h.free, whole with
    | [], _ =>
        rw [listed, Extent.total_nil] at total
        rw [if_neg (Nat.not_lt.mpr (Nat.le_of_eq total.symm))]
    | [⟨offset, length⟩], _ =>
        have isFree : ⟨offset, length⟩ ∈ h.free := listed ▸ List.mem_cons_self
        have positive : 0 < length := tidy.spaced.positive _ isFree
        have stop : offset + length ≤ h.capacity := valid.free_stop_le tidy isFree
        rw [listed, Extent.total_cons, Extent.total_nil, Nat.add_zero] at total
        have everything : length = h.capacity := total
        have fromStart : offset = 0 := by omega
        rw [← total, if_pos positive, fromStart]

namespace Stacked

theorem largestFree_eq (stacked : h.Stacked guests) :
    h.largestFree = h.capacity - Blob.height guests := by
  rw [largestFree, stacked.free]
  split
  · rw [Extent.longest_cons]
    exact Nat.max_eq_left (Nat.zero_le _)
  · rename_i full
    exact (Nat.sub_eq_zero_of_le (Nat.le_of_not_lt full)).symm

/-- Code that is allocated comes on top of the stack, in place of an old copy of it. -/
theorem allocate (stacked : h.Stacked guests) (allocated : h.allocate m code = (.ok b, after))
    {old : Blob} (method : b.method = old.method) (size : b.size = old.size)
    (padded : b.padded = old.padded) : after.Stacked (guests ++ [old]) := by
  rcases allocate_eq_ok allocated with ⟨offset, free, memory, carved, _, rfl, rfl⟩
  simp only at method size padded
  rw [padded] at carved
  obtain ⟨onTop, left⟩ : offset = Blob.height guests ∧
      free = if Blob.height guests + old.padded < h.capacity then
        [⟨Blob.height guests + old.padded, h.capacity - (Blob.height guests + old.padded)⟩]
        else [] := by
    rw [stacked.free] at carved
    split at carved
    · simp only [Extent.carve, List.append_nil, Option.map_none] at carved
      split at carved
      · cases carved
        refine ⟨rfl, ?_⟩
        simp only [Nat.lt_sub_iff_add_lt', Nat.sub_sub]
      · contradiction
    · contradiction
  constructor
  · rw [Blob.stack_concat, ← stacked.blobs, ← onTop, ← method, ← size, ← padded]
    apply insertBlob_of_last
    intro c member
    rw [stacked.blobs] at member
    rw [onTop]
    exact Blob.address_le_of_mem_stack member
  · rw [Blob.height_append, Blob.height_singleton]
    exact left

end Stacked

end Heap

end CodeLayout
