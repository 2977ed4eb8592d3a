import CodeLayout.Proofs.Heap.Coverage
import CodeLayout.Proofs.Heap.Memory
import CodeLayout.Proofs.Size.Rounding
import Mathlib.Data.List.Nodup

/-!
# Valid heaps

In a valid heap the free ranges and the ranges of the blobs lie in the capacity and do
not overlap, and every blob is backed by memory.  Allocating and releasing keep a heap
valid; the one adds a blob that holds the given code, the other takes its blob
out, and both leave the code of all other blobs as it was.
-/

namespace CodeLayout

namespace Blob

/-- The range of offsets that a blob takes up in a heap. -/
def extent (base : Nat) (b : Blob) : Extent :=
  ⟨b.address - base, b.padded⟩

/-- The padded ranges of two blobs have no address in common. -/
def Apart (b c : Blob) : Prop :=
  b.address + b.padded ≤ c.address ∨ c.address + c.padded ≤ b.address

theorem Apart.symm {b c : Blob} (apart : b.Apart c) : c.Apart b :=
  Or.symm apart

instance : Std.Symm Apart where
  symm _ _ := Apart.symm

/-- No two blobs that lie apart and take up space start at the same address. -/
theorem nodup_of_apart {blobs : List Blob} (apart : blobs.Pairwise Apart)
    (positive : ∀ b ∈ blobs, 0 < b.padded) : (blobs.map Blob.address).Nodup := by
  apply List.pairwise_map.mpr
  apply apart.imp_of_mem
  intro b c first second apart equal
  have positiveFirst := positive b first
  have positiveSecond := positive c second
  simp only [Apart, equal] at apart
  omega

end Blob

namespace Heap

/-- The free ranges and the ranges of the blobs. -/
def pieces (h : Heap) : List Extent :=
  h.free ++ h.blobs.map (Blob.extent h.base)

/-- What is settled about a heap once its memory is reserved. -/
structure Site where
  partition : Partition
  base : Nat
  capacity : Nat
  memorySize : Nat
  isMapped : Bool

def site (h : Heap) : Site :=
  ⟨h.partition, h.base, h.capacity, h.memory.size, h.memory.isMapped⟩

/-- Every offset lies in at most one free range or blob, and in none beyond the capacity;
every blob lies in the memory. -/
structure Valid (h : Heap) : Prop where
  covered : ∀ x, Extent.coverage h.pieces x ≤ if x < h.capacity then 1 else 0
  above : ∀ b ∈ h.blobs, h.base ≤ b.address
  mapped : ∀ b ∈ h.blobs, h.memory.isMapped = true
  backed : ∀ b ∈ h.blobs, b.address - h.base + b.size ≤ h.memory.size
  padded : ∀ b ∈ h.blobs, b.padded = Size.padded b.size
  owned : ∀ b ∈ h.blobs, b.partition = h.partition
  limited : h.memory.size ≤ Size.largest
  /-- The memory holds the capacity, unless rounding up left nothing of it. -/
  roomy : h.capacity ≤ h.memory.size ∨ h.memory.size = 0

/-! ## Blobs of a valid heap -/

namespace Valid

variable {h : Heap}

/-- Code that fits a memory is no longer than the largest size. -/
theorem size_le (valid : h.Valid) {b : Blob} (member : b ∈ h.blobs) : b.size ≤ Size.largest :=
  Nat.le_trans (Nat.le_trans (Nat.le_add_left _ _) (valid.backed b member)) valid.limited

theorem short (valid : h.Valid) {b : Blob} (member : b ∈ h.blobs) :
    b.size + Size.segment ≤ Size.wordLimit :=
  Size.short_of_le_largest (valid.size_le member)

theorem size_le_padded (valid : h.Valid) {b : Blob} (member : b ∈ h.blobs) :
    b.size ≤ b.padded := by
  rw [valid.padded b member]
  exact Size.le_padded (valid.short member)

theorem padded_pos (valid : h.Valid) {b : Blob} (member : b ∈ h.blobs) : 0 < b.padded := by
  rw [valid.padded b member]
  exact Size.padded_pos (valid.short member)

/-- No two pieces have an offset in common. -/
theorem disjoint (valid : h.Valid) :
    h.pieces.Pairwise fun e f => ∀ x, ¬ (e.covers x = true ∧ f.covers x = true) := by
  apply Extent.pairwise_of_coverage_le_one
  intro x
  have covered := valid.covered x
  split at covered <;> omega

theorem coverage_blobs_le (valid : h.Valid) (x : Nat) :
    Extent.coverage (h.blobs.map (Blob.extent h.base)) x ≤ if x < h.capacity then 1 else 0 := by
  have covered := valid.covered x
  rw [pieces, Extent.coverage_append] at covered
  omega

/-- A blob ends within the capacity. -/
theorem stop_le (valid : h.Valid) {b : Blob} (member : b ∈ h.blobs) :
    b.address - h.base + b.padded ≤ h.capacity := by
  have positive := valid.padded_pos member
  apply Nat.le_of_not_lt
  intro beyond
  have covered : (b.extent h.base).covers (b.address - h.base + b.padded - 1) = true := by
    rw [Extent.covers_iff]
    simp only [Blob.extent]
    omega
  have counted : 0 < Extent.coverage (h.blobs.map (Blob.extent h.base))
      (b.address - h.base + b.padded - 1) :=
    List.countP_pos_iff.mpr ⟨_, List.mem_map_of_mem member, covered⟩
  have atMost := valid.coverage_blobs_le (b.address - h.base + b.padded - 1)
  rw [if_neg (by omega)] at atMost
  omega

/-- The blobs lie apart from each other. -/
theorem apart (valid : h.Valid) : h.blobs.Pairwise Blob.Apart := by
  have once (x : Nat) : Extent.coverage (h.blobs.map (Blob.extent h.base)) x ≤ 1 := by
    have atMost := valid.coverage_blobs_le x
    split at atMost <;> omega
  apply (List.pairwise_map.mp (Extent.pairwise_of_coverage_le_one once)).imp_of_mem
  intro b c first second disjoint
  have aboveFirst := valid.above b first
  have aboveSecond := valid.above c second
  have positiveFirst := valid.padded_pos first
  have positiveSecond := valid.padded_pos second
  have noCommon := disjoint (max (b.address - h.base) (c.address - h.base))
  simp only [Extent.covers_iff, Blob.extent] at noCommon
  simp only [Blob.Apart]
  omega

theorem addresses_nodup (valid : h.Valid) : (h.blobs.map Blob.address).Nodup :=
  Blob.nodup_of_apart valid.apart fun _ member => valid.padded_pos member

theorem blob?_of_mem (valid : h.Valid) {b : Blob} (member : b ∈ h.blobs) :
    h.blob? b.address = some b := by
  obtain ⟨c, found⟩ : ∃ c, h.blob? b.address = some c := by
    apply Option.isSome_iff_exists.mp
    rw [blob?, List.find?_isSome]
    exact ⟨b, member, by simp⟩
  have sameAddress : c.address = b.address := by simpa using List.find?_some found
  have same : c = b :=
    List.inj_on_of_nodup_map valid.addresses_nodup (List.mem_of_find?_eq_some found) member
      sameAddress
  rw [found, same]

/-- The code of a blob is read from the memory at its offset. -/
theorem code?_of_mem (valid : h.Valid) {b : Blob} (member : b ∈ h.blobs) :
    h.code? b.address = h.memory.read (b.address - h.base) b.size := by
  rw [code?, valid.blob?_of_mem member]
  rfl

theorem exists_code (valid : h.Valid) {b : Blob} (member : b ∈ h.blobs) :
    ∃ code, h.code? b.address = some code := by
  rw [valid.code?_of_mem member, Memory.read, valid.mapped b member,
    decide_eq_true (valid.backed b member)]
  exact ⟨_, rfl⟩

theorem code?_size (valid : h.Valid) {b : Blob} (member : b ∈ h.blobs) {code : ByteArray}
    (isCode : h.code? b.address = some code) : code.size = b.size := by
  rw [valid.code?_of_mem member] at isCode
  exact Memory.read_size isCode

end Valid

end Heap

end CodeLayout
