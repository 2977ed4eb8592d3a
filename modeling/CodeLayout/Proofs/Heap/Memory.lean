import CodeLayout.Heap.Memory

/-!
# Reads after writes

A memory is known by its byte at every offset.  A write changes the bytes of
its own range and no others, although it drops older writes; a read copies the
bytes of its range, although it looks at the writes that touch it only.  So
what was written is read back until something is written over it.
-/

namespace CodeLayout.Memory

namespace Write

theorem byte?_eq_none_iff (w : Write) (offset : Nat) :
    w.byte? offset = none ↔ ¬ (w.offset ≤ offset ∧ offset < w.stop) := by
  simp only [byte?, stop]
  by_cases reached : w.offset ≤ offset
  · rw [if_pos reached, getElem?_eq_none_iff]
    simp only [reached, true_and]
    omega
  · simp [reached]

end Write

/-- A list of writes may be thinned out at an offset that the dropped ones do
not reach. -/
theorem byteOf_filter {writes : List Write} {keep : Write → Bool} {offset : Nat}
    (unreached : ∀ w ∈ writes, keep w = false → w.byte? offset = none) :
    byteOf (writes.filter keep) offset = byteOf writes offset := by
  unfold byteOf
  congr 1
  induction writes with
  | nil => rfl
  | cons w rest inductionHypothesis =>
      have filteredRest := inductionHypothesis fun v member =>
        unreached v (List.mem_cons_of_mem w member)
      cases kept : keep w with
      | true =>
          rw [List.filter_cons_of_pos kept, List.findSome?_cons, List.findSome?_cons, filteredRest]
      | false =>
          rw [List.filter_cons_of_neg (by simp [kept]), List.findSome?_cons,
            unreached w List.mem_cons_self kept, filteredRest]

/-- What a write does to the memory, byte by byte. -/
structure Written (before after : Memory) (offset : Nat) (bytes : ByteArray) : Prop where
  mapped : before.isMapped = true
  fits : offset + bytes.size ≤ before.size
  isMapped : after.isMapped = before.isMapped
  size : after.size = before.size
  inside : ∀ i (bound : i < bytes.size), after.byte (offset + i) = bytes[i]
  outside : ∀ x, x < offset ∨ offset + bytes.size ≤ x → after.byte x = before.byte x

theorem written_of_write {m after : Memory} {offset : Nat} {bytes : ByteArray}
    (written : m.write offset bytes = .ok after) : Written m after offset bytes := by
  unfold write at written
  split at written
  · contradiction
  · rename_i mapped
    split at written
    · contradiction
    · rename_i fits
      cases written
      constructor
      · simpa using mapped
      · exact Nat.le_of_not_lt fits
      · rfl
      · rfl
      · intro i bound
        simp [byte, byteOf, Write.byte?, bound]
      · intro x away
        have missed : Write.byte? ⟨offset, bytes⟩ x = none := by
          rw [Write.byte?_eq_none_iff]
          simp only [Write.stop]
          omega
        simp only [byte, byteOf, List.findSome?_cons, missed]
        apply byteOf_filter
        intro w _ dropped
        rw [Write.byte?_eq_none_iff]
        simp only [Write.within, Bool.not_eq_false', Bool.and_eq_true,
          decide_eq_true_eq] at dropped
        omega

/-- A write that fails does not do so for want of free bytes. -/
theorem isFull_of_write {m : Memory} {offset : Nat} {bytes : ByteArray} {fault : Fault}
    (failed : m.write offset bytes = .error fault) : fault.isFull = false := by
  unfold write at failed
  split at failed
  · cases failed
    rfl
  · split at failed <;> cases failed
    rfl

/-- A read copies the bytes of its range. -/
theorem read_eq {m : Memory} {offset length : Nat} (mapped : m.isMapped = true)
    (fits : offset + length ≤ m.size) :
    m.read offset length = some ⟨Array.ofFn fun i : Fin length => m.byte (offset + i)⟩ := by
  have within : (m.isMapped && decide (offset + length ≤ m.size)) = true := by
    simp [mapped, fits]
  rw [read, if_pos within]
  simp only [Option.some.injEq, ByteArray.mk.injEq]
  congr 1
  funext i
  apply byteOf_filter
  intro w _ dropped
  rw [Write.byte?_eq_none_iff]
  simp only [Write.meets, Bool.and_eq_false_iff, decide_eq_false_iff_not] at dropped
  omega

theorem read_size {m : Memory} {offset length : Nat} {bytes : ByteArray}
    (isRead : m.read offset length = some bytes) : bytes.size = length := by
  unfold read at isRead
  split at isRead
  · cases isRead
    exact Array.size_ofFn
  · contradiction

/-- What was written is read back. -/
theorem Written.read_self {before after : Memory} {offset : Nat} {bytes : ByteArray}
    (written : Written before after offset bytes) :
    after.read offset bytes.size = some bytes := by
  rw [read_eq (written.isMapped.trans written.mapped) (written.size ▸ written.fits)]
  simp only [Option.some.injEq]
  apply ByteArray.ext
  apply Array.ext
  · exact Array.size_ofFn
  · intro i _ bound
    rw [Array.getElem_ofFn]
    exact written.inside i bound

/-- A write leaves the ranges alone that it does not meet. -/
theorem Written.read_of_apart {before after : Memory} {offset start length : Nat}
    {bytes : ByteArray} (written : Written before after offset bytes)
    (apart : start + length ≤ offset ∨ offset + bytes.size ≤ start) :
    after.read start length = before.read start length := by
  have mapped := written.isMapped.trans written.mapped
  by_cases fits : start + length ≤ before.size
  · rw [read_eq mapped (written.size ▸ fits), read_eq written.mapped fits]
    simp only [Option.some.injEq, ByteArray.mk.injEq]
    congr 1
    funext i
    exact written.outside _ (by omega)
  · simp [read, written.size, fits]

end CodeLayout.Memory
