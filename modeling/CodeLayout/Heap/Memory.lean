import CodeLayout.Error

/-!
# Reserved memory

A reserved range of bytes that starts out zero.  Only the writes are kept, the
newest first, so a range of any size costs nothing until it is used.  A byte
is the one of the newest write over it, and writes that a newer one covers
completely are forgotten.

Memory comes from the machine that the program runs on, the host.  All that is
known about it is the size of its pages, and that it maps a range somewhere or
refuses it.
-/

namespace CodeLayout

/-- Where the memory comes from. -/
structure Host where
  pageSize : Nat
  /-- The address at which a range of some length is mapped for a partition, or
  the reason why it is not. -/
  map : Partition → Nat → Except String Nat
  isPower : pageSize.isPowerOfTwo
  /-- Heaps that are carved out of another one are made of whole pages. -/
  pageSize_le : pageSize ≤ Size.heapAlignment
  /-- No range takes up more than half of the addresses. -/
  limited : ∀ p length base, map p length = .ok base → length ≤ Size.largest

/-- A host with pages of the usual size and addresses of 47 bits, on which each
partition has a place of its own. -/
def Host.ofBase (base : Partition → Nat) : Host where
  pageSize := 4096
  map p length :=
    if 1 <<< 47 ≤ length then .error "Cannot allocate memory (os error 12)" else .ok (base p)
  isPower := ⟨12, rfl⟩
  pageSize_le := by decide
  limited := by
    intro p length base mapped
    split at mapped
    · contradiction
    · rename_i short
      exact Nat.le_trans (Nat.le_of_not_le short) (by decide)

/-- Bytes written at an offset. -/
structure Memory.Write where
  offset : Nat
  bytes : ByteArray

/-- A reserved range. -/
structure Memory where
  size : Nat
  /-- The range is backed by memory.  One that was asked to be empty is not. -/
  isMapped : Bool
  writes : List Memory.Write

namespace Memory

namespace Write

/-- One past the last offset written. -/
def stop (w : Write) : Nat :=
  w.offset + w.bytes.size

/-- The byte written at an offset, if the write reaches it. -/
def byte? (w : Write) (offset : Nat) : Option UInt8 :=
  if w.offset ≤ offset then w.bytes[offset - w.offset]? else none

/-- The write touches the range from `start` up to `stop`. -/
def meets (w : Write) (start stop : Nat) : Bool :=
  decide (w.offset < stop) && decide (start < w.stop)

/-- The write lies in the range from `start` up to `stop`. -/
def within (w : Write) (start stop : Nat) : Bool :=
  decide (start ≤ w.offset) && decide (w.stop ≤ stop)

end Write

/-- The byte at an offset after a list of writes, newest first. -/
def byteOf (writes : List Write) (offset : Nat) : UInt8 :=
  (writes.findSome? (·.byte? offset)).getD 0

/-- The byte at an offset. -/
def byte (m : Memory) (offset : Nat) : UInt8 :=
  byteOf m.writes offset

/-- Reserve a range for a partition, rounded up to whole pages, and say where it
is.  An empty range is nowhere.  The rounding wraps around within a word, and the
host is only asked for what is left of it. -/
def reserve (host : Host) (p : Partition) (size : Nat) : Except Fault (Nat × Memory) :=
  if size = 0 then .ok (0, { size := 0, isMapped := false, writes := [] })
  else
    let pages := Size.wholePages host.pageSize size
    match host.map p pages with
    | .error cause => .error (.internal ("Failed to reserve code memory: " ++ cause))
    | .ok base => .ok (base, { size := pages, isMapped := true, writes := [] })

/-- Put bytes at an offset; they have to fit the range. -/
def write (m : Memory) (offset : Nat) (bytes : ByteArray) : Except Fault Memory :=
  if !m.isMapped then .error (.internal "write to empty code memory")
  else if m.size < offset + bytes.size then
    .error (.internal ("code write out of bounds: offset=" ++ Digits.text offset ++ ", len=" ++
      Digits.text bytes.size ++ ", size=" ++ Digits.text m.size))
  else
    let older := m.writes.filter fun w => !w.within offset (offset + bytes.size)
    .ok { m with writes := { offset, bytes } :: older }

/-- The bytes of a range, if it lies in the reserved one. -/
def read (m : Memory) (offset length : Nat) : Option ByteArray :=
  if m.isMapped && decide (offset + length ≤ m.size) then
    let near := m.writes.filter (·.meets offset (offset + length))
    some ⟨Array.ofFn fun i : Fin length => byteOf near (offset + i)⟩
  else none

end Memory

end CodeLayout
