import CodeLayout.Heap.Memory
import CodeLayout.Method

/-!
# Code heaps

A heap is the memory of one partition with a first-fit allocator over it.  The
free ranges and the blobs are kept in address order.  Code is padded to whole
segments; a freed range is joined with the free ranges it touches, so that the
free ranges are always the maximal gaps between the blobs.
-/

namespace CodeLayout

/-- A free range of a heap. -/
structure Extent where
  offset : Nat
  length : Nat
deriving DecidableEq, Repr, Inhabited

/-- The code of a method inside a heap. -/
structure Blob where
  method : Method
  partition : Partition
  address : Nat
  /-- Code length in bytes. -/
  size : Nat
  /-- Bytes reserved in the heap. -/
  padded : Nat
deriving DecidableEq, Repr, Inhabited

namespace Extent

/-- One past the last offset of the range. -/
def stop (e : Extent) : Nat :=
  e.offset + e.length

/-- Take bytes off the front of the lowest range that has enough of them.  The
result is the offset taken and the ranges that remain. -/
def carve (need : Nat) : List Extent → Option (Nat × List Extent)
  | [] => none
  | e :: rest =>
    if need ≤ e.length then
      let remainder := if need < e.length then [⟨e.offset + need, e.length - need⟩] else []
      some (e.offset, remainder ++ rest)
    else (carve need rest).map fun (offset, others) => (offset, e :: others)

/-- Give a range back, joined with the ranges that it touches. -/
def release (freed : Extent) : List Extent → List Extent
  | [] => [freed]
  | e :: rest =>
    if e.stop = freed.offset then release ⟨e.offset, e.length + freed.length⟩ rest
    else if freed.stop = e.offset then ⟨freed.offset, freed.length + e.length⟩ :: rest
    else if e.offset < freed.offset then e :: release freed rest
    else freed :: e :: rest

/-- Length of the longest range; zero if there is none. -/
def longest (free : List Extent) : Nat :=
  free.foldl (fun n e => max n e.length) 0

end Extent

/-- The allocator over the memory of one partition. -/
structure Heap where
  partition : Partition
  /-- Address of the first byte. -/
  base : Nat
  capacity : Nat
  memory : Memory
  /-- Free ranges by ascending offset. -/
  free : List Extent
  /-- Blobs by ascending address. -/
  blobs : List Blob
  /-- Bytes reserved by the blobs. -/
  used : Nat

namespace Heap

/-- Reserve an empty heap; its capacity is cut down to whole segments. -/
def reserve (host : Host) (partition : Partition) (size : Nat) : Except Fault Heap :=
  let capacity := Size.alignDown size Size.segment
  (Memory.reserve host partition capacity).map fun (base, memory) =>
    { partition, base, capacity, memory
      free := if capacity = 0 then [] else [⟨0, capacity⟩]
      blobs := []
      used := 0 }

def freeBytes (h : Heap) : Nat :=
  h.capacity - h.used

/-- The address lies in the range of the heap. -/
def contains (h : Heap) (address : Nat) : Bool :=
  decide (h.base ≤ address) && decide (address < h.base + h.capacity)

def largestFree (h : Heap) : Nat :=
  Extent.longest h.free

/-- The blob that starts at an address. -/
def blob? (h : Heap) (address : Nat) : Option Blob :=
  h.blobs.find? fun b => b.address = address

/-- A copy of the code of the blob that starts at an address. -/
def code? (h : Heap) (address : Nat) : Option ByteArray :=
  (h.blob? address).bind fun b => h.memory.read (b.address - h.base) b.size

/-- Put a blob into a list of blobs in address order. -/
def insertBlob (b : Blob) : List Blob → List Blob
  | [] => [b]
  | c :: rest => if b.address < c.address then b :: c :: rest else c :: insertBlob b rest

/-- Copy code into the lowest free range that fits.  What it takes up is no longer
free by the time it is written, and stays so where it cannot be written. -/
def allocate (h : Heap) (method : Method) (code : ByteArray) : Except Fault Blob × Heap :=
  let padded := Size.padded code.size
  match Extent.carve padded h.free with
  | none => (.error (.full h.partition padded), h)
  | some (offset, free) =>
    match h.memory.write offset code with
    | .error fault => (.error fault, { h with free })
    | .ok memory =>
      let blob : Blob :=
        { method, partition := h.partition, address := h.base + offset
          size := code.size, padded }
      (.ok blob, { h with
        memory, free, blobs := insertBlob blob h.blobs, used := h.used + padded })

/-- Lower-case hexadecimal digits of a number. -/
def hexadecimal (n : Nat) : String :=
  "0x" ++ String.ofList (Nat.toDigits 16 n)

/-- Release the blob that starts at an address. -/
def release (h : Heap) (address : Nat) : Except Fault (Blob × Heap) :=
  match h.blob? address with
  | none => .error (.internal (hexadecimal address ++ " is not a blob in " ++ h.partition.name))
  | some blob =>
    .ok (blob,
      { h with
        free := Extent.release ⟨address - h.base, blob.padded⟩ h.free
        blobs := h.blobs.filter fun b => b.address ≠ address
        used := h.used - blob.padded })

end Heap

end CodeLayout
