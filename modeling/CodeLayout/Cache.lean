import CodeLayout.Event
import CodeLayout.Heap
import CodeLayout.Segmentation

/-!
# The code cache

One heap for each active partition.  Code for a full partition goes to the
partitions that it may overflow into; each full heap on the way is reported.
-/

namespace CodeLayout

/-- The heaps of the active partitions, in id order. -/
structure Cache where
  segmentation : Segmentation
  heaps : List Heap

namespace Cache

/-- Reserve the heaps of a segmentation. -/
def reserve (s : Segmentation) (host : Host) : Except Fault Cache :=
  (s.active.toList.mapM fun p => Heap.reserve host p (s.capacity p)).map fun heaps =>
    { segmentation := s, heaps }

/-- The heap of a partition. -/
def heap? (c : Cache) (p : Partition) : Option Heap :=
  c.heaps.find? fun h => h.partition = p

/-- Put a heap in the place of the one of its partition. -/
def put (c : Cache) (heap : Heap) : Cache :=
  { c with heaps := c.heaps.map fun h => if h.partition = heap.partition then heap else h }

/-- What became of a request for room: the answer, the cache, and what was reported
on the way. -/
structure Served where
  answer : Except Fault Blob
  cache : Cache
  events : List Event

/-- Allocate in one partition only. -/
def allocateExact (c : Cache) (p : Partition) (m : Method) (code : ByteArray) :
    Except Fault Blob × Cache :=
  match c.heap? p with
  | none => (.error (.inactive p), c)
  | some heap =>
    let (answer, heap) := heap.allocate m code
    (answer, c.put heap)

/-- Try partitions in turn.  A full one is reported and passed over; any other
fault ends the search. -/
def tryEach (c : Cache) (requested : Partition) (m : Method) (code : ByteArray) :
    List Partition → Served
  | [] => ⟨.error (.full requested (Size.padded code.size)), c, []⟩
  | p :: rest =>
    match c.allocateExact p m code with
    | (.ok blob, c) => ⟨.ok blob, c, []⟩
    | (.error fault, c) =>
      if fault.isFull then
        let served := tryEach c requested m code rest
        { served with events := .heapFull p :: served.events }
      else ⟨.error fault, c, []⟩

/-- Allocate in the first partition of a list that has room. -/
def allocateInOrder (c : Cache) (order : List Partition) (requested : Partition) (m : Method)
    (code : ByteArray) : Served :=
  if order.isEmpty then ⟨.error (.inactive requested), c, []⟩
  else c.tryEach requested m code order

/-- Allocate in a partition or where it may overflow into. -/
def allocate (c : Cache) (p : Partition) (m : Method) (code : ByteArray) : Served :=
  c.allocateInOrder (c.segmentation.allocationOrder p) p m code

/-- Release a blob, which is found by its partition and its address. -/
def release (c : Cache) (blob : Blob) : Except Fault (Blob × Cache) :=
  match c.heap? blob.partition with
  | none => .error (.inactive blob.partition)
  | some heap => (heap.release blob.address).map fun (freed, heap) => (freed, c.put heap)

/-- A copy of the code of a blob. -/
def code? (c : Cache) (blob : Blob) : Option ByteArray :=
  (c.heap? blob.partition).bind fun h => h.code? blob.address

/-- The partition in which a blob starts at an address. -/
def partitionOf (c : Cache) (address : Nat) : Option Partition :=
  (c.heaps.find? fun h => (h.blob? address).isSome).map Heap.partition

/-- The methods of a partition in address order. -/
def methodsIn (c : Cache) (p : Partition) : List Method :=
  ((c.heap? p).map fun h => h.blobs.map Blob.method).getD []

/-- Length of the longest free range of a partition. -/
def largestFree (c : Cache) (p : Partition) : Nat :=
  ((c.heap? p).map Heap.largestFree).getD 0

/-- Free bytes of a partition, however they are spread. -/
def freeBytes? (c : Cache) (p : Partition) : Option Nat :=
  (c.heap? p).map Heap.freeBytes

end Cache

end CodeLayout
