import CodeLayout.Error
import CodeLayout.Partition.Set

/-!
# Segmentation

Which partitions exist and how large each one is, decided once from the
options.  The managed partitions are carved out of the non-profiled one, so its
capacity is smaller than its option says whenever they exist.
-/

namespace CodeLayout

/-- The partitions in use and the capacity of every partition in bytes. -/
structure Segmentation where
  active : PartitionSet
  capacity : Partition → Nat

namespace Segmentation

/-- The partitions that a set of options calls for. -/
def activeOf (o : Options) : PartitionSet :=
  if !o.segmented then PartitionSet.ofList [.whole]
  else if o.interpreterOnly then PartitionSet.ofList [.nonMethod]
  else
    let s := (PartitionSet.ofList Partition.all).erase .whole
    let s := if o.hasProfiledTier then s else s.erase .profiled
    if !o.enabled || o.isDump then (s.erase .hot).erase .tmp else s

/-- The capacity that the option of a partition asks for. -/
def requestedCapacity (o : Options) : Partition → Nat
  | .nonProfiled => o.nonProfiledSize.toNat
  | .profiled => o.profiledSize.toNat
  | .hot | .tmp => o.hotHeap
  | .nonMethod => o.nonMethodSize.toNat
  | .whole => o.reservedSize.toNat

/-- What remains of the non-profiled partition when two managed partitions
are taken out of it. -/
def carve (available managed : Nat) : Except ConfigError Nat :=
  if managed % Size.heapAlignment ≠ 0 then .error (.unalignedHeap Size.heapAlignment)
  else if Size.wordLimit ≤ 2 * managed then .error (.heapTooLarge managed)
  else if available ≤ 2 * managed then
    .error (.notEnoughSpace (available / Size.kib) (2 * managed / Size.kib))
  else .ok (Size.alignDown (available - 2 * managed) Size.heapAlignment)

/-- The segmentation of a set of options. -/
def ofOptions (o : Options) : Except ConfigError Segmentation :=
  let active := activeOf o
  let requested := requestedCapacity o
  if active.contains .hot then
    (carve o.nonProfiledSize.toNat o.hotHeap).map fun remaining =>
      { active, capacity := fun p => if p = .nonProfiled then remaining else requested p }
  else .ok { active, capacity := requested }

def isActive (s : Segmentation) (p : Partition) : Bool :=
  s.active.contains p

/-- Active partitions that code of `p` may overflow into, besides `p`. -/
def overflowChain (s : Segmentation) (p : Partition) : List Partition :=
  p.overflowTargets.filter s.isActive

/-- The partitions tried for code of `p`: itself if active, then its active
overflow targets. -/
def allocationOrder (s : Segmentation) (p : Partition) : List Partition :=
  if s.isActive p then p :: s.overflowChain p else s.overflowChain p

/-- Where a method goes that no longer belongs into a managed partition. -/
def fallback (s : Segmentation) : Partition :=
  if s.isActive .nonProfiled then .nonProfiled else .whole

end Segmentation

end CodeLayout
