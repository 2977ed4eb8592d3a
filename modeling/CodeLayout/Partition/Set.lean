import CodeLayout.Partition

/-!
# Sets of partitions

A set is its membership test.  Its members are listed in id order, whatever
the order of insertion.
-/

namespace CodeLayout

/-- A set of partitions, given by its membership test. -/
structure PartitionSet where
  contains : Partition → Bool

namespace PartitionSet

def empty : PartitionSet := ⟨fun _ => false⟩

def insert (s : PartitionSet) (p : Partition) : PartitionSet :=
  ⟨fun q => q = p || s.contains q⟩

def erase (s : PartitionSet) (p : Partition) : PartitionSet :=
  ⟨fun q => !decide (q = p) && s.contains q⟩

def ofList (ps : List Partition) : PartitionSet :=
  ps.foldl insert empty

/-- The members in id order. -/
def toList (s : PartitionSet) : List Partition :=
  Partition.all.filter s.contains

def size (s : PartitionSet) : Nat :=
  s.toList.length

def isEmpty (s : PartitionSet) : Bool :=
  s.toList.isEmpty

/-- The names of the members between brackets. -/
def display (s : PartitionSet) : String :=
  "[" ++ String.intercalate ", " (s.toList.map Partition.name) ++ "]"

end PartitionSet

end CodeLayout
