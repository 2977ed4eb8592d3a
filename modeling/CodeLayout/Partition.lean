/-!
# Partitions of the code cache

Compiled code lives in partitions.  Two of them, `hot` and `tmp`, are managed:
reordering passes fill them with the hottest methods and empty them again.  The
unsegmented cache is one partition, `whole`, that stands alone.

A full partition may pass its code on to the partitions listed by
`overflowTargets`; the relation is static and never leads into a managed
partition.
-/

namespace CodeLayout

/-- A partition of the code cache. -/
inductive Partition where
  /-- Fully optimized code without profiling. -/
  | nonProfiled
  /-- Code that still collects profiles. -/
  | profiled
  /-- Densely packed hot methods. -/
  | hot
  /-- Hot methods that found no room in the hot partition. -/
  | tmp
  /-- Stubs, adapters and buffers. -/
  | nonMethod
  /-- The unsegmented code cache. -/
  | whole
deriving DecidableEq, Repr, Inhabited

namespace Partition

/-- Every partition in the order of the ids. -/
def all : List Partition :=
  [nonProfiled, profiled, hot, tmp, nonMethod, whole]

/-- The number that stands for the partition in machine-readable output. -/
def id : Partition → Nat
  | nonProfiled => 0
  | profiled => 1
  | hot => 2
  | tmp => 3
  | nonMethod => 4
  | whole => 5

/-- The partition with a given id. -/
def ofId? (n : Nat) : Option Partition :=
  all[n]?

/-- The name shown in messages. -/
def name : Partition → String
  | nonProfiled => "CodeHeap 'non-profiled nmethods'"
  | profiled => "CodeHeap 'profiled nmethods'"
  | hot => "CodeHeap 'jbolt hot nmethods'"
  | tmp => "CodeHeap 'jbolt tmp nmethods'"
  | nonMethod => "CodeHeap 'non-nmethods'"
  | whole => "CodeCache"

/-- The option that holds the capacity of the partition. -/
def capacityOption : Partition → String
  | nonProfiled => "NonProfiledCodeHeapSize"
  | profiled => "ProfiledCodeHeapSize"
  | hot | tmp => "JBoltCodeHeapSize"
  | nonMethod => "NonNMethodCodeHeapSize"
  | whole => "ReservedCodeCacheSize"

/-- Partitions that may receive code of a full partition, in the order in
which they are tried. -/
def overflowTargets : Partition → List Partition
  | nonProfiled => []
  | profiled => [nonProfiled]
  | hot => [nonProfiled]
  | tmp => [nonProfiled]
  | nonMethod => [nonProfiled, profiled]
  | whole => []

/-- Code of `p` may end up in `q`: in `p` itself or in one of its overflow
targets. -/
def mayOverflowInto (p q : Partition) : Bool :=
  p = q || p.overflowTargets.contains q

/-- Filled and emptied by reordering passes. -/
def isManaged : Partition → Bool
  | hot | tmp => true
  | _ => false

end Partition

end CodeLayout
