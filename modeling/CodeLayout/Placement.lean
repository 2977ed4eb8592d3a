import CodeLayout.Heap
import CodeLayout.Segmentation

/-!
# Placement

Where every compiled method lives, and where a ranking says it should live.
The hottest methods fill the budget of the hot partition, the next ones that of
the tmp partition; a method that exceeds both stays where it is, unless it is
in a managed partition.  Methods without a rank leave the managed partitions.

Planning only balances bytes; nothing is moved.
-/

namespace CodeLayout

/-- The installed code of a method. -/
structure Placement where
  method : Method
  blob : Blob
  /-- Position in the ranking applied last. -/
  rank : Option Nat
  /-- Number of the compilation; newer code has a larger one. -/
  compiled : Nat
deriving DecidableEq, Repr, Inhabited

namespace Placement

/-- The partition that holds the code. -/
def partition (p : Placement) : Partition :=
  p.blob.partition

def address (p : Placement) : Nat :=
  p.blob.address

/-- Code length in bytes. -/
def size (p : Placement) : Nat :=
  p.blob.size

end Placement

/-- Installed code by method, in the order of installation. -/
abbrev Placements := List Placement

namespace Placements

def find? (ps : Placements) (m : Method) : Option Placement :=
  List.find? (fun p => p.method = m) ps

def contains (ps : Placements) (m : Method) : Bool :=
  (ps.find? m).isSome

/-- Take out the placement of a method. -/
def erase (ps : Placements) (m : Method) : Placements :=
  ps.filter fun p => p.method ≠ m

/-- Replace the placement of a method where it stands; a new one goes to the
end. -/
def put (ps : Placements) (p : Placement) : Placements :=
  match ps with
  | [] => [p]
  | q :: rest => if q.method = p.method then p :: rest else q :: put rest p

end Placements

/-- A method that has to change its partition. -/
structure Move where
  method : Method
  source : Partition
  target : Partition
  /-- Rank of the method; none if it leaves for want of one. -/
  rank : Option Nat
deriving DecidableEq, Repr, Inhabited

/-- What a ranking asks for. -/
structure Plan where
  /-- Methods that leave the managed partitions first, then the ranked ones in
  rank order. -/
  moves : List Move
  /-- Ranked methods that are installed, with their ranks. -/
  ranks : List (Method × Nat)
  /-- Padded bytes of all ranked methods. -/
  needed : Nat
  /-- Padded bytes assigned to the hot and to the tmp partition. -/
  hotUsed : Nat
  tmpUsed : Nat
deriving DecidableEq, Repr, Inhabited

namespace Plan

/-- The partition a method is planned to move to. -/
def targetOf (p : Plan) (m : Method) : Option Partition :=
  (p.moves.find? fun move => move.method = m).map Move.target

/-- The rank of a method. -/
def rankOf (p : Plan) (m : Method) : Option Nat :=
  p.ranks.lookup m

def empty : Plan where
  moves := []
  ranks := []
  needed := 0
  hotUsed := 0
  tmpUsed := 0

/-- Bytes that a partition offers. -/
def budget (s : Segmentation) (p : Partition) : Nat :=
  if s.isActive p then s.capacity p else 0

/-- The partition for a ranked method of a padded size. -/
def choose (s : Segmentation) (p : Plan) (current : Partition) (size : Nat) : Partition :=
  if p.hotUsed + size ≤ budget s .hot then .hot
  else if p.tmpUsed + size ≤ budget s .tmp then .tmp
  else if current.isManaged then s.fallback
  else current

/-- Give the next rank to an installed method. -/
def rankNext (s : Segmentation) (p : Plan) (placed : Placement) : Plan :=
  let rank := p.ranks.length
  let size := placed.blob.padded
  let target := p.choose s placed.partition size
  { moves :=
      if target = placed.partition then p.moves
      else p.moves ++ [⟨placed.method, placed.partition, target, some rank⟩]
    ranks := p.ranks ++ [(placed.method, rank)]
    needed := p.needed + size
    hotUsed := if p.hotUsed + size ≤ budget s .hot then p.hotUsed + size else p.hotUsed
    tmpUsed :=
      if p.hotUsed + size ≤ budget s .hot then p.tmpUsed
      else if p.tmpUsed + size ≤ budget s .tmp then p.tmpUsed + size
      else p.tmpUsed }

/-- Go on with the next method of a ranking; one that has a rank already or is
not installed is passed over. -/
def rankMethod (s : Segmentation) (placements : Placements) (p : Plan) (m : Method) : Plan :=
  if (p.rankOf m).isSome then p
  else match placements.find? m with
    | some placed => rankNext s p placed
    | none => p

/-- Moves of methods in managed partitions that have no rank. -/
def evictions (s : Segmentation) (placements : Placements) (p : Plan) : List Move :=
  (placements.filter fun placed =>
      placed.partition.isManaged && (p.rankOf placed.method).isNone).map fun placed =>
    ⟨placed.method, placed.partition, s.fallback, none⟩

/-- The plan for a ranking, hottest method first. -/
def ofRanking (s : Segmentation) (placements : Placements) (ranking : List Method) : Plan :=
  let p := ranking.foldl (rankMethod s placements) empty
  { p with moves := evictions s placements p ++ p.moves }

end Plan

end CodeLayout
