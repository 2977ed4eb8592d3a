import CodeLayout.Event.Log
import CodeLayout.Heap

/-!
# Forwarding tables

A pass records where code was and where it went.  An address is followed from
entry to entry, since code may move more than once in a pass.  A complete table
takes no more entries.
-/

namespace CodeLayout

/-- Old and new addresses, in the order in which the old ones were first
recorded. -/
structure Forwarding where
  generation : Nat
  entries : List (Nat × Nat)
  /-- Number of old addresses, which is counted apart from the entries. -/
  count : Nat
  complete : Bool
deriving DecidableEq, Repr, Inhabited

namespace Forwarding

def empty (generation : Nat) : Forwarding where
  generation
  entries := []
  count := 0
  complete := false

/-- Map an old address to a new one; an entry for it is replaced where it
stands. -/
def put (old new : Nat) : List (Nat × Nat) → List (Nat × Nat)
  | [] => [(old, new)]
  | entry :: rest => if entry.1 = old then (old, new) :: rest else entry :: put old new rest

/-- Where an address was recorded to move. -/
def lookup (t : Forwarding) (address : Nat) : Option Nat :=
  t.entries.lookup address

/-- Record a move.  A complete table and a move that leads nowhere else are
left alone; an entry that replaces another one is not counted again. -/
def add (t : Forwarding) (old new : Nat) : Forwarding :=
  if t.complete || old == new then t
  else
    { t with
      entries := put old new t.entries
      count := if (t.lookup old).isNone then t.count + 1 else t.count }

/-- The warning that goes with recording a move, if there is one. -/
def warning? (t : Forwarding) (old new : Nat) : Option LogLine :=
  if t.complete then
    some
      { level := .warn
        target := LogLine.eventTarget
        text := "forwarding table " ++ Digits.text t.generation ++ " is complete, dropping " ++
          Heap.hexadecimal old ++ " -> " ++ Heap.hexadecimal new }
  else none

/-- Follow entries from an address, at most as often as given. -/
def follow (t : Forwarding) : Nat → Nat → Nat
  | 0, address => address
  | hops + 1, address =>
    match t.lookup address with
    | some next => follow t hops next
    | none => address

/-- The address to which a chain of moves leads. -/
def forward (t : Forwarding) (address : Nat) : Nat :=
  t.follow (t.entries.length + 1) address

/-- Take no more entries. -/
def close (t : Forwarding) : Forwarding :=
  { t with complete := true }

/-- Number of old addresses. -/
def size (t : Forwarding) : Nat :=
  t.count

def isEmpty (t : Forwarding) : Bool :=
  t.size == 0

end Forwarding

end CodeLayout
