import CodeLayout.Histogram

/-!
# Pass reports and statistics

What one reordering pass did, and the sums over all passes.  The sums are
words and wrap around.
-/

namespace CodeLayout

/-- Outcome of one reordering pass. -/
structure PassReport where
  pass : Nat
  /-- Methods that had a rank. -/
  ranked : Nat
  /-- Methods that moved. -/
  relocated : Nat
  /-- Methods without a rank that left the managed partitions. -/
  evicted : Nat
  bytesMoved : Nat
  /-- Methods that found no room. -/
  unplaced : Nat
  /-- Duration in nanoseconds. -/
  elapsed : Nat
  /-- File to which the order was written. -/
  dumped : Option String
deriving DecidableEq, Repr, Inhabited

namespace PassReport

/-- The report of a pass that has done nothing yet. -/
def start (pass : Nat) : PassReport where
  pass
  ranked := 0
  relocated := 0
  evicted := 0
  bytesMoved := 0
  unplaced := 0
  elapsed := 0
  dumped := none

/-- Milliseconds of a number of nanoseconds. -/
def milliseconds (nanoseconds : Nat) : Float :=
  Float.ofNat nanoseconds / 1000000

end PassReport

/-- Sums over the passes that ended well. -/
structure Statistics where
  passes : UInt64
  dumpPasses : UInt64
  relocations : UInt64
  evictions : UInt64
  bytesMoved : UInt64
  unplaced : UInt64
  /-- Durations in nanoseconds. -/
  durations : Histogram
deriving DecidableEq, Repr, Inhabited

namespace Statistics

def empty : Statistics where
  passes := 0
  dumpPasses := 0
  relocations := 0
  evictions := 0
  bytesMoved := 0
  unplaced := 0
  durations := Histogram.empty

/-- Add the report of a pass. -/
def record (s : Statistics) (r : PassReport) : Statistics where
  passes := s.passes + 1
  dumpPasses := if r.dumped.isSome then s.dumpPasses + 1 else s.dumpPasses
  relocations := s.relocations + UInt64.ofNat r.relocated
  evictions := s.evictions + UInt64.ofNat r.evicted
  bytesMoved := s.bytesMoved + UInt64.ofNat r.bytesMoved
  unplaced := s.unplaced + UInt64.ofNat r.unplaced
  durations := s.durations.record (r.elapsed % Size.wordLimit)

/-- Mean duration of a pass in milliseconds. -/
def meanMilliseconds (s : Statistics) : Float :=
  PassReport.milliseconds s.durations.mean

/-- Longest duration of a pass in milliseconds. -/
def longestMilliseconds (s : Statistics) : Float :=
  PassReport.milliseconds s.durations.max

end Statistics

end CodeLayout
