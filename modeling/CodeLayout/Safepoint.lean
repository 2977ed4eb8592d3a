import CodeLayout.Size

/-!
# Safepoints

Code is only moved while every registered thread is parked.  A safepoint is
requested, reached when all registered threads have arrived, and released.
Releasing starts a new epoch.

Arrivals are counted in one word: the high half is the tag of the epoch that
the count belongs to, the low half is the count.  A thread that arrives for an
epoch that is over finds another tag and is not counted.
-/

namespace CodeLayout

/-- How far a safepoint has come. -/
inductive Safepoint.Phase where
  | none
  | requested
  | reached
deriving DecidableEq, Repr, Inhabited

/-- The state shared by the thread that moves code and the threads that run
it. -/
structure Safepoint where
  phase : Safepoint.Phase
  /-- Tag and count of the arrivals in one word. -/
  arrivals : Nat
  registered : UInt64
  epoch : Nat
deriving DecidableEq, Repr

namespace Safepoint

/-- Number of different counts, and of different tags. -/
def halfWord : Nat := 1 <<< 32

/-- The number that stands for the phase. -/
def Phase.id : Phase → Nat
  | none => 0
  | requested => 1
  | reached => 2

/-- The tag of an epoch. -/
def tag (epoch : Nat) : Nat :=
  epoch % halfWord

/-- The word of an epoch for which nobody has arrived. -/
def noArrivals (epoch : Nat) : Nat :=
  tag epoch * halfWord

def initial : Safepoint where
  phase := .none
  arrivals := noArrivals 0
  registered := 0
  epoch := 0

instance : Inhabited Safepoint := ⟨initial⟩

/-- A thread will take part from now on. -/
def register (s : Safepoint) : Safepoint :=
  { s with registered := s.registered + 1 }

/-- A thread takes part no longer. -/
def deregister (s : Safepoint) : Safepoint :=
  { s with registered := s.registered - 1 }

/-- Ask all threads to park. -/
def request (s : Safepoint) : Safepoint :=
  { s with phase := .requested }

/-- Threads counted as parked in the current epoch. -/
def paused (s : Safepoint) : Nat :=
  if s.arrivals / halfWord = tag s.epoch then s.arrivals % halfWord else 0

/-- Every registered thread is parked. -/
def allArrived (s : Safepoint) : Bool :=
  decide (s.registered.toNat ≤ s.paused)

/-- The end of waiting: all threads were seen to have arrived. -/
def reach (s : Safepoint) : Safepoint :=
  { s with phase := .reached }

/-- Wait until all threads have arrived; `none` if some have not. -/
def wait? (s : Safepoint) : Option Safepoint :=
  if s.allArrived then some s.reach else none

/-- The first store of a release. -/
def advanceEpoch (s : Safepoint) : Safepoint :=
  { s with epoch := s.epoch + 1 }

/-- The second store of a release. -/
def clearPhase (s : Safepoint) : Safepoint :=
  { s with phase := .none }

/-- The third store of a release. -/
def resetArrivals (s : Safepoint) : Safepoint :=
  { s with arrivals := noArrivals s.epoch }

/-- Let all threads go on. -/
def release (s : Safepoint) : Safepoint :=
  s.advanceEpoch.clearPhase.resetArrivals

/-- A thread arrives for an epoch; the answer tells whether it was counted. -/
def arrive (s : Safepoint) (epoch : Nat) : Bool × Safepoint :=
  if s.arrivals / halfWord = tag epoch then
    (true, { s with arrivals := (s.arrivals + 1) % Size.wordLimit })
  else (false, s)

/-- A thread passes by; the answer tells whether it parks. -/
def poll (s : Safepoint) : Bool × Safepoint :=
  if s.phase = .none then (false, s) else s.arrive s.epoch

/-- Request a safepoint and wait for it; `none` if some thread has not
arrived. -/
def synchronize? (s : Safepoint) : Option Safepoint :=
  s.request.wait?

/-- Request a safepoint and wait as long as it takes for all threads to
arrive. -/
def synchronize (s : Safepoint) : Safepoint :=
  s.request.reach

/-- Some safepoint is asked for. -/
def isRequested (s : Safepoint) : Bool :=
  s.phase ≠ .none

/-- Code may be moved. -/
def isReached (s : Safepoint) : Bool :=
  s.phase = .reached

end Safepoint

end CodeLayout
