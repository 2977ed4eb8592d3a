import CodeLayout.Method

/-!
# Hotness

Samples are counted by method.  The ranking puts the most sampled method
first; of equally sampled ones the one compiled last comes first, and methods
that were never compiled keep the order in which they were first seen.  A
method without samples has no rank.
-/

namespace CodeLayout

/-- What is known about the use of one method. -/
structure Hotness.Profile where
  method : Method
  samples : UInt64
  /-- Number of the last compilation; zero before the first one. -/
  compiled : Nat
deriving DecidableEq, Repr

/-- Profiles in the order in which they were created, and the number of
compilations so far. -/
structure Hotness where
  profiles : List Hotness.Profile
  compilations : Nat
deriving DecidableEq, Repr, Inhabited

namespace Hotness

def empty : Hotness := ⟨[], 0⟩

/-- Change the profile of a method; a new one is created if there is none. -/
def update (change : Profile → Profile) (m : Method) : List Profile → List Profile
  | [] => [change ⟨m, 0, 0⟩]
  | p :: rest => if p.method = m then change p :: rest else p :: update change m rest

/-- Samples of a method so far. -/
def samplesOf (h : Hotness) (m : Method) : UInt64 :=
  ((h.profiles.find? fun p => p.method = m).map Profile.samples).getD 0

/-- Count samples of a method. -/
def sample (h : Hotness) (m : Method) (samples : UInt64) : Hotness :=
  { h with profiles := update (fun p => { p with samples := p.samples + samples }) m h.profiles }

/-- Note that a method was compiled. -/
def compile (h : Hotness) (m : Method) : Hotness where
  profiles := update (fun p => { p with compiled := h.compilations + 1 }) m h.profiles
  compilations := h.compilations + 1

/-- Forget a method. -/
def forget (h : Hotness) (m : Method) : Hotness :=
  { h with profiles := h.profiles.filter fun p => p.method ≠ m }

/-- Set all sample counts to zero. -/
def reset (h : Hotness) : Hotness :=
  { h with profiles := h.profiles.map fun p => { p with samples := 0 } }

/-- `p` may stand before `q` in the ranking. -/
def Profile.before (p q : Profile) : Bool :=
  if p.samples = q.samples then decide (q.compiled ≤ p.compiled) else decide (q.samples < p.samples)

/-- Sampled methods, hottest first. -/
def ranking (h : Hotness) : List Method :=
  ((h.profiles.filter fun p => p.samples ≠ 0).mergeSort Profile.before).map Profile.method

end Hotness

end CodeLayout
