import CodeLayout.Text.Digits

/-!
# Sizes

Byte counts and addresses are natural numbers; those a user can give are
below `wordLimit`.  Rounding masks the low bits of a word away: the mask of an
alignment is its two's complement `wordLimit - alignment`, whose low bits are
zero exactly when the alignment is a power of two.

Three granules occur: code inside a heap is padded to `segment`, heaps carved
out of another heap are multiples of `heapAlignment`, and memory is reserved
in whole pages, whose size is that of the machine.
-/

namespace CodeLayout.Size

def kib : Nat := 1024
def mib : Nat := 1024 * kib
def gib : Nat := 1024 * mib

/-- One more than the largest 64-bit number. -/
def wordLimit : Nat := 1 <<< 64

/-- The largest value a size option or a listed code length may have. -/
def largest : Nat := 1 <<< 63 - 1

/-- Allocation granule inside a code heap. -/
def segment : Nat := 64

/-- Alignment of heaps carved out of another heap. -/
def heapAlignment : Nat := 64 * kib

/-- Round down to a power-of-two alignment. -/
def alignDown (value alignment : Nat) : Nat :=
  value &&& (wordLimit - alignment)

/-- Round up to a power-of-two alignment, within a word. -/
def alignUp (value alignment : Nat) : Nat :=
  alignDown ((value + alignment - 1) % wordLimit) alignment

/-- Bytes that code of the given length occupies in a code heap. -/
def padded (length : Nat) : Nat :=
  alignUp (max length 1) segment

/-- A length rounded up to whole pages. -/
def wholePages (pageSize length : Nat) : Nat :=
  alignUp length pageSize

/-- The factor that a unit letter stands for. -/
def unit? : Char → Option Nat
  | 'k' | 'K' => some kib
  | 'm' | 'M' => some mib
  | 'g' | 'G' => some gib
  | _ => none

/-- Split off a unit letter at the end; without one the factor is one. -/
def splitUnit (chars : List Char) : List Char × Nat :=
  match chars.getLast?.bind unit? with
  | some factor => (chars.dropLast, factor)
  | none => (chars, 1)

/-- Read a size: digits, then at most one unit letter.  Sizes above `largest`
are refused. -/
def parse? (text : String) : Option Nat :=
  let (digits, factor) := splitUnit text.toList
  (Digits.parse? digits).bind fun count =>
    if count * factor ≤ largest then some (count * factor) else none

end CodeLayout.Size
