import CodeLayout.Size

/-!
# Histograms

Values are counted by their bit length, so a bucket `b` above zero holds the
values from `2 ^ (b - 1)` up to `2 ^ b - 1` and bucket zero holds zero.  A
quantile is only known up to its bucket.
-/

namespace CodeLayout

/-- Counts by bit length, with the sum (of a word's width) and the maximum. -/
structure Histogram where
  /-- Entry `b` counts the values of `b` bits. -/
  buckets : List Nat
  count : Nat
  sum : Nat
  max : Nat
deriving DecidableEq, Repr, Inhabited

namespace Histogram

/-- Bits of a word. -/
def wordBits : Nat := 64

def empty : Histogram where
  buckets := List.replicate (wordBits + 1) 0
  count := 0
  sum := 0
  max := 0

/-- Number of bits of a value. -/
def bucketOf (value : Nat) : Nat :=
  if value = 0 then 0 else value.log2 + 1

/-- The largest value of a bucket. -/
def limitOf (bucket : Nat) : Nat :=
  1 <<< bucket - 1

def record (h : Histogram) (value : Nat) : Histogram where
  buckets := h.buckets.modify (bucketOf value) (· + 1)
  count := h.count + 1
  sum := (h.sum + value) % Size.wordLimit
  max := Nat.max h.max value

/-- The first bucket, from `bucket` on, at which the running count reaches a
rank. -/
def bucketAt? (rank : Nat) : List Nat → Nat → Nat → Option Nat
  | [], _, _ => none
  | n :: rest, bucket, below =>
    if n ≠ 0 ∧ rank ≤ below + n then some bucket else bucketAt? rank rest (bucket + 1) (below + n)

/-- The limit of the bucket of the value at a rank, counted from one; the
maximum if there are not so many values. -/
def atRank (h : Histogram) (rank : Nat) : Nat :=
  if h.count = 0 then 0
  else match bucketAt? rank h.buckets 0 0 with
    | some bucket => limitOf bucket
    | none => h.max

/-- The rank of a quantile: the share of the count rounded up, at least one.
A negative share, and one that is not a number, counts as zero. -/
def rankOf (h : Histogram) (share : Float) : Nat :=
  Nat.max (Float.ofNat h.count * share).ceil.toUInt64.toNat 1

/-- Upper bound of the value at a quantile. -/
def quantile (h : Histogram) (share : Float) : Nat :=
  h.atRank (h.rankOf share)

/-- The sum divided by the count, rounded down. -/
def mean (h : Histogram) : Nat :=
  h.sum / h.count

end Histogram

end CodeLayout
