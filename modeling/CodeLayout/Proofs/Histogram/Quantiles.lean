import CodeLayout.Histogram
import Mathlib.Algebra.Ring.Nat
import Mathlib.Data.List.DropRight
import Mathlib.Data.List.Sort
import Mathlib.Order.Bounds.Basic

/-!
# Quantiles of recorded values

Values are recorded one after the other, and sometimes all of them are forgotten.  A histogram
keeps how many values each bucket has, and this is enough to find the bucket of the value at any
rank: it is the first one up to which there are as many values as the rank says.  So a quantile
is never below the value at its rank, and less than twice as large.
-/

namespace CodeLayout.Histogram

variable {h : Histogram} {values counts : List Nat} {v rank : Nat}

/-- What happens to a histogram. -/
inductive Input where
  | record (value : UInt64)
  | clear
deriving DecidableEq, Repr

def Input.value? : Input → Option Nat
  | record value => some value.toNat
  | clear => none

def take (h : Histogram) : Input → Histogram
  | .record value => h.record value.toNat
  | .clear => empty

/-- A histogram after some inputs. -/
def takeAll (h : Histogram) (inputs : List Input) : Histogram :=
  inputs.foldl take h

/-- The values behind the last clearing. -/
def recorded (inputs : List Input) : List Nat :=
  (inputs.rtakeWhile (· ≠ .clear)).filterMap Input.value?

/-- The value at a rank, counted from one, when values are put in order. -/
def smallest? (values : List Nat) (rank : Nat) : Option Nat :=
  (values.mergeSort (· ≤ ·))[rank - 1]?

/-- A quantile is as good as its bucket allows. -/
structure Brackets (value quantile : Nat) : Prop where
  zero : value = 0 → quantile = 0
  atLeast : value ≤ quantile
  atMost : 0 < value → quantile ≤ 2 * value - 1
  /-- It is the largest number of some bits. -/
  form : ∃ bits ≤ wordBits, quantile = 2 ^ bits - 1

/-- What a histogram tells of values. -/
structure Summarises (h : Histogram) (values : List Nat) : Prop where
  count : h.count = values.length
  max : values ≠ [] → IsGreatest {v | v ∈ values} h.max
  mean : h.mean = values.sum % Size.wordLimit / values.length
  /-- The share only matters for its rank, which is at least one. -/
  quantile : ∀ share, h.quantile share = h.atRank (h.rankOf share) ∧ 1 ≤ h.rankOf share
  ranked : ∀ rank, 1 ≤ rank → rank ≤ values.length →
    ∃ v, smallest? values rank = some v ∧ Brackets v (h.atRank rank)
  beyond : ∀ rank, values.length < rank → h.atRank rank = h.max
  nothing : values = [] → h.max = 0 ∧ ∀ rank, h.atRank rank = 0

/-! ## Buckets -/

theorem bucketOf_le_iff {bucket : Nat} : bucketOf v ≤ bucket ↔ v < 2 ^ bucket := by
  rw [bucketOf]
  split
  · rename_i zero
    rw [zero]
    exact iff_of_true (Nat.zero_le _) (Nat.two_pow_pos bucket)
  · rename_i nonzero
    exact Nat.log2_lt nonzero

/-- The limit of the bucket of a value brackets the value. -/
theorem brackets_limitOf (within : v < Size.wordLimit) : Brackets v (limitOf (bucketOf v)) := by
  have limit (bucket : Nat) : limitOf bucket = 2 ^ bucket - 1 := by rw [limitOf, Nat.one_shiftLeft]
  refine ⟨?_, ?_, ?_, bucketOf v, bucketOf_le_iff.mpr within, limit _⟩
  · rintro rfl
    rfl
  · rw [limit]
    exact Nat.le_sub_one_of_lt (bucketOf_le_iff.mp (Nat.le_refl _))
  · intro positive
    have nonzero : v ≠ 0 := Nat.ne_of_gt positive
    have lower := Nat.log2_self_le nonzero
    rw [limit, bucketOf, if_neg nonzero, Nat.pow_succ]
    omega

/-! ## Looking for a rank -/

/-- The look stops at the bucket with which the running count reaches the rank. -/
theorem bucketAt?_eq_some {first below i : Nat} (isBucket : i < counts.length)
    (before : below + (counts.take i).sum < rank)
    (reached : rank ≤ below + (counts.take (i + 1)).sum) :
    bucketAt? rank counts first below = some (first + i) := by
  induction counts generalizing first below i with
  | nil => contradiction
  | cons n rest inductionHypothesis =>
      rw [bucketAt?]
      cases i with
      | zero =>
          simp only [List.take_zero, List.sum_nil, List.take_succ_cons, List.sum_cons]
            at before reached
          rw [if_pos (by omega), Nat.add_zero]
      | succ i =>
          simp only [List.take_succ_cons, List.sum_cons] at before reached
          rw [if_neg (by omega), inductionHypothesis (Nat.lt_of_succ_lt_succ isBucket) (by omega)
            (by omega), Nat.add_assoc, Nat.add_comm 1 i]

theorem bucketAt?_eq_none {first below : Nat} (beyond : below + counts.sum < rank) :
    bucketAt? rank counts first below = none := by
  induction counts generalizing first below with
  | nil => rfl
  | cons n rest inductionHypothesis =>
      rw [List.sum_cons] at beyond
      rw [bucketAt?, if_neg (by omega), inductionHypothesis (by omega)]

theorem countP_bucketOf_lt_succ (values : List Nat) (b : Nat) :
    values.countP (bucketOf · < b + 1) =
      values.countP (bucketOf · < b) + values.countP (bucketOf · = b) := by
  induction values with
  | nil => rfl
  | cons v rest inductionHypothesis =>
      simp only [List.countP_cons, decide_eq_true_eq, inductionHypothesis]
      split <;> split <;> split <;> omega

/-- The first buckets have the values of fewer bits. -/
theorem sum_countP_bucketOf (values : List Nat) (buckets : Nat) :
    ((List.range buckets).map fun b => values.countP (bucketOf · = b)).sum =
      values.countP (bucketOf · < buckets) := by
  induction buckets with
  | zero => simp
  | succ b inductionHypothesis =>
      rw [List.range_succ, List.map_append, List.sum_append, inductionHypothesis,
        List.map_singleton, List.sum_singleton, countP_bucketOf_lt_succ]

/-! ## Sorted values -/

/-- In an ascending list the values up to a bound are those in front. -/
theorem lt_countP_iff {bound : Nat} (sorted : values.Pairwise (· ≤ ·)) {i : Nat}
    (found : values[i]? = some v) : i < values.countP (· ≤ bound) ↔ v ≤ bound := by
  induction values generalizing i with
  | nil => contradiction
  | cons first rest inductionHypothesis =>
      rw [List.pairwise_cons] at sorted
      by_cases small : first ≤ bound
      · rw [List.countP_cons_of_pos (by simpa using small)]
        cases i with
        | zero =>
            cases found
            exact iff_of_true (Nat.succ_pos _) small
        | succ i =>
            rw [← inductionHypothesis sorted.2 found]
            exact Nat.succ_lt_succ_iff
      · have none : (first :: rest).countP (· ≤ bound) = 0 := by
          rw [List.countP_eq_zero]
          intro w member
          have above : first ≤ w := by
            rcases List.mem_cons.mp member with rfl | later
            · exact Nat.le_refl _
            · exact sorted.1 w later
          simpa using Nat.lt_of_lt_of_le (Nat.lt_of_not_le small) above
        have above : first ≤ v := by
          rcases List.mem_cons.mp (List.mem_of_getElem? found) with rfl | later
          · exact Nat.le_refl _
          · exact sorted.1 v later
        rw [none]
        exact iff_of_false (Nat.not_lt_zero _)
          (Nat.not_le_of_lt (Nat.lt_of_lt_of_le (Nat.lt_of_not_le small) above))

theorem exists_smallest (positive : 1 ≤ rank) (within : rank ≤ values.length) :
    ∃ v ∈ values, smallest? values rank = some v := by
  have inside : rank - 1 < (values.mergeSort (· ≤ ·)).length := by
    rw [List.length_mergeSort]
    omega
  refine ⟨_, ?_, List.getElem?_eq_getElem inside⟩
  exact List.mem_mergeSort.mp (List.getElem_mem inside)

/-- As many values as the rank says are at most the value at the rank, and no smaller bound
has so many. -/
theorem rank_le_countP_iff {bound : Nat} (positive : 1 ≤ rank)
    (found : smallest? values rank = some v) :
    rank ≤ values.countP (· ≤ bound) ↔ v ≤ bound := by
  have sorted : (values.mergeSort (· ≤ ·)).Pairwise (· ≤ ·) := List.pairwise_mergeSort' _ values
  rw [← lt_countP_iff sorted found, (List.mergeSort_perm values _).countP_eq]
  omega

/-! ## What a histogram keeps -/

/-- A histogram is made of exactly these values. -/
structure Holds (h : Histogram) (values : List Nat) : Prop where
  words : ∀ v ∈ values, v < Size.wordLimit
  buckets : h.buckets =
    (List.range (wordBits + 1)).map fun b => values.countP (bucketOf · = b)
  count : h.count = values.length
  sum : h.sum = values.sum % Size.wordLimit
  atMost : ∀ v ∈ values, v ≤ h.max
  attained : h.max ∈ values ∨ values = [] ∧ h.max = 0

namespace Holds

theorem empty : Histogram.empty.Holds [] where
  words := by simp
  buckets := rfl
  count := rfl
  sum := rfl
  atMost := by simp
  attained := Or.inr ⟨rfl, rfl⟩

theorem record (holds : h.Holds values) (value : UInt64) :
    (h.record value.toNat).Holds (values ++ [value.toNat]) where
  words := List.forall_mem_append.mpr
    ⟨holds.words, List.forall_mem_singleton.mpr value.toNat_lt⟩
  buckets := by
    rw [Histogram.record, holds.buckets]
    apply List.ext_getElem?
    intro b
    rw [List.getElem?_modify]
    simp only [List.getElem?_map, List.countP_append, List.countP_singleton]
    cases isBucket : (List.range (wordBits + 1))[b]? with
    | none => rfl
    | some bucket =>
        rcases List.getElem?_eq_some_iff.mp isBucket with ⟨_, rfl⟩
        simp only [List.getElem_range, decide_eq_true_eq, Option.map_some, Option.map_eq_map]
        split <;> rfl
  count := by rw [Histogram.record, holds.count, List.length_append, List.length_singleton]
  sum := by
    rw [Histogram.record, holds.sum, List.sum_append, List.sum_singleton, Nat.mod_add_mod]
  atMost := by
    refine List.forall_mem_append.mpr ⟨fun v member => ?_, List.forall_mem_singleton.mpr ?_⟩
    · exact Nat.le_trans (holds.atMost v member) (Nat.le_max_left _ _)
    · exact Nat.le_max_right _ _
  attained := by
    left
    rcases Nat.le_total h.max value.toNat with larger | smaller
    · have isMax : (h.record value.toNat).max = value.toNat := Nat.max_eq_right larger
      rw [isMax]
      exact List.mem_append_right _ (List.mem_singleton_self _)
    · have isMax : (h.record value.toNat).max = h.max := Nat.max_eq_left smaller
      rw [isMax]
      rcases holds.attained with old | ⟨_, none⟩
      · exact List.mem_append_left _ old
      · have zero : h.max = value.toNat := by omega
        exact List.mem_append_right _ (List.mem_singleton.mpr zero)

theorem takeAll (inputs : List Input) :
    (Histogram.empty.takeAll inputs).Holds (recorded inputs) := by
  induction inputs using List.reverseRecOn with
  | nil => exact empty
  | append_singleton inputs input inductionHypothesis =>
      have last : Histogram.empty.takeAll (inputs ++ [input]) =
          (Histogram.empty.takeAll inputs).take input := List.foldl_concat ..
      rw [last, recorded]
      cases input with
      | record value =>
          rw [List.rtakeWhile_concat_pos _ _ _ (by simp), List.filterMap_append]
          exact inductionHypothesis.record value
      | clear =>
          rw [List.rtakeWhile_concat_neg _ _ _ (by decide)]
          exact empty

theorem sum_take (holds : h.Holds values) {i : Nat} (within : i ≤ wordBits + 1) :
    (h.buckets.take i).sum = values.countP (bucketOf · < i) := by
  rw [holds.buckets, ← List.map_take, List.take_range, Nat.min_eq_left within,
    sum_countP_bucketOf]

/-- The look for a rank ends at the bucket of the value at the rank. -/
theorem bucketAt?_eq (holds : h.Holds values) (positive : 1 ≤ rank)
    (found : smallest? values rank = some v) (member : v ∈ values) :
    bucketAt? rank h.buckets 0 0 = some (bucketOf v) := by
  have length : h.buckets.length = wordBits + 1 := by
    rw [holds.buckets, List.length_map, List.length_range]
  have isBucket : bucketOf v ≤ wordBits := bucketOf_le_iff.mpr (holds.words v member)
  -- The value is at most the limit of its bucket, but above those of the buckets before it.
  have upTo (b : Nat) : values.countP (bucketOf · < b + 1) = values.countP (· ≤ 2 ^ b - 1) := by
    apply List.countP_congr
    intro w _
    have some := Nat.two_pow_pos b
    have below : bucketOf w ≤ b ↔ w < 2 ^ b := bucketOf_le_iff
    simp only [decide_eq_true_eq]
    omega
  have before : 0 + (h.buckets.take (bucketOf v)).sum < rank := by
    rw [Nat.zero_add, holds.sum_take (Nat.le_succ_of_le isBucket)]
    cases equal : bucketOf v with
    | zero => simpa using Nat.lt_of_succ_le positive
    | succ b =>
        have large : ¬ bucketOf v ≤ b := by omega
        rw [bucketOf_le_iff] at large
        have some := Nat.two_pow_pos b
        rw [upTo, ← Nat.not_le, rank_le_countP_iff positive found]
        omega
  have reached : rank ≤ 0 + (h.buckets.take (bucketOf v + 1)).sum := by
    have small := bucketOf_le_iff.mp (Nat.le_refl (bucketOf v))
    rw [Nat.zero_add, holds.sum_take (Nat.succ_le_succ isBucket), upTo,
      rank_le_countP_iff positive found]
    omega
  rw [bucketAt?_eq_some (length ▸ Nat.lt_succ_of_le isBucket) before reached, Nat.zero_add]

theorem atRank_of_ranked (holds : h.Holds values) (positive : 1 ≤ rank)
    (within : rank ≤ values.length) :
    ∃ v, smallest? values rank = some v ∧ Brackets v (h.atRank rank) := by
  rcases exists_smallest positive within with ⟨v, member, found⟩
  have some : h.count ≠ 0 := by
    rw [holds.count]
    omega
  refine ⟨v, found, ?_⟩
  rw [atRank, if_neg some, holds.bucketAt?_eq positive found member]
  exact brackets_limitOf (holds.words v member)

theorem atRank_of_beyond (holds : h.Holds values) (beyond : values.length < rank) :
    h.atRank rank = h.max := by
  rw [atRank]
  split
  · rename_i none
    rw [holds.count, List.length_eq_zero_iff] at none
    rcases holds.attained with attained | ⟨_, zero⟩
    · rw [none] at attained
      contradiction
    · exact zero.symm
  · have total : 0 + h.buckets.sum < rank := by
      have all := holds.sum_take (Nat.le_refl (wordBits + 1))
      have length : h.buckets.length = wordBits + 1 := by
        rw [holds.buckets, List.length_map, List.length_range]
      rw [← length, List.take_length] at all
      rw [Nat.zero_add, all]
      exact Nat.lt_of_le_of_lt List.countP_le_length beyond
    rw [bucketAt?_eq_none total]

theorem summarises (holds : h.Holds values) : h.Summarises values where
  count := holds.count
  max nonempty := by
    rcases holds.attained with attained | ⟨none, _⟩
    · exact ⟨attained, holds.atMost⟩
    · exact absurd none nonempty
  mean := by rw [mean, holds.sum, holds.count]
  quantile share := ⟨rfl, Nat.le_max_right _ _⟩
  ranked _ := holds.atRank_of_ranked
  beyond _ := holds.atRank_of_beyond
  nothing none := by
    have zero : h.max = 0 := by
      rcases holds.attained with attained | ⟨_, zero⟩
      · rw [none] at attained
        contradiction
      · exact zero
    refine ⟨zero, fun rank => ?_⟩
    rw [atRank, if_pos (by rw [holds.count, none]; rfl)]

end Holds

/-- However values are recorded and forgotten, a histogram tells of those that were recorded
since they were last forgotten. -/
theorem summarises_takeAll (inputs : List Input) :
    (empty.takeAll inputs).Summarises (recorded inputs) :=
  (Holds.takeAll inputs).summarises

end CodeLayout.Histogram
