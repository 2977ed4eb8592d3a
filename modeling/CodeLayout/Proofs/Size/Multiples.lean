import CodeLayout.Proofs.Size.Rounding
import Mathlib.Order.Bounds.Basic

/-!
# Rounding to multiples

Masking rounds a word down to the largest multiple of a power of two that is not above it,
and up to the least one that is not below it; where that one is no word, zero is left.
Padded lengths and whole pages are such multiples.  The library computes the masks on natural
numbers; the operations of words, which wrap around, come to the same.
-/

namespace CodeLayout.Size

variable {value alignment length : Nat}

/-! ## The operations of words -/

/-- Round a word down: all its bits below those of the alignment are masked away. -/
def maskDown (value alignment : UInt64) : UInt64 :=
  value &&& ~~~(alignment - 1)

/-- Round a word up.  A sum that wraps around to zero wraps back when one is taken off. -/
def maskUp (value alignment : UInt64) : UInt64 :=
  maskDown (value + alignment - 1) alignment

theorem toNat_maskDown (value : UInt64) {alignment : UInt64} (positive : 0 < alignment.toNat) :
    (maskDown value alignment).toNat = alignDown value.toNat alignment.toNat := by
  have low : (alignment - 1).toNat = alignment.toNat - 1 :=
    UInt64.toNat_sub_of_le alignment 1 (UInt64.le_iff_toNat_le.mpr positive)
  have mask : UInt64.size - 1 - (alignment.toNat - 1) = wordLimit - alignment.toNat := by
    have words : UInt64.size = wordLimit := rfl
    omega
  rw [maskDown, UInt64.toNat_and, UInt64.toNat_not, low, alignDown, ← mask]

theorem toNat_maskUp (value : UInt64) {alignment : UInt64} (positive : 0 < alignment.toNat) :
    (maskUp value alignment).toNat = alignUp value.toNat alignment.toNat := by
  have raised : (value + alignment - 1).toNat =
      (value.toNat + alignment.toNat - 1) % wordLimit := by
    rw [UInt64.toNat_sub, UInt64.toNat_add, wordLimit, Nat.one_shiftLeft]
    have one : (1 : UInt64).toNat = 1 := rfl
    omega
  rw [maskUp, toNat_maskDown _ positive, raised, alignUp]

/-! ## Multiples of the alignment -/

theorem isGreatest_alignDown (isPower : alignment.isPowerOfTwo) (fits : alignment ≤ wordLimit)
    (word : value < wordLimit) :
    IsGreatest {multiple | alignment ∣ multiple ∧ multiple ≤ value}
      (alignDown value alignment) := by
  have positive : 0 < alignment := Nat.pos_of_isPowerOfTwo isPower
  rw [alignDown_eq isPower fits word]
  constructor
  · exact ⟨Nat.dvd_mul_left _ _, Nat.div_mul_le_self _ _⟩
  · rintro multiple ⟨⟨count, rfl⟩, below⟩
    have within : count ≤ value / alignment :=
      (Nat.le_div_iff_mul_le positive).mpr (Nat.mul_comm alignment count ▸ below)
    rw [Nat.mul_comm alignment count]
    exact Nat.mul_le_mul_right alignment within

theorem isLeast_alignUp (isPower : alignment.isPowerOfTwo) (fits : alignment ≤ wordLimit)
    (word : value + alignment - 1 < wordLimit) :
    IsLeast {multiple | alignment ∣ multiple ∧ value ≤ multiple} (alignUp value alignment) := by
  have positive : 0 < alignment := Nat.pos_of_isPowerOfTwo isPower
  rw [alignUp_eq isPower fits word]
  constructor
  · have divided := Nat.div_add_mod' (value + alignment - 1) alignment
    have remainder := Nat.mod_lt (value + alignment - 1) positive
    exact ⟨Nat.dvd_mul_left _ _, by omega⟩
  · rintro multiple ⟨⟨count, rfl⟩, above⟩
    have within : (value + alignment - 1) / alignment < count + 1 := by
      rw [Nat.div_lt_iff_lt_mul positive, Nat.succ_mul, Nat.mul_comm count alignment]
      omega
    rw [Nat.mul_comm alignment count]
    exact Nat.mul_le_mul_right alignment (Nat.le_of_lt_succ within)

/-! ## Padded lengths -/

/-- A padded length is the least positive number of whole segments that holds the length. -/
theorem isLeast_padded (short : length + segment ≤ wordLimit) :
    IsLeast {multiple | 0 < multiple ∧ segment ∣ multiple ∧ length ≤ multiple}
      (padded length) := by
  have least := isLeast_alignUp ⟨6, rfl⟩ (by decide) (raised_lt_wordLimit short)
  constructor
  · exact ⟨padded_pos short, least.1.1, le_padded short⟩
  · rintro multiple ⟨positive, whole, holds⟩
    exact least.2 ⟨whole, Nat.max_le.mpr ⟨holds, positive⟩⟩

/-- The last whole segment of the words holds every length whose padding is a word. -/
theorem padded_short (short : length + segment ≤ wordLimit) :
    padded length + segment ≤ wordLimit := by
  have within : length ≤ wordLimit - segment := Nat.le_sub_of_add_le short
  have least : padded length ≤ wordLimit - segment :=
    (isLeast_padded short).2 ⟨by decide, by decide, within⟩
  exact Nat.add_le_of_le_sub (by decide) least

/-- Padding a padded length changes nothing. -/
theorem padded_padded (short : length + segment ≤ wordLimit) :
    padded (padded length) = padded length := by
  have kept : IsLeast {multiple | 0 < multiple ∧ segment ∣ multiple ∧ padded length ≤ multiple}
      (padded length) :=
    ⟨⟨padded_pos short, segment_dvd_padded length, Nat.le_refl _⟩, fun _ above => above.2.2⟩
  exact (isLeast_padded (padded_short short)).unique kept

/-! ## Exact rounding -/

/-- How a word is rounded to a power of two: exactly, except where the multiple above it is
no word. -/
structure Rounds (value alignment : Nat) : Prop where
  down : IsGreatest {multiple | alignment ∣ multiple ∧ multiple ≤ value}
    (alignDown value alignment)
  up : value + alignment - 1 < wordLimit →
    IsLeast {multiple | alignment ∣ multiple ∧ value ≤ multiple} (alignUp value alignment)
  beyond : wordLimit ≤ value + alignment - 1 → alignUp value alignment = 0
  masksDown : (maskDown (.ofNat value) (.ofNat alignment)).toNat = alignDown value alignment
  masksUp : (maskUp (.ofNat value) (.ofNat alignment)).toNat = alignUp value alignment

/-- How a length is padded: to the least number of whole segments that holds it, the same
for its padded length, and to no more than a longer one. -/
structure Pads (length : Nat) : Prop where
  least : IsLeast {multiple | 0 < multiple ∧ segment ∣ multiple ∧ length ≤ multiple}
    (padded length)
  again : padded (padded length) = padded length
  monotone {bound : Nat} (within : length ≤ bound) (short : bound + segment ≤ wordLimit) :
    padded length ≤ padded bound

theorem rounds_of_isPowerOfTwo (isPower : alignment.isPowerOfTwo) (fits : alignment < wordLimit)
    (word : value < wordLimit) : Rounds value alignment := by
  have valueWord : (UInt64.ofNat value).toNat = value := UInt64.toNat_ofNat_of_lt' word
  have alignmentWord : (UInt64.ofNat alignment).toNat = alignment :=
    UInt64.toNat_ofNat_of_lt' fits
  have positive : 0 < (UInt64.ofNat alignment).toNat :=
    alignmentWord.symm ▸ Nat.pos_of_isPowerOfTwo isPower
  exact {
    down := isGreatest_alignDown isPower (Nat.le_of_lt fits) word
    up := isLeast_alignUp isPower (Nat.le_of_lt fits)
    beyond := alignUp_of_beyond isPower (Nat.le_of_lt fits) word
    masksDown := by rw [toNat_maskDown _ positive, valueWord, alignmentWord]
    masksUp := by rw [toNat_maskUp _ positive, valueWord, alignmentWord] }

theorem pads_of_short (short : length + segment ≤ wordLimit) : Pads length where
  least := isLeast_padded short
  again := padded_padded short
  monotone := padded_le_padded

/-- Rounding a word to a power of two is exact, and so are the padding of lengths and the
rounding to whole pages that it gives. -/
theorem rounding_exact :
    (∀ value alignment, value < wordLimit → alignment < wordLimit → alignment.isPowerOfTwo →
      Rounds value alignment) ∧
    (∀ length, length + segment ≤ wordLimit → Pads length) ∧
    ∀ pageSize length, pageSize.isPowerOfTwo → length + pageSize ≤ wordLimit →
      IsLeast {multiple | pageSize ∣ multiple ∧ length ≤ multiple}
        (wholePages pageSize length) := by
  refine ⟨fun value alignment word fits isPower => rounds_of_isPowerOfTwo isPower fits word,
    fun length => pads_of_short, fun pageSize length isPower short => ?_⟩
  have positive := Nat.pos_of_isPowerOfTwo isPower
  exact isLeast_alignUp isPower (by omega) (by omega)

/-- The last whole segment of the words is rounded to itself, though all of its sum with the
alignment is no word; above it nothing is left. -/
theorem rounding_exact_at_limit :
    (wordLimit - segment < wordLimit ∧ wordLimit - 1 < wordLimit ∧ segment < wordLimit ∧
      segment.isPowerOfTwo ∧ wordLimit - segment + segment ≤ wordLimit ∧
      Nat.isPowerOfTwo 4096 ∧ wordLimit - 4096 + 4096 ≤ wordLimit) ∧
    Rounds (wordLimit - segment) segment ∧
      alignUp (wordLimit - segment) segment = wordLimit - segment ∧
    Rounds (wordLimit - 1) segment ∧ alignUp (wordLimit - 1) segment = 0 ∧
    Pads (wordLimit - segment) ∧
      wholePages 4096 (wordLimit - 4096) = wordLimit - 4096 := by
  have isPower : segment.isPowerOfTwo := ⟨6, rfl⟩
  have last := rounding_exact.1 (wordLimit - segment) segment (by decide) (by decide) isPower
  have above := rounding_exact.1 (wordLimit - 1) segment (by decide) (by decide) isPower
  have padded := rounding_exact.2.1 (wordLimit - segment) (by decide)
  have pages := rounding_exact.2.2 4096 (wordLimit - 4096) ⟨12, rfl⟩ (by decide)
  refine ⟨⟨by decide, by decide, by decide, isPower, by decide, ⟨12, rfl⟩, by decide⟩, last, ?_,
    above, above.beyond (by decide), padded, ?_⟩
  · exact (last.up (by decide)).unique ⟨⟨by decide, Nat.le_refl _⟩, fun _ holds => holds.2⟩
  · exact pages.unique ⟨⟨by decide, Nat.le_refl _⟩, fun _ holds => holds.2⟩

end CodeLayout.Size
