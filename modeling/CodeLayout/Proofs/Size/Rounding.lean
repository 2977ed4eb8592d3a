import CodeLayout.Size

/-!
# Rounding

The mask of a power of two rounds down to a multiple of it.  What the mask does is said
once, for every power of two, by a division; padding, rounding to pages and whole granules of
heaps are cases of it, for lengths whose rounding does not leave the word.
-/

namespace CodeLayout.Size

/-- The mask of an alignment keeps its bit and the ones above it, up to the end
of the word. -/
theorem testBit_mask {k : Nat} (fits : k ≤ 64) (i : Nat) :
    (wordLimit - 1 <<< k).testBit i = (decide (k ≤ i) && decide (i < 64)) := by
  have product : wordLimit - 1 <<< k = (2 ^ (64 - k) - 1) * 2 ^ k := by
    rw [Nat.one_shiftLeft, Nat.sub_mul, Nat.one_mul, ← Nat.pow_add, Nat.sub_add_cancel fits]
    rfl
  rw [product, Nat.testBit_mul_two_pow, Nat.testBit_two_pow_sub_one]
  by_cases low : k ≤ i
  · have shifted : i - k < 64 - k ↔ i < 64 := by omega
    simp only [low, shifted]
  · simp [low]

/-- Rounding a word down clears the low bits. -/
theorem alignDown_shift {value k : Nat} (fits : k ≤ 64) (word : value < wordLimit) :
    alignDown value (1 <<< k) = value >>> k <<< k := by
  apply Nat.eq_of_testBit_eq
  intro i
  rw [alignDown, Nat.testBit_and, testBit_mask fits, Nat.testBit_shiftLeft, Nat.testBit_shiftRight]
  by_cases low : k ≤ i
  · rw [Nat.add_sub_cancel' low]
    by_cases high : i < 64
    · simp [low, high]
    · have beyond : value < 2 ^ i :=
        Nat.lt_of_lt_of_le word (Nat.pow_le_pow_right Nat.zero_lt_two (Nat.le_of_not_lt high))
      simp [high, Nat.testBit_lt_two_pow beyond]
  · simp [low]

/-- Rounding a word down drops what a division by the alignment leaves. -/
theorem alignDown_eq {value alignment : Nat} (isPower : alignment.isPowerOfTwo)
    (fits : alignment ≤ wordLimit) (word : value < wordLimit) :
    alignDown value alignment = value / alignment * alignment := by
  rcases isPower with ⟨k, rfl⟩
  have within : k ≤ 64 := (Nat.pow_le_pow_iff_right Nat.one_lt_two).mp fits
  have shifted : alignDown value (2 ^ k) = value >>> k <<< k :=
    Nat.one_shiftLeft k ▸ alignDown_shift within word
  rw [shifted, Nat.shiftLeft_eq, Nat.shiftRight_eq_div_pow]

/-- Rounding a word up, where the multiple that it comes to is a word too. -/
theorem alignUp_eq {value alignment : Nat} (isPower : alignment.isPowerOfTwo)
    (fits : alignment ≤ wordLimit) (word : value + alignment - 1 < wordLimit) :
    alignUp value alignment = (value + alignment - 1) / alignment * alignment := by
  rw [alignUp, Nat.mod_eq_of_lt word, alignDown_eq isPower fits word]

theorem alignDown_segment {value : Nat} (word : value < wordLimit) :
    alignDown value segment = value / 64 * 64 :=
  alignDown_eq ⟨6, rfl⟩ (by decide) word

theorem segment_dvd_alignDown (value : Nat) : segment ∣ alignDown value segment := by
  have low : alignDown value segment % 2 ^ 6 = value % 2 ^ 6 &&& (wordLimit - segment) % 2 ^ 6 :=
    Nat.and_mod_two_pow
  have masked : (wordLimit - segment) % 2 ^ 6 = 0 := by decide
  rw [masked, Nat.and_zero] at low
  exact Nat.dvd_of_mod_eq_zero low

theorem segment_dvd_padded (length : Nat) : segment ∣ padded length :=
  segment_dvd_alignDown _

/-- What a padded length is rounded up from is a word, also for the empty length. -/
theorem raised_lt_wordLimit {length : Nat} (short : length + segment ≤ wordLimit) :
    max length 1 + segment - 1 < wordLimit := by
  simp only [segment, wordLimit] at short ⊢
  omega

/-- The padded length, without the mask. -/
theorem padded_eq {length : Nat} (short : length + segment ≤ wordLimit) :
    padded length = (max length 1 + 63) / 64 * 64 :=
  alignUp_eq ⟨6, rfl⟩ (by decide) (raised_lt_wordLimit short)

theorem le_padded {length : Nat} (short : length + segment ≤ wordLimit) :
    length ≤ padded length := by
  rw [padded_eq short]
  omega

theorem padded_pos {length : Nat} (short : length + segment ≤ wordLimit) :
    0 < padded length := by
  rw [padded_eq short]
  omega

theorem padded_le_padded {length bound : Nat} (within : length ≤ bound)
    (short : bound + segment ≤ wordLimit) : padded length ≤ padded bound := by
  rw [padded_eq short, padded_eq (Nat.le_trans (Nat.add_le_add_right within segment) short)]
  omega

/-- Code of the largest size is still padded within a word. -/
theorem short_of_le_largest {length : Nat} (limited : length ≤ largest) :
    length + segment ≤ wordLimit := by
  simp only [largest, segment, wordLimit] at limited ⊢
  omega

/-- Beyond the last multiple that is a word the sum wraps around, to less than one alignment. -/
theorem alignUp_of_beyond {value alignment : Nat} (isPower : alignment.isPowerOfTwo)
    (fits : alignment ≤ wordLimit) (word : value < wordLimit)
    (beyond : wordLimit ≤ value + alignment - 1) : alignUp value alignment = 0 := by
  have wrapped : (value + alignment - 1) % wordLimit = value + alignment - 1 - wordLimit := by
    rw [Nat.mod_eq_sub_mod beyond, Nat.mod_eq_of_lt (by omega)]
  have small : value + alignment - 1 - wordLimit < alignment := by omega
  rw [alignUp, wrapped, alignDown_eq isPower fits (by omega), Nat.div_eq_of_lt small, Nat.zero_mul]

/-- A range of whole pages holds the length it was asked for. -/
theorem le_wholePages {pageSize length : Nat} (isPower : pageSize.isPowerOfTwo)
    (short : length + pageSize ≤ wordLimit) : length ≤ wholePages pageSize length := by
  have positive := Nat.pos_of_isPowerOfTwo isPower
  have rest := Nat.mod_lt (length + pageSize - 1) positive
  have split := Nat.div_add_mod' (length + pageSize - 1) pageSize
  rw [wholePages, alignUp_eq isPower (by omega) (by omega)]
  omega

/-- The rounding leaves nothing of a length that it takes beyond the words. -/
theorem wholePages_eq_zero {pageSize length : Nat} (isPower : pageSize.isPowerOfTwo)
    (fits : pageSize ≤ wordLimit) (word : length < wordLimit)
    (wraps : wordLimit < length + pageSize) : wholePages pageSize length = 0 :=
  alignUp_of_beyond isPower fits word (by omega)

theorem alignDown_heapAlignment {value : Nat} (word : value < wordLimit) :
    alignDown value heapAlignment = value / 65536 * 65536 :=
  alignDown_eq ⟨16, rfl⟩ (by decide) word

theorem alignUp_heapAlignment {value : Nat} (short : value + heapAlignment ≤ wordLimit) :
    alignUp value heapAlignment = (value + 65535) / 65536 * 65536 := by
  have word : value + heapAlignment - 1 < wordLimit := by
    simp only [heapAlignment, kib, wordLimit, Nat.reduceShiftLeft] at short ⊢
    omega
  exact alignUp_eq ⟨16, rfl⟩ (by decide) word

/-- Whole granules of a heap are whole segments. -/
theorem alignDown_of_aligned {value : Nat} (word : value < wordLimit)
    (aligned : value % heapAlignment = 0) : alignDown value segment = value := by
  rw [alignDown_segment word]
  simp only [heapAlignment, kib] at aligned
  omega

/-- Whole granules of a heap can be rounded to pages. -/
theorem add_pageSize_le {pageSize value : Nat} (fits : pageSize ≤ heapAlignment)
    (word : value < wordLimit) (aligned : value % heapAlignment = 0) :
    value + pageSize ≤ wordLimit := by
  simp only [wordLimit, heapAlignment, kib, Nat.reduceShiftLeft] at fits word aligned ⊢
  omega

end CodeLayout.Size
