import CodeLayout.Text.Digits

/-!
# Numbers as digits

A number that is written in digits is read back.  What is read as a number is a
nonempty list of digits, behind a plus sign where one is allowed.  Two digits are the
number below a hundred that they write.
-/

namespace CodeLayout.Digits

variable {chars : List Char} {n : Nat}

theorem digitChar_isDigit {d : Nat} (small : d < 10) : (digitChar d).isDigit = true := by
  have all : ∀ d, d < 10 → (digitChar d).isDigit = true := by decide
  exact all d small

theorem digitValue_digitChar {d : Nat} (small : d < 10) : digitValue (digitChar d) = d := by
  have all : ∀ d, d < 10 → digitValue (digitChar d) = d := by decide
  exact all d small

theorem isDigit_of_mem_render {c : Char} (n : Nat) (member : c ∈ render n) :
    c.isDigit = true := by
  induction n using render.induct with
  | case1 n small =>
      rw [render, if_pos small, List.mem_singleton] at member
      rw [member]
      exact digitChar_isDigit small
  | case2 n large inductionHypothesis =>
      rw [render, if_neg large] at member
      rcases List.mem_append.mp member with early | last
      · exact inductionHypothesis early
      · rw [List.mem_singleton.mp last]
        exact digitChar_isDigit (Nat.mod_lt n (by decide))

theorem render_ne_nil (n : Nat) : render n ≠ [] := by
  rw [render]
  split <;> simp

theorem value_render (n : Nat) : value (render n) = n := by
  induction n using render.induct with
  | case1 n small =>
      rw [render, if_pos small, value]
      simp only [List.foldl_cons, List.foldl_nil]
      rw [digitValue_digitChar small]
      omega
  | case2 n large inductionHypothesis =>
      rw [value] at inductionHypothesis
      rw [render, if_neg large, value, List.foldl_append, inductionHypothesis]
      simp only [List.foldl_cons, List.foldl_nil]
      rw [digitValue_digitChar (Nat.mod_lt n (by decide))]
      omega

/-- What is written in digits is read back. -/
@[simp]
theorem parse?_render (n : Nat) : parse? (render n) = some n := by
  have numeral : isNumeral (render n) = true := by
    rw [isNumeral, Bool.and_eq_true, List.all_eq_true]
    exact ⟨by simpa using render_ne_nil n, fun c => isDigit_of_mem_render n⟩
  rw [parse?, if_pos numeral, value_render]

@[simp]
theorem parsePlus?_render (n : Nat) : parsePlus? (render n) = some n := by
  have plain : ∀ rest, render n ≠ '+' :: rest := by
    intro rest signed
    have isDigit := isDigit_of_mem_render n (signed ▸ List.mem_cons_self)
    contradiction
  rw [parsePlus?, parse?_render]
  exact plain

/-- A number is read from digits alone. -/
theorem parse?_eq_some_iff :
    parse? chars = some n ↔
      chars ≠ [] ∧ (∀ c ∈ chars, c.isDigit = true) ∧ value chars = n := by
  simp [parse?, isNumeral, and_assoc]

/-- A plus sign stands in front of the digits at most once. -/
theorem parsePlus?_eq_some_iff :
    parsePlus? chars = some n ↔ ∃ sign digits, (sign = [] ∨ sign = ['+']) ∧
      chars = sign ++ digits ∧ parse? digits = some n := by
  constructor
  · intro isNumber
    unfold parsePlus? at isNumber
    split at isNumber
    · exact ⟨['+'], _, Or.inr rfl, rfl, isNumber⟩
    · exact ⟨[], _, Or.inl rfl, rfl, isNumber⟩
  · rintro ⟨sign, digits, rfl | rfl, rfl, isNumber⟩
    · rw [parsePlus?]
      · exact isNumber
      · rintro rest rfl
        have isDigit := (parse?_eq_some_iff.mp isNumber).2.1 '+' List.mem_cons_self
        contradiction
    · exact isNumber

/-! ## Two digits -/

theorem digitChar_digitValue {c : Char} (isDigit : c.isDigit = true) :
    digitChar (digitValue c) = c := by
  rw [Char.isDigit, Bool.and_eq_true, decide_eq_true_iff, decide_eq_true_iff] at isDigit
  have low : '0'.toNat ≤ c.toNat := isDigit.1
  rw [digitChar, digitValue, Nat.add_sub_cancel' low, Char.ofNat_toNat]

theorem digitValue_lt {c : Char} (isDigit : c.isDigit = true) : digitValue c < 10 := by
  rw [Char.isDigit, Bool.and_eq_true, decide_eq_true_iff, decide_eq_true_iff] at isDigit
  have high : c.toNat ≤ '9'.toNat := isDigit.2
  have nine : '9'.toNat = 57 := rfl
  have zero : '0'.toNat = 48 := rfl
  rw [digitValue]
  omega

/-- A number below a hundred has its tens and its ones. -/
theorem toList_padded_two (small : n < 100) :
    (padded 2 n).toList = [digitChar (n / 10), digitChar (n % 10)] := by
  rw [padded, String.toList_ofList]
  by_cases single : n < 10
  · have digits : render n = [digitChar n] := by rw [render, if_pos single]
    have zero : digitChar 0 = '0' := rfl
    rw [digits, Nat.div_eq_of_lt single, Nat.mod_eq_of_lt single, zero]
    rfl
  · have tens : n / 10 < 10 := by omega
    have digits : render n = [digitChar (n / 10), digitChar (n % 10)] := by
      rw [render, if_neg single, render, if_pos tens]
      rfl
    rw [digits]
    rfl

theorem value_pair {tens ones : Nat} (tensSmall : tens < 10) (onesSmall : ones < 10) :
    value [digitChar tens, digitChar ones] = 10 * tens + ones := by
  simp [value, digitValue_digitChar tensSmall, digitValue_digitChar onesSmall]

/-- Two digits are read as the number below a hundred that they write. -/
theorem parse?_pair_eq_some_iff {tens ones : Char} :
    parse? [tens, ones] = some n ↔ n < 100 ∧ (padded 2 n).toList = [tens, ones] := by
  rw [parse?_eq_some_iff]
  constructor
  · rintro ⟨-, digits, rfl⟩
    have isTens := digits tens (by simp)
    have isOnes := digits ones (by simp)
    have tensSmall := digitValue_lt isTens
    have onesSmall := digitValue_lt isOnes
    have number := value_pair tensSmall onesSmall
    rw [digitChar_digitValue isTens, digitChar_digitValue isOnes] at number
    have isFirst : value [tens, ones] / 10 = digitValue tens := by omega
    have isLast : value [tens, ones] % 10 = digitValue ones := by omega
    have small : value [tens, ones] < 100 := by omega
    refine ⟨small, ?_⟩
    rw [toList_padded_two small, isFirst, isLast, digitChar_digitValue isTens,
      digitChar_digitValue isOnes]
  · rintro ⟨small, written⟩
    have tensSmall : n / 10 < 10 := by omega
    have onesSmall : n % 10 < 10 := by omega
    rw [toList_padded_two small] at written
    cases written
    refine ⟨List.cons_ne_nil _ _, ?_, ?_⟩
    · simp [digitChar_isDigit tensSmall, digitChar_isDigit onesSmall]
    · rw [value_pair tensSmall onesSmall]
      omega

end CodeLayout.Digits
