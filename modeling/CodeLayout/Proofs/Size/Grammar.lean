import CodeLayout.Proofs.Size.Checked
import CodeLayout.Proofs.Text.Digits
import Mathlib.Data.List.Basic
import Mathlib.Data.List.Induction
import Mathlib.Data.Nat.Digits.Defs

/-!
# The grammar of sizes

A size is written in decimal digits, behind which one letter may stand for a power of two.
A text is read exactly if it writes a size that is within the limit, and then that size is
read.  The limit is the only one: reading in words, which gives up where the digits or their
product with the unit leave the word, refuses no size within it.
-/

namespace CodeLayout.Size

variable {text : String} {digits unit : List Char} {size power factor start : Nat}

/-! ## What a text writes -/

/-- What stands behind the digits, and the power of two that it multiplies them by. -/
inductive Scale : List Char → Nat → Prop
  | plain : Scale [] 0
  | kilo {letter : Char} (isLetter : letter = 'k' ∨ letter = 'K') : Scale [letter] 10
  | mega {letter : Char} (isLetter : letter = 'm' ∨ letter = 'M') : Scale [letter] 20
  | giga {letter : Char} (isLetter : letter = 'g' ∨ letter = 'G') : Scale [letter] 30

/-- The number that decimal digits write, the last one standing for ones. -/
def decimal (digits : List Char) : Nat :=
  Nat.ofDigits 10 (digits.map Digits.digitValue).reverse

/-- A text writes a size, however large, in at least one digit and at most one unit letter. -/
inductive Writes (text : String) : Nat → Prop
  | intro {digits unit : List Char} {power : Nat} (written : text.toList = digits ++ unit)
      (filled : digits ≠ []) (areDigits : ∀ c ∈ digits, c.isDigit = true)
      (scale : Scale unit power) : Writes text (decimal digits * 2 ^ power)

theorem decimal_eq (digits : List Char) : decimal digits = Digits.value digits := by
  induction digits using List.reverseRecOn with
  | nil => rfl
  | append_singleton before last inductionHypothesis =>
      have value : Digits.value (before ++ [last]) =
          10 * Digits.value before + Digits.digitValue last := by
        rw [Digits.value, List.foldl_concat]
        rfl
      rw [decimal] at inductionHypothesis
      rw [decimal, List.map_append, List.map_singleton, List.reverse_concat, Nat.ofDigits_cons,
        inductionHypothesis, value, Nat.add_comm]

/-! ## Units -/

theorem unit?_of_scale {letter : Char} (scale : Scale [letter] power) :
    unit? letter = some (2 ^ power) := by
  cases scale with
  | kilo isLetter => rcases isLetter with rfl | rfl <;> rfl
  | mega isLetter => rcases isLetter with rfl | rfl <;> rfl
  | giga isLetter => rcases isLetter with rfl | rfl <;> rfl

theorem exists_scale {letter : Char} (isUnit : unit? letter = some factor) :
    ∃ power, Scale [letter] power ∧ factor = 2 ^ power := by
  unfold unit? at isUnit
  split at isUnit
  · exact ⟨10, .kilo (.inl rfl), (Option.some.inj isUnit).symm⟩
  · exact ⟨10, .kilo (.inr rfl), (Option.some.inj isUnit).symm⟩
  · exact ⟨20, .mega (.inl rfl), (Option.some.inj isUnit).symm⟩
  · exact ⟨20, .mega (.inr rfl), (Option.some.inj isUnit).symm⟩
  · exact ⟨30, .giga (.inl rfl), (Option.some.inj isUnit).symm⟩
  · exact ⟨30, .giga (.inr rfl), (Option.some.inj isUnit).symm⟩
  · contradiction

/-- No digit is a unit letter. -/
theorem unit?_of_isDigit {c : Char} (isDigit : c.isDigit = true) : unit? c = none := by
  rw [Option.eq_none_iff_forall_ne_some]
  intro factor isUnit
  rcases exists_scale isUnit with ⟨power, scale, -⟩
  cases scale with
  | kilo isLetter => rcases isLetter with rfl | rfl <;> contradiction
  | mega isLetter => rcases isLetter with rfl | rfl <;> contradiction
  | giga isLetter => rcases isLetter with rfl | rfl <;> contradiction

theorem splitUnit_concat {letter : Char} (isUnit : unit? letter = some factor) :
    splitUnit (digits ++ [letter]) = (digits, factor) := by
  rw [splitUnit, List.getLast?_concat, Option.bind_some, isUnit]
  exact congrArg (·, factor) List.dropLast_concat

/-- A unit is split off digits. -/
theorem splitUnit_append (filled : digits ≠ []) (areDigits : ∀ c ∈ digits, c.isDigit = true)
    (scale : Scale unit power) : splitUnit (digits ++ unit) = (digits, 2 ^ power) := by
  cases scale with
  | plain =>
      have last := areDigits _ (List.getLast_mem filled)
      rw [List.append_nil, splitUnit, List.getLast?_eq_some_getLast filled, Option.bind_some,
        unit?_of_isDigit last]
      rfl
  | kilo isLetter => exact splitUnit_concat (unit?_of_scale (.kilo isLetter))
  | mega isLetter => exact splitUnit_concat (unit?_of_scale (.mega isLetter))
  | giga isLetter => exact splitUnit_concat (unit?_of_scale (.giga isLetter))

/-- What is split off a text is a unit. -/
theorem exists_splitUnit (chars : List Char) :
    ∃ unit power, chars = (splitUnit chars).1 ++ unit ∧ Scale unit power ∧
      (splitUnit chars).2 = 2 ^ power := by
  rw [splitUnit]
  cases last : chars.getLast?.bind unit? with
  | none => exact ⟨[], 0, (List.append_nil chars).symm, .plain, rfl⟩
  | some factor =>
      rcases Option.bind_eq_some_iff.mp last with ⟨letter, isLast, isUnit⟩
      rcases exists_scale isUnit with ⟨power, scale, rfl⟩
      exact ⟨[letter], power, (List.dropLast_append_getLast? letter isLast).symm, scale, rfl⟩

/-- A text writes the product of the digits in front of its unit with that unit. -/
theorem writes_iff :
    Writes text size ↔ ∃ count, Digits.parse? (splitUnit text.toList).1 = some count ∧
      count * (splitUnit text.toList).2 = size := by
  constructor
  · rintro ⟨written, filled, areDigits, scale⟩
    rw [written, splitUnit_append filled areDigits scale, decimal_eq]
    exact ⟨_, Digits.parse?_eq_some_iff.mpr ⟨filled, areDigits, rfl⟩, rfl⟩
  · rintro ⟨count, isNumber, rfl⟩
    rcases exists_splitUnit text.toList with ⟨unit, power, written, scale, isPower⟩
    rcases Digits.parse?_eq_some_iff.mp isNumber with ⟨filled, areDigits, rfl⟩
    rw [isPower, ← decimal_eq]
    exact .intro written filled areDigits scale

/-! ## Reading in words -/

/-- One more digit behind a number, both in words. -/
def append? (n : Nat) (c : Char) : Option Nat :=
  (mul? 10 n).bind fun tens => add? tens (Digits.digitValue c)

/-- Read a size in words: the digits, their product with the unit, then the limit. -/
def parseWord? (text : String) : Option Nat :=
  let (digits, factor) := splitUnit text.toList
  if Digits.isNumeral digits then
    (digits.foldlM append? 0).bind fun count => (mul? count factor).filter (· ≤ largest)
  else none

theorem append?_eq (n : Nat) (c : Char) :
    append? n c =
      if 10 * n + Digits.digitValue c < wordLimit then some (10 * n + Digits.digitValue c)
      else none := by
  rw [append?, mul?]
  split
  · rfl
  · rename_i beyond
    rw [Option.bind_none, if_neg (by omega)]

/-- A number only grows by the digits behind it. -/
theorem le_foldl_digits (digits : List Char) (start : Nat) :
    start ≤ digits.foldl (fun n c => 10 * n + Digits.digitValue c) start := by
  induction digits generalizing start with
  | nil => exact Nat.le_refl start
  | cons c digits inductionHypothesis =>
      have grown := inductionHypothesis (10 * start + Digits.digitValue c)
      rw [List.foldl_cons]
      omega

/-- Digits are read in words exactly if the number that they write is a word: a number that
has left the word never comes back. -/
theorem foldlM_append? (digits : List Char) (word : start < wordLimit) :
    digits.foldlM append? start =
      let number := digits.foldl (fun n c => 10 * n + Digits.digitValue c) start
      if number < wordLimit then some number else none := by
  induction digits generalizing start with
  | nil => exact (if_pos word).symm
  | cons c digits inductionHypothesis =>
      rw [List.foldlM_cons, append?_eq, List.foldl_cons]
      by_cases within : 10 * start + Digits.digitValue c < wordLimit
      · rw [if_pos within]
        exact inductionHypothesis within
      · have grown := le_foldl_digits digits (10 * start + Digits.digitValue c)
        rw [if_neg within, if_neg (by omega)]
        rfl

/-- What is no word is beyond the limit as well. -/
theorem not_le_largest {n : Nat} (beyond : ¬ n < wordLimit) : ¬ n ≤ largest := by
  simp only [wordLimit, largest, Nat.reduceShiftLeft] at beyond ⊢
  omega

theorem filter_mul? (count factor : Nat) :
    (mul? count factor).filter (· ≤ largest) =
      if count * factor ≤ largest then some (count * factor) else none := by
  rw [mul?]
  split
  · simp only [Option.filter_some, decide_eq_true_iff]
  · rename_i beyond
    rw [if_neg (not_le_largest beyond)]
    rfl

/-- Words refuse no size within the limit: where the digits alone are no word, neither is
their product with the unit. -/
theorem parseWord?_eq (text : String) : parseWord? text = parse? text := by
  rw [parseWord?, parse?]
  rcases exists_splitUnit text.toList with ⟨unit, power, -, -, isPower⟩
  generalize splitUnit text.toList = parts at isPower ⊢
  rcases parts with ⟨digits, factor⟩
  dsimp only at isPower ⊢
  rw [Digits.parse?]
  split
  · have number : digits.foldlM append? 0 =
        if Digits.value digits < wordLimit then some (Digits.value digits) else none :=
      foldlM_append? digits (by decide)
    rw [number, Option.bind_some]
    by_cases word : Digits.value digits < wordLimit
    · rw [if_pos word, Option.bind_some, filter_mul?]
    · have grown : Digits.value digits ≤ Digits.value digits * factor :=
        Nat.le_mul_of_pos_right _ (isPower ▸ Nat.two_pow_pos power)
      have beyond : ¬ Digits.value digits * factor < wordLimit :=
        fun small => word (Nat.lt_of_le_of_lt grown small)
      rw [if_neg word, if_neg (not_le_largest beyond)]
      rfl
  · rfl

/-! ## Reading follows the grammar -/

theorem parse?_eq_some_iff : parse? text = some size ↔ Writes text size ∧ size ≤ largest := by
  rw [writes_iff, parse?, Option.bind_eq_some_iff]
  constructor
  · rintro ⟨count, isNumber, within⟩
    split at within
    · rename_i limited
      cases within
      exact ⟨⟨count, isNumber, rfl⟩, limited⟩
    · contradiction
  · rintro ⟨⟨count, isNumber, rfl⟩, limited⟩
    exact ⟨count, isNumber, if_pos limited⟩

/-- A text is read exactly if it writes a size of at most 63 bits, and then as this size.  In
words the same texts are read. -/
theorem parse?_follows_grammar (text : String) :
    (∀ size, parse? text = some size ↔ Writes text size ∧ size ≤ 2 ^ 63 - 1) ∧
      (parse? text = none ↔ ∀ size, Writes text size → 2 ^ 63 - 1 < size) ∧
      parseWord? text = parse? text := by
  have limit : largest = 2 ^ 63 - 1 := by
    rw [largest, Nat.one_shiftLeft]
  refine ⟨fun size => limit ▸ parse?_eq_some_iff, ?_, parseWord?_eq text⟩
  rw [← limit, Option.eq_none_iff_forall_ne_some]
  constructor
  · intro unread size writes
    exact Nat.lt_of_not_le fun limited => unread size (parse?_eq_some_iff.mpr ⟨writes, limited⟩)
  · intro beyond size read
    rcases parse?_eq_some_iff.mp read with ⟨writes, limited⟩
    exact Nat.not_lt.mpr limited (beyond size writes)

example : parse? "0064K" = some 65536 ∧ parse? "8589934592G" = none := by decide

end CodeLayout.Size
