import CodeLayout.Text.Digits

/-!
# Binary fractions and their decimals

A double is a sign, a whole number and a power of two.  All decimal text is
made from this exact value.  For a fixed number of places it is rounded to the
nearest multiple of the last place; of two equally near ones the even one is
taken.
-/

namespace CodeLayout.Decimal

/-- The number `mantissa * 2 ^ exponent`, negated if `negative`. -/
structure Binary where
  negative : Bool
  mantissa : Nat
  exponent : Int
deriving DecidableEq, Repr

namespace Binary

/-- Bits of a mantissa that are stored. -/
def storedBits : Nat := 52

/-- The exact value of a double; `none` for infinities and for what is not a
number. -/
def ofFloat? (x : Float) : Option Binary :=
  let bits : Nat := x.toBits.toNat
  let negative := decide (1 <<< 63 ≤ bits)
  let field : Nat := bits >>> storedBits % 1 <<< 11
  let stored := bits % 1 <<< storedBits
  if field = 2047 then none
  else if field = 0 then some ⟨negative, stored, -1074⟩
  else some ⟨negative, 1 <<< storedBits + stored, (field : Int) - 1075⟩

/-- Numerator and denominator of the magnitude. -/
def ratio (b : Binary) : Nat × Nat :=
  if 0 ≤ b.exponent then (b.mantissa <<< b.exponent.toNat, 1)
  else (b.mantissa, 1 <<< (-b.exponent).toNat)

end Binary

/-! ## A fixed number of places -/

/-- The whole number nearest to a quotient, a tie going to the even one. -/
def roundHalfEven (numerator denominator : Nat) : Nat :=
  let quotient := numerator / denominator
  let twice := 2 * (numerator % denominator)
  if twice < denominator then quotient
  else if denominator < twice then quotient + 1
  else if quotient % 2 = 0 then quotient
  else quotient + 1

/-- A whole number of units of the last place, with the point put in. -/
def placed (places units : Nat) : String :=
  if places = 0 then Digits.text units
  else
    Digits.text (units / Nat.pow 10 places) ++ "." ++
      Digits.padded places (units % Nat.pow 10 places)

/-- A double with the given number of places.  The sign of a negative value
stays even where all digits are zero. -/
def fixed (places : Nat) (x : Float) : String :=
  match Binary.ofFloat? x with
  | some b =>
    let (numerator, denominator) := b.ratio
    (if b.negative then "-" else "") ++
      placed places (roundHalfEven (numerator * Nat.pow 10 places) denominator)
  | none => if x.isNaN then "NaN" else if x < 0 then "-inf" else "inf"

end CodeLayout.Decimal
