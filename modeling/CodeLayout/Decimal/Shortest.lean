import CodeLayout.Decimal.Binary
import CodeLayout.Text.Digits

/-!
# The shortest decimal that reads back

The decimals that round to a double form an interval around its exact value;
its ends belong to it when the mantissa is even.  For one digit, two digits and
so on, the two multiples of the last digit's place on either side of the value
are tried, the nearer one first.  Seventeen digits always suffice.
-/

namespace CodeLayout.Decimal

/-- The number `digits * 10 ^ exponent`. -/
structure Scientific where
  digits : Nat
  exponent : Int
deriving DecidableEq, Repr

/-- The decimals between `low` and `high`, which share one denominator; the
ends count if `closed`. -/
structure Rounding where
  low : Nat
  value : Nat
  high : Nat
  denominator : Nat
  closed : Bool

namespace Rounding

/-- The decimals that round to a positive double.  Below a power of two the
neighbouring double is only half as far away. -/
def ofBinary (b : Binary) : Rounding :=
  let shift := b.exponent - 2
  let up := 1 <<< shift.toNat
  let gapBelow :=
    if b.mantissa = 1 <<< Binary.storedBits ∧ -1074 < b.exponent then 1 else 2
  { low := (4 * b.mantissa - gapBelow) * up
    value := 4 * b.mantissa * up
    high := (4 * b.mantissa + 2) * up
    denominator := 1 <<< (-shift).toNat
    closed := b.mantissa % 2 = 0 }

/-- Whether a decimal lies in the interval. -/
def admits (r : Rounding) (s : Scientific) : Bool :=
  let scaled := s.digits * Nat.pow 10 s.exponent.toNat * r.denominator
  let unit := Nat.pow 10 (-s.exponent).toNat
  if r.closed then decide (r.low * unit ≤ scaled) && decide (scaled ≤ r.high * unit)
  else decide (r.low * unit < scaled) && decide (scaled < r.high * unit)

/-- Position of the first digit of the value: the exponent of the power of ten
below it. -/
def magnitude (r : Rounding) : Int :=
  let whole := r.value / r.denominator
  if whole ≠ 0 then ((Digits.render whole).length : Int) - 1
  else
    let places := (List.range 400).find? fun j =>
      r.denominator ≤ r.value * Nat.pow 10 (j + 1)
    Int.negSucc (places.getD 0)

/-- The multiples of a power of ten next to the value, the nearer one first. -/
def neighbours (r : Rounding) (exponent : Int) : List Scientific :=
  let numerator := r.value * Nat.pow 10 (-exponent).toNat
  let denominator := r.denominator * Nat.pow 10 exponent.toNat
  let below := numerator / denominator
  let low : Scientific := ⟨below, exponent⟩
  let high : Scientific := ⟨below + 1, exponent⟩
  let twice := 2 * (numerator % denominator)
  if twice < denominator ∨ (twice = denominator ∧ below % 2 = 0) then [low, high] else [high, low]

end Rounding

namespace Scientific

/-- Drop zeros at the end of the digits, as many as the bound allows. -/
def trimmed : Nat → Scientific → Scientific
  | 0, s => s
  | n + 1, s =>
    if s.digits ≠ 0 ∧ s.digits % 10 = 0 then trimmed n ⟨s.digits / 10, s.exponent + 1⟩ else s

/-- The shortest decimal that rounds to the magnitude of a double. -/
def shortest (b : Binary) : Scientific :=
  if b.mantissa = 0 then ⟨0, 0⟩
  else
    let r := Rounding.ofBinary b
    let candidates := (List.range 17).flatMap fun n : Nat => r.neighbours (r.magnitude - n)
    trimmed 20 ((candidates.find? r.admits).getD ⟨0, 0⟩)

/-- How a number is laid out: positional while the point falls within certain
bounds, with an exponent beyond them. -/
structure Layout where
  /-- Most digits in front of the point. -/
  widest : Int
  /-- Most zeros between the point and the first digit. -/
  smallest : Int
  /-- What stands in front of an exponent that is not negative. -/
  plus : String

/-- The text of an exponent. -/
def exponentText (layout : Layout) (e : Int) : String :=
  (if 0 ≤ e then layout.plus else "") ++ Digits.signed e

/-- The text of a number.  Positional text always has a digit on both sides of
the point. -/
def text (layout : Layout) (s : Scientific) : String :=
  let digits := Digits.render s.digits
  let point := (digits.length : Int) + s.exponent
  if 0 ≤ s.exponent ∧ point ≤ layout.widest then
    String.ofList (digits ++ List.replicate s.exponent.toNat '0') ++ ".0"
  else if 0 < point ∧ point ≤ layout.widest then
    String.ofList (digits.take point.toNat) ++ "." ++ String.ofList (digits.drop point.toNat)
  else if -layout.smallest ≤ point ∧ point ≤ 0 then
    "0." ++ String.ofList (List.replicate (-point).toNat '0' ++ digits)
  else
    let lead := String.ofList (digits.take 1)
    let rest := digits.drop 1
    lead ++ (if rest.isEmpty then "" else "." ++ String.ofList rest) ++ "e" ++
      exponentText layout (point - 1)

end Scientific

end CodeLayout.Decimal
