import CodeLayout.Document
import CodeLayout.Text.Digits
import CodeLayout.Text.Fields
import CodeLayout.Toml.Text

/-!
# Scalars

Numbers, truth values, dates and times are words of letters, digits and a few
signs; the whole word decides what it is.  A date and a time of day may also
stand side by side with one blank between them.
-/

namespace CodeLayout.Toml

namespace Word

/-- The character may stand in a word. -/
def isPart (c : Char) : Bool :=
  c.isAlphanum || c = '_' || c = '+' || c = '-' || c = '.' || c = ':'

/-- Digits of one kind, in which single underscores may separate digits; the
result has the underscores removed. -/
def digits? (isDigit : Char → Bool) : List Char → Option (List Char)
  | [c] => if isDigit c then some [c] else none
  | c :: '_' :: rest => if isDigit c then (digits? isDigit rest).map (c :: ·) else none
  | c :: rest => if isDigit c then (digits? isDigit rest).map (c :: ·) else none
  | [] => none

/-- The sign in front of a word, negative or not, and what follows it. -/
def sign : List Char → Bool × List Char
  | '-' :: rest => (true, rest)
  | '+' :: rest => (false, rest)
  | word => (false, word)

/-- Decimal digits that do not start with a zero, unless it is the only one. -/
def whole? (word : List Char) : Option (List Char) := do
  let digits ← digits? Char.isDigit word
  if digits.head? = some '0' && digits.length ≠ 1 then none else some digits

/-- The number written in a base, if it consists of digits of the base. -/
def based? (base : Nat) (word : List Char) : Option Nat := do
  let isDigit (c : Char) : Bool := (Quoted.hexDigit? c).any fun d => decide (d < base)
  let digits ← digits? isDigit word
  let values ← digits.mapM Quoted.hexDigit?
  return values.foldl (fun n d => base * n + d) 0

/-- Integers have 64 bits, of which one is the sign. -/
def fitting? (n : Int) : Option Document :=
  if -0x8000000000000000 ≤ n ∧ n < 0x8000000000000000 then some (.integer n) else none

/-- An integer, in base ten with or without a sign, or without a sign in one of
the bases that a zero and a letter announce. -/
def integer? : List Char → Option Document
  | '0' :: 'x' :: rest => do fitting? (← based? 16 rest)
  | '0' :: 'o' :: rest => do fitting? (← based? 8 rest)
  | '0' :: 'b' :: rest => do fitting? (← based? 2 rest)
  | word => do
    let (negative, rest) := sign word
    let n : Int := Digits.value (← whole? rest)
    fitting? (if negative then -n else n)

/-- Exponents beyond the number of digits and this bound only lead to zero or to
infinity. -/
def maxExponent : Nat := 400

/-- A double from its digits, `places` of which stand behind the point. -/
def scaled (negative : Bool) (digits : List Char) (places : Nat) (exponent : Int) :
    Option Document :=
  let bound : Int := digits.length + maxExponent
  let shift := max (-bound) (min bound exponent) - places
  let size := Float.ofScientific (Digits.value digits) (decide (shift < 0)) shift.natAbs
  if size.isInf && !negative then none else some (.real (if negative then -size else size))

/-- An exponent behind the letter `e`. -/
def exponent? (word : List Char) : Option Int := do
  let (negative, rest) := sign word
  let n : Int := Digits.value (← digits? Char.isDigit rest)
  return if negative then -n else n

/-- A number with a point, an exponent, or both. -/
def decimal? (word : List Char) : Option Document := do
  let (negative, rest) := sign word
  let isExponent (c : Char) : Bool := c = 'e' || c = 'E'
  let mantissa := rest.takeWhile fun c => !isExponent c
  let exponent ← match rest.dropWhile fun c => !isExponent c with
    | [] => some none
    | _ :: word => (exponent? word).map some
  match Fields.splitOnce '.' mantissa, exponent with
  | none, none => none
  | none, some exponent => scaled negative (← whole? mantissa) 0 exponent
  | some (front, back), exponent =>
    let back ← digits? Char.isDigit back
    scaled negative ((← whole? front) ++ back) back.length (exponent.getD 0)

/-- Infinity and not-a-number, with or without a sign. -/
def special? (word : List Char) : Option Document :=
  let (negative, rest) := sign word
  let signed (x : Float) : Document := .real (if negative then -x else x)
  if rest = "inf".toList then some (signed (1 / 0))
  else if rest = "nan".toList then some (signed (0 / 0))
  else none

/-- A number of exactly so many digits. -/
def fixed? (width : Nat) (word : List Char) : Option Nat :=
  if word.length = width then Digits.parse? word else none

/-- Number of days in a month. -/
def daysIn (year month : Nat) : Nat :=
  if month = 2 then
    if year % 4 = 0 ∧ (year % 100 ≠ 0 ∨ year % 400 = 0) then 29 else 28
  else if month = 4 ∨ month = 6 ∨ month = 9 ∨ month = 11 then 30
  else 31

/-- The word is a day of the calendar. -/
def isDate (word : List Char) : Bool :=
  match Fields.split '-' word with
  | [year, month, day] =>
    match fixed? 4 year, fixed? 2 month, fixed? 2 day with
    | some year, some month, some day =>
      decide (1 ≤ month ∧ month ≤ 12 ∧ 1 ≤ day ∧ day ≤ daysIn year month)
    | _, _, _ => false
  | _ => false

/-- The word is a time of day with seconds, perhaps with a fraction of them. -/
def isTime (word : List Char) : Bool :=
  let fraction := match Fields.splitOnce '.' word with
    | some (_, fraction) => Digits.isNumeral fraction
    | none => true
  match Fields.split ':' (word.takeWhile fun c => c ≠ '.') with
  | [hour, minute, second] =>
    match fixed? 2 hour, fixed? 2 minute, fixed? 2 second with
    | some hour, some minute, some second =>
      fraction && decide (hour ≤ 23 ∧ minute ≤ 59 ∧ second ≤ 60)
    | _, _, _ => false
  | _ => false

/-- The word is a distance from universal time. -/
def isOffset (word : List Char) : Bool :=
  match Fields.split ':' word with
  | [hour, minute] =>
    match fixed? 2 hour, fixed? 2 minute with
    | some hour, some minute => decide (hour ≤ 23 ∧ minute ≤ 59)
    | _, _ => false
  | _ => false

/-- The word is a time of day, perhaps with a distance from universal time. -/
def isZonedTime (word : List Char) : Bool :=
  let isEnd (c : Char) : Bool := c = 'Z' || c = 'z' || c = '+' || c = '-'
  let offset := match word.dropWhile fun c => !isEnd c with
    | [] | ['Z'] | ['z'] => true
    | '+' :: rest | '-' :: rest => isOffset rest
    | _ => false
  offset && isTime (word.takeWhile fun c => !isEnd c)

/-- Length of a day of the calendar as it is written. -/
def dateWidth : Nat := 10

/-- A date, a time of day, or both with the letter `T` between them. -/
def dateTime? (word : List Char) : Option Document :=
  let date := word.take dateWidth
  let accepted := match word.drop dateWidth with
    | [] => isDate word
    | 'T' :: time | 't' :: time => isDate date && isZonedTime time
    | _ => false
  if accepted || isTime word then some (.date (String.ofList word)) else none

/-- What a word means. -/
def meaning? (word : List Char) : Option Document :=
  if word = "true".toList then some (.flag true)
  else if word = "false".toList then some (.flag false)
  else dateTime? word <|> decimal? word <|> special? word <|> integer? word

end Word

namespace Reader

/-- What follows starts like the time of day behind a date: with a blank, two
digits and a colon. -/
def startsTime : List Char → Bool
  | ' ' :: a :: b :: ':' :: _ => a.isDigit && b.isDigit
  | _ => false

/-- Take a number, a truth value, a date or a time. -/
def scalar : Reader Document := do
  let word ← span Word.isPart
  match Word.meaning? word with
  | none => failure
  | some value =>
    if Word.isDate word && startsTime (← get) then
      expect ' '
      let time ← span Word.isPart
      if Word.isZonedTime time then
        return .date (String.ofList (word ++ ' ' :: time))
      else failure
    else return value

end Reader

end CodeLayout.Toml
