/-!
# Digits and numbers

Natural numbers as lists of ASCII digits.  `render` writes the shortest form,
`value` reads any digit list, leading zeros included, and the two are kept
apart from every limit on the size of the number: a caller that has a limit
compares the value with it.

Numbers as people write them come with a sign or without, whole or with a point,
with a power of ten behind them or without; there are words for what is no finite
number.
-/

namespace CodeLayout.Digits

/-- The digit character of a number below ten. -/
def digitChar (d : Nat) : Char :=
  Char.ofNat ('0'.toNat + d)

/-- The number a digit character stands for. -/
def digitValue (c : Char) : Nat :=
  c.toNat - '0'.toNat

/-- Decimal digits of `n`, most significant first, without leading zeros. -/
def render (n : Nat) : List Char :=
  if n < 10 then [digitChar n] else render (n / 10) ++ [digitChar (n % 10)]
termination_by n
decreasing_by omega

/-- The number written by a list of digits. -/
def value (digits : List Char) : Nat :=
  digits.foldl (fun n c => 10 * n + digitValue c) 0

/-- A nonempty list of ASCII digits and nothing else. -/
def isNumeral (chars : List Char) : Bool :=
  !chars.isEmpty && chars.all Char.isDigit

/-- Read a nonempty list of ASCII digits. -/
def parse? (chars : List Char) : Option Nat :=
  if isNumeral chars then some (value chars) else none

/-- Read digits that one plus sign may precede. -/
def parsePlus? : List Char → Option Nat
  | '+' :: digits => parse? digits
  | digits => parse? digits

/-- The digits of `n` as text. -/
def text (n : Nat) : String :=
  String.ofList (render n)

/-- The digits of `n`, zeros put in front up to the given width. -/
def padded (width n : Nat) : String :=
  let digits := render n
  String.ofList (List.replicate (width - digits.length) '0' ++ digits)

/-- An integer as text: a minus sign where it is negative, then digits. -/
def signed : Int → String
  | .ofNat n => text n
  | .negSucc n => "-" ++ text (n + 1)

/-- The two hexadecimal digits of a number below 256. -/
def hexPair (n : Nat) : List Char :=
  [Nat.digitChar (n / 16), Nat.digitChar (n % 16)]

end CodeLayout.Digits

namespace CodeLayout.Number

/-- The text without one sign at its start. -/
def unsigned : List Char → List Char
  | '+' :: rest => rest
  | '-' :: rest => rest
  | text => text

/-- The words, in lower case. -/
def words : List String := ["inf", "infinity", "nan"]

/-- Digits with at most one point, which needs a digit on one side. -/
def isDecimal (text : List Char) : Bool :=
  let whole := text.takeWhile Char.isDigit
  match text.dropWhile Char.isDigit with
  | [] => !whole.isEmpty
  | c :: places => c = '.' && places.all Char.isDigit && !(whole.isEmpty && places.isEmpty)

/-- The letter in front of a power of ten. -/
def isExponentMark (c : Char) : Bool :=
  c = 'e' || c = 'E'

/-- The text is a number. -/
def isNumber (text : List Char) : Bool :=
  let text := unsigned text
  let size := text.takeWhile fun c => !isExponentMark c
  let exponent := text.dropWhile fun c => !isExponentMark c
  words.contains (String.ofList (text.map Char.toLower)) ||
    isDecimal size && (exponent.isEmpty || Digits.isNumeral (unsigned (exponent.drop 1)))

end CodeLayout.Number
