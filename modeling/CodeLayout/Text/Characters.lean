import CodeLayout.Text.Alphabetic
import CodeLayout.Text.Digits
import CodeLayout.Text.Numeric

/-!
# Kinds of characters

Letters and numbers of all scripts together, the blanks, and the characters that a
terminal would act upon.
-/

namespace CodeLayout

/-! ## Letters and numbers -/

namespace Alphanumeric

/-- The character is a letter or a number of some script. -/
def isAlphanumeric (c : Char) : Bool :=
  Alphabetic.isAlphabetic c || Numeric.isNumeric c

end Alphanumeric

/-! ## Blanks -/

namespace Blank

/-- First and last characters of the ranges with the property `White_Space`. -/
def ranges : List (Nat × Nat) :=
  [(0x9, 0xD), (0x20, 0x20), (0x85, 0x85), (0xA0, 0xA0), (0x1680, 0x1680), (0x2000, 0x200A),
   (0x2028, 0x2029), (0x202F, 0x202F), (0x205F, 0x205F), (0x3000, 0x3000)]

/-- The character is a blank. -/
def isBlank (c : Char) : Bool :=
  ranges.any fun (first, last) => first ≤ c.toNat && c.toNat ≤ last

/-- `text` without the blanks at its two ends. -/
def trim (text : List Char) : List Char :=
  ((text.dropWhile isBlank).reverse.dropWhile isBlank).reverse

end Blank

/-! ## Control characters -/

namespace Control

/-- The characters with codes of two digits. -/
def short : List Char := ['\x07', '\x08', '\x0c', '\x1b', '\x7f']

/-- The character is in the second block of control characters. -/
def isHigh (c : Char) : Bool :=
  0x80 ≤ c.toNat && c.toNat ≤ 0x9f

/-- A character as it is shown: one that a terminal would act upon by its code. -/
def show_ (c : Char) : List Char :=
  if short.contains c then ['\\', 'x'] ++ Digits.hexPair c.toNat
  else if isHigh c then ['\\', 'u', '\x7b'] ++ Digits.hexPair c.toNat ++ ['\x7d']
  else [c]

/-- A text without characters that a terminal would act upon. -/
def visible (text : String) : String :=
  String.ofList (text.toList.flatMap show_)

end Control

end CodeLayout
