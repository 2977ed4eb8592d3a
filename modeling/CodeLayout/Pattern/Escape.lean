import CodeLayout.Pattern
import CodeLayout.Text.Characters

/-!
# Single characters of patterns

Blanks and comments, which do not count where the flags say so, and what a
backslash makes of the characters behind it.
-/

namespace CodeLayout.Pattern

/-- Drop blanks and comments.  A comment starts with a number sign and ends with
its line; the flag says whether the text starts in one. -/
def dropSpace (inComment : Bool) : List Char → List Char
  | [] => []
  | c :: rest =>
    if inComment then dropSpace (c ≠ '\n') rest
    else if Blank.isBlank c then dropSpace false rest
    else if c = '#' then dropSpace true rest
    else c :: rest

/-- Drop what does not count. -/
def skip (spaced : Bool) (chars : List Char) : List Char :=
  if spaced then dropSpace false chars else chars

/-- The value of a hexadecimal digit. -/
def hexValue? (c : Char) : Option Nat :=
  if c.isDigit then some (c.toNat - '0'.toNat)
  else if 'a' ≤ c && c ≤ 'f' then some (c.toNat - 'a'.toNat + 10)
  else if 'A' ≤ c && c ≤ 'F' then some (c.toNat - 'A'.toNat + 10)
  else none

/-- Read a number of hexadecimal digits, behind a number already read. -/
def hex? (spaced : Bool) (read : Nat) : Nat → List Char → Option (Nat × List Char)
  | 0, chars => some (read, chars)
  | count + 1, chars =>
    match skip spaced chars with
    | [] => none
    | c :: rest =>
      match hexValue? c with
      | some digit => hex? spaced (16 * read + digit) count rest
      | none => none

/-- The character with a code, which is neither that of half a pair nor beyond
the last character. -/
def ofCode? (code : Nat) : Option Char :=
  if code.isValidChar then some (Char.ofNat code) else none

/-- What a character stands for. -/
inductive Meaning where
  | literal (l : Literal)
  | edge
  | wordEdge
  | shorthand (negated : Bool)

/-- The characters that letters behind a backslash stand for. -/
def controls : List (Char × Char) :=
  [('a', '\x07'), ('f', '\x0c'), ('t', '\t'), ('n', '\n'), ('r', '\r'), ('v', '\x0b')]

/-- The letters that announce a code, with the number of its digits. -/
def codes : List (Char × Nat) :=
  [('x', 2), ('u', 4), ('U', 8)]

/-- The character behind the backslash stands for itself: a sign of ASCII. -/
def isSign (c : Char) : Bool :=
  c.toNat < 128 && !c.isAlphanum && c ≠ '<' && c ≠ '>'

/-- Read what follows a backslash. -/
def escape? (spaced : Bool) : List Char → Option (Meaning × List Char)
  | [] => none
  | c :: rest =>
    match codes.lookup c, controls.lookup c with
    | some count, _ => do
      let (code, rest) ← hex? spaced 0 count rest
      let char ← ofCode? code
      some (.literal ⟨char, c = 'x'⟩, rest)
    | none, some char => some (.literal ⟨char, false⟩, rest)
    | none, none =>
      if ['A', 'z'].contains c then some (.edge, rest)
      else if ['b', 'B', '<', '>'].contains c then some (.wordEdge, rest)
      else if ['d', 's', 'w'].contains c then some (.shorthand false, rest)
      else if ['D', 'S', 'W'].contains c then some (.shorthand true, rest)
      else if isSign c then some (.literal ⟨c, false⟩, rest)
      else none

end CodeLayout.Pattern
