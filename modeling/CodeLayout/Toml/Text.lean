import CodeLayout.Toml.Reader

/-!
# Quoted texts

Four kinds of quotes: double quotes with escapes, single quotes without, and
both of them tripled, between which a text may have several lines.  A text is
read in two steps: first its extent, up to the closing quotes, then its
meaning.
-/

namespace CodeLayout.Toml

namespace Quoted

/-- Where a text with escapes ends. -/
def extent : List Char → Option (List Char × List Char)
  | '"' :: rest => some ([], rest)
  | '\\' :: c :: rest => (extent rest).map fun (s, rest) => ('\\' :: c :: s, rest)
  | c :: rest => (extent rest).map fun (s, rest) => (c :: s, rest)
  | [] => none

/-- Where a text without escapes ends. -/
def literalExtent : List Char → Option (List Char × List Char)
  | '\'' :: rest => some ([], rest)
  | c :: rest => (literalExtent rest).map fun (s, rest) => (c :: s, rest)
  | [] => none

/-- Where a text with escapes between tripled quotes ends.  Up to two quotes in
front of the closing ones belong to the text. -/
def longExtent : List Char → Option (List Char × List Char)
  | '"' :: '"' :: '"' :: '"' :: '"' :: rest => some (['"', '"'], rest)
  | '"' :: '"' :: '"' :: '"' :: rest => some (['"'], rest)
  | '"' :: '"' :: '"' :: rest => some ([], rest)
  | '\\' :: c :: rest => (longExtent rest).map fun (s, rest) => ('\\' :: c :: s, rest)
  | c :: rest => (longExtent rest).map fun (s, rest) => (c :: s, rest)
  | [] => none

/-- Where a text without escapes between tripled quotes ends. -/
def longLiteralExtent : List Char → Option (List Char × List Char)
  | '\'' :: '\'' :: '\'' :: '\'' :: '\'' :: rest => some (['\'', '\''], rest)
  | '\'' :: '\'' :: '\'' :: '\'' :: rest => some (['\''], rest)
  | '\'' :: '\'' :: '\'' :: rest => some ([], rest)
  | c :: rest => (longLiteralExtent rest).map fun (s, rest) => (c :: s, rest)
  | [] => none

/-- The value of a hexadecimal digit. -/
def hexDigit? (c : Char) : Option Nat :=
  if c.isDigit then some (c.toNat - '0'.toNat)
  else if 'a' ≤ c ∧ c ≤ 'f' then some (c.toNat - 'a'.toNat + 10)
  else if 'A' ≤ c ∧ c ≤ 'F' then some (c.toNat - 'A'.toNat + 10)
  else none

/-- The character whose code is written by hexadecimal digits. -/
def codedChar? (digits : List Char) : Option Char := do
  let values ← digits.mapM hexDigit?
  let code := values.foldl (fun n d => 16 * n + d) 0
  if code.isValidChar then some (Char.ofNat code) else none

/-- The character that a backslash and a letter stand for. -/
def escaped? : Char → Option Char
  | 'b' => some '\x08'
  | 't' => some '\t'
  | 'n' => some '\n'
  | 'f' => some '\x0c'
  | 'r' => some '\r'
  | '"' => some '"'
  | '\\' => some '\\'
  | _ => none

/-- Between a backslash at the end of a line and the next character that is not
blank: the line end is still to come, or it has been seen. -/
inductive Fold where
  | none
  | before
  | behind
deriving DecidableEq

/-- The meaning of a text with escapes.  With `long` it may have several lines,
and a backslash at the end of a line does away with all blanks and line ends
that follow. -/
def meaning (long : Bool) : Fold → List Char → Option (List Char)
  | .before, [] => none
  | _, [] => some []
  | fold, '\n' :: rest =>
    if !long then none
    else if fold = .none then (meaning long .none rest).map ('\n' :: ·)
    else meaning long .behind rest
  | fold, '\r' :: '\n' :: rest =>
    if !long then none
    else if fold = .none then (meaning long .none rest).map ('\n' :: ·)
    else meaning long .behind rest
  | .before, c :: rest => if c = ' ' || c = '\t' then meaning long .before rest else none
  | _, '\\' :: 'u' :: a :: b :: c :: d :: rest => do
    let x ← codedChar? [a, b, c, d]
    (meaning long .none rest).map (x :: ·)
  | _, '\\' :: 'U' :: a :: b :: c :: d :: e :: f :: g :: h :: rest => do
    let x ← codedChar? [a, b, c, d, e, f, g, h]
    (meaning long .none rest).map (x :: ·)
  | _, '\\' :: '\r' :: '\n' :: rest => if long then meaning long .behind rest else none
  | _, '\\' :: c :: rest =>
    match escaped? c with
    | some x => (meaning long .none rest).map (x :: ·)
    | none =>
      if !long then none
      else if c = '\n' then meaning long .behind rest
      else if c = ' ' || c = '\t' then meaning long .before rest
      else none
  | fold, c :: rest =>
    if fold = .behind && (c = ' ' || c = '\t') then meaning long .behind rest
    else if Reader.isPrintable c && c ≠ '\\' then (meaning long .none rest).map (c :: ·)
    else none

/-- The meaning of a text without escapes. -/
def literalMeaning (long : Bool) : List Char → Option (List Char)
  | [] => some []
  | '\n' :: rest => if long then (literalMeaning long rest).map ('\n' :: ·) else none
  | '\r' :: '\n' :: rest => if long then (literalMeaning long rest).map ('\n' :: ·) else none
  | c :: rest =>
    if Reader.isPrintable c then (literalMeaning long rest).map (c :: ·) else none

/-- A line end right behind the opening quotes does not count. -/
def dropFirstNewline : List Char → List Char
  | '\n' :: rest => rest
  | '\r' :: '\n' :: rest => rest
  | s => s

end Quoted

namespace Reader

/-- Take a text whose extent is found by one function and whose meaning by
another. -/
def quoted (extent : List Char → Option (List Char × List Char))
    (meaning : List Char → Option (List Char)) : Reader String := do
  let inner ← (extent : Reader (List Char))
  match meaning inner with
  | some s => return String.ofList s
  | none => failure

/-- Take a text between quotes on one line. -/
def shortText : Reader String := do
  if ← accept '"' then quoted Quoted.extent (Quoted.meaning false .none)
  else
    expect '\''
    quoted Quoted.literalExtent (Quoted.literalMeaning false)

/-- Take a text between quotes of any kind. -/
def text : Reader String := do
  match ← get with
  | '"' :: '"' :: '"' :: rest =>
    set rest
    quoted Quoted.longExtent fun s => Quoted.meaning true .none (Quoted.dropFirstNewline s)
  | '\'' :: '\'' :: '\'' :: rest =>
    set rest
    quoted Quoted.longLiteralExtent fun s =>
      Quoted.literalMeaning true (Quoted.dropFirstNewline s)
  | _ => shortText

/-- The character may stand in a name without quotes. -/
def isBare (c : Char) : Bool :=
  c.isAlphanum || c = '_' || c = '-'

/-- Take one name. -/
def name : Reader String := do
  match ← peek with
  | some '"' | some '\'' => shortText
  | _ =>
    let chars ← span isBare
    if chars.isEmpty then failure else return String.ofList chars

/-- Take names with points between them, at most so many. -/
def names : Nat → Reader (List String)
  | 0 => failure
  | limit + 1 => do
    blanks
    let first ← name
    blanks
    if ← accept '.' then return first :: (← names limit) else return [first]

/-- Values may be nested less deep than this, and paths are shorter. -/
def maxDepth : Nat := 80

/-- Take a path of names. -/
def path : Reader (List String) :=
  names (maxDepth - 1)

end Reader

end CodeLayout.Toml
