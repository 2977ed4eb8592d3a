/-!
# Readers

A reader takes something from the front of a text and leaves the rest, or fails
and takes nothing.
-/

namespace CodeLayout.Toml

/-- Takes an `α` from the front of the characters. -/
abbrev Reader := StateT (List Char) Option

namespace Reader

/-- The character in front, which is left there. -/
def peek : Reader (Option Char) := do
  return (← get).head?

/-- Nothing is left. -/
def atEnd : Reader Bool := do
  return (← get).isEmpty

/-- Take one given character. -/
def expect (c : Char) : Reader Unit := fun
  | x :: rest => if x = c then some ((), rest) else none
  | [] => none

/-- Take a given character if it stands in front, and say whether it did. -/
def accept (c : Char) : Reader Bool := do
  if (← peek) = some c then
    expect c
    return true
  else return false

/-- Take characters as long as they are of a class. -/
def span (p : Char → Bool) : Reader (List Char) := fun s =>
  some (s.takeWhile p, s.dropWhile p)

/-- Take one item and those that follow it, with commas between them and `gap`
around them, up to the closing character.  Each item but the last is followed
by a comma, so no list has more items than characters are left. -/
def items (close : Char) (trailing : Bool) (gap : Reader Unit) (item : Reader α) :
    Nat → Reader (List α)
  | 0 => failure
  | limit + 1 => do
    let first ← item
    gap
    if ← accept close then return [first]
    expect ','
    gap
    if trailing then
      if ← accept close then return [first]
    return first :: (← items close trailing gap item limit)

/-- Take a list of items up to its closing character.  With `trailing` a comma
may follow the last item. -/
def enclosed (close : Char) (trailing : Bool) (gap : Reader Unit) (item : Reader α) :
    Reader (List α) := do
  gap
  if ← accept close then return []
  items close trailing gap item (← get).length

/-- Take blanks and tabs. -/
def blanks : Reader Unit := do
  let _ ← span fun c => c = ' ' || c = '\t'

/-- Take the end of a line, with or without a carriage return. -/
def newline : Reader Unit := do
  let _ ← accept '\r'
  expect '\n'

/-- The character may stand in a comment or a text; control characters other
than the tab may not. -/
def isPrintable (c : Char) : Bool :=
  c = '\t' || (decide (32 ≤ c.toNat) && c.toNat != 127)

/-- Take blanks and a comment, if there is one. -/
def comment : Reader Unit := do
  blanks
  if ← accept '#' then
    let _ ← span isPrintable

/-- Take the rest of a line that holds nothing but blanks and a comment. -/
def endOfLine : Reader Unit := do
  comment
  unless ← atEnd do newline

/-- Take empty lines and comments, at most so many. -/
def gapLines : Nat → Reader Unit
  | 0 => pure ()
  | limit + 1 => do
    comment
    match ← peek with
    | some '\n' | some '\r' =>
      newline
      gapLines limit
    | _ => pure ()

/-- Take everything without meaning between the items of a list. -/
def gap : Reader Unit := do
  gapLines ((← get).length + 1)

end Reader

end CodeLayout.Toml
