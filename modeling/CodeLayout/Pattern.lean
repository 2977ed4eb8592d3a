/-!
# Patterns

Regular expressions as trees.  Nothing is matched here: what counts is whether
a text is a pattern at all, whether its parts are supported under the flags
that hold where they stand, and how deep they are nested.
-/

namespace CodeLayout

/-- A character in a pattern. -/
structure Pattern.Literal where
  char : Char
  /-- It is written as the code of a byte. -/
  asByte : Bool
deriving DecidableEq, Repr

/-- A set of characters. -/
inductive Pattern.CharSet where
  | empty
  | literal (l : Literal)
  | range (first last : Literal)
  /-- A class of ASCII characters with a name, such as `alpha`. -/
  | named (negated : Bool)
  /-- A class with a letter, such as that of digits. -/
  | shorthand (negated : Bool)
  | bracket (negated : Bool) (inner : CharSet)
  | union (parts : List CharSet)
  /-- What two sets have in common, or one without the other, or what is in only
  one of them. -/
  | combination (left right : CharSet)

/-- What flags change. -/
inductive Pattern.Flag where
  | ignoreCase
  | multiLine
  | dotAll
  | lazy
  | unicode
  | carriageReturns
  /-- Blanks and comments do not count. -/
  | spaced
deriving DecidableEq, Repr

/-- A flag that is switched on or off. -/
structure Pattern.FlagChange where
  flag : Flag
  on : Bool
deriving DecidableEq, Repr

/-- A pattern. -/
inductive Pattern where
  | empty
  /-- Flags for what follows in the same group. -/
  | flags (changes : List Pattern.FlagChange)
  | literal (l : Pattern.Literal)
  | anyChar
  /-- A place at an end of a line or of the text. -/
  | edge
  /-- A place at an end of a word, or at none. -/
  | wordEdge
  | shorthand (negated : Bool)
  | set (s : Pattern.CharSet)
  | repetition (p : Pattern)
  /-- A part of its own, with the flags that hold in it only. -/
  | group (changes : List Pattern.FlagChange) (p : Pattern)
  | sequence (parts : List Pattern)
  | alternation (branches : List Pattern)

namespace Pattern

namespace CharSet

/-- The union of sets; one alone stands for itself. -/
def ofParts : List CharSet → CharSet
  | [] => empty
  | [s] => s
  | parts => union parts

mutual

/-- How deep brackets, unions and combinations are nested. -/
def depth : CharSet → Nat
  | bracket _ inner => depth inner + 1
  | union parts => depthOf parts + 1
  | combination left right => max (depth left) (depth right) + 1
  | _ => 0

/-- The depth of the deepest of some sets. -/
def depthOf : List CharSet → Nat
  | [] => 0
  | s :: rest => max (depth s) (depthOf rest)

end

end CharSet

/-- One pattern after the other; one alone stands for itself. -/
def ofParts : List Pattern → Pattern
  | [] => empty
  | [p] => p
  | parts => sequence parts

/-- A choice of patterns; one alone stands for itself. -/
def ofBranches : List Pattern → Pattern
  | [p] => p
  | branches => alternation branches

/-- A repetition can follow everything but flags. -/
def isRepeatable : Pattern → Bool
  | empty | flags _ => false
  | _ => true

mutual

/-- How deep the parts are nested. -/
def depth : Pattern → Nat
  | set s => s.depth
  | repetition p | group _ p => depth p + 1
  | sequence parts => depthOf parts + 1
  | alternation branches => depthOf branches + 1
  | _ => 0

/-- The depth of the deepest of some patterns. -/
def depthOf : List Pattern → Nat
  | [] => 0
  | p :: rest => max (depth p) (depthOf rest)

end

/-- Deepest nesting of a pattern. -/
def maxDepth : Nat := 250

end Pattern

end CodeLayout
