import CodeLayout.Pattern.Escape

/-!
# Sets in brackets

Characters, ranges of characters, classes with names, and sets inside sets.  Two
signs of one kind between them make a combination, and all that stands between
these signs is one union.
-/

namespace CodeLayout.Pattern

/-- The names of the classes of ASCII characters. -/
def asciiNames : List String :=
  ["alnum", "alpha", "ascii", "blank", "cntrl", "digit", "graph", "lower", "print", "punct",
   "space", "upper", "word", "xdigit"]

/-- Read a class with a name, behind its bracket: the name between colons, with
a caret in front where the class is negated. -/
def namedClass? (chars : List Char) : Option (CharSet × List Char) :=
  match chars with
  | ':' :: rest =>
    let negated := rest.head? = some '^'
    let rest := if negated then rest.drop 1 else rest
    let name := String.ofList (rest.takeWhile fun c => c ≠ ':')
    match rest.dropWhile fun c => c ≠ ':' with
    | ':' :: ']' :: rest => if asciiNames.contains name then some (.named negated, rest) else none
    | _ => none
  | _ => none

/-- A character that may be an end of a range, or a class. -/
def member? (spaced : Bool) : List Char → Option (Meaning × List Char)
  | [] => none
  | '\\' :: rest => escape? spaced rest
  | c :: rest => some (.literal ⟨c, false⟩, rest)

/-- The first character that is no blank, or in a comment the first that is none
behind its sign. -/
def firstMark? (inComment : Bool) : List Char → Option Char
  | [] => none
  | c :: rest =>
    if Blank.isBlank c then firstMark? inComment rest
    else if c = '#' && !inComment then firstMark? true rest
    else some c

/-- The character that decides what a hyphen in front of it means. -/
def following? (spaced : Bool) (chars : List Char) : Option Char :=
  if spaced then (firstMark? false chars).or chars.head? else chars.head?

/-- The set of one character or class. -/
def single? : Meaning → Option CharSet
  | .literal l => some (.literal l)
  | .shorthand negated => some (.shorthand negated)
  | .edge | .wordEdge => none

/-- The range between two characters, which has to lead upwards. -/
def range? : Meaning → Meaning → Option CharSet
  | .literal first, .literal last =>
    if first.char ≤ last.char then some (.range first last) else none
  | _, _ => none

/-- Read a character, a class, or a range.  A hyphen in front of the closing
bracket or of another hyphen makes no range. -/
def part? (spaced : Bool) (chars : List Char) : Option (CharSet × List Char) := do
  let (first, rest) ← member? spaced chars
  match skip spaced rest with
  | '-' :: behind =>
    let next := following? spaced behind
    if next = some ']' || next = some '-' then (← single? first, '-' :: behind)
    else
      let (last, rest) ← member? spaced (skip spaced behind)
      (← range? first last, rest)
  | rest => (← single? first, rest)

/-- The part of a set in brackets that has been read. -/
structure OpenSet where
  /-- Only hyphens have been read. -/
  atStart : Bool
  /-- What stands in front of the last sign of a combination. -/
  left : Option CharSet
  /-- The members behind it, latest first. -/
  parts : List CharSet

namespace OpenSet

def start : OpenSet := ⟨true, none, []⟩

def add (o : OpenSet) (s : CharSet) : OpenSet :=
  { o with atStart := false, parts := s :: o.parts }

/-- The set as far as it has been read. -/
def toSet (o : OpenSet) : CharSet :=
  let right := CharSet.ofParts o.parts.reverse
  match o.left with
  | some left => .combination left right
  | none => right

/-- Go on with the other side of a combination. -/
def combine (o : OpenSet) : OpenSet :=
  ⟨false, some o.toSet, []⟩

end OpenSet

/-- Two signs that make a combination. -/
def isCombining (a b : Char) : Bool :=
  a = b && ['&', '-', '~'].contains a

/-- The sign that negates a set, and what follows it. -/
def negation (spaced : Bool) (chars : List Char) : Bool × List Char :=
  match skip spaced chars with
  | '^' :: rest => (true, rest)
  | rest => (false, rest)

/-- Read the rest of a set up to its closing bracket.  At the start hyphens and a
closing bracket are members.  Each step takes a character, so the limit is the
number of characters. -/
def members? (spaced : Bool) : Nat → OpenSet → List Char → Option (CharSet × List Char)
  | 0, _, _ => none
  | limit + 1, o, chars =>
    match skip spaced chars with
    | [] => none
    | ']' :: rest =>
      if o.atStart && o.parts.isEmpty then
        members? spaced limit (o.add (.literal ⟨']', false⟩)) rest
      else some (o.toSet, rest)
    | '[' :: rest =>
      match namedClass? rest with
      | some (s, rest) => members? spaced limit (o.add s) rest
      | none =>
        let (negated, rest) := negation spaced rest
        match members? spaced limit .start rest with
        | some (inner, rest) => members? spaced limit (o.add (.bracket negated inner)) rest
        | none => none
    | c :: rest =>
      if o.atStart && c = '-' then
        members? spaced limit { o with parts := .literal ⟨'-', false⟩ :: o.parts } rest
      else if rest.head?.any (isCombining c) then members? spaced limit o.combine (rest.drop 1)
      else
        match part? spaced (c :: rest) with
        | some (s, rest) => members? spaced limit (o.add s) rest
        | none => none

/-- Read a set behind its opening bracket. -/
def bracket? (spaced : Bool) (chars : List Char) : Option (CharSet × List Char) := do
  let (negated, rest) := negation spaced chars
  let (inner, rest) ← members? spaced (chars.length + 1) .start rest
  return (.bracket negated inner, rest)

end CodeLayout.Pattern
