import CodeLayout.Pattern.Bracket
import CodeLayout.Pattern.Mode
import CodeLayout.Text.Characters

/-!
# Reading patterns

Alternatives between bars, each of them a row of items.  An item is a character,
a set in brackets, a group in parentheses, or flags, and signs behind it repeat
it.  Braces would repeat a number of times; there are none.
-/

namespace CodeLayout.Pattern

namespace Flag

/-- The letter of a flag. -/
def ofChar? : Char → Option Flag
  | 'i' => some ignoreCase
  | 'm' => some multiLine
  | 's' => some dotAll
  | 'U' => some lazy
  | 'u' => some unicode
  | 'R' => some carriageReturns
  | 'x' => some spaced
  | _ => none

end Flag

/-- Flags while they are read, latest first. -/
structure OpenFlags where
  changes : List FlagChange
  /-- A hyphen has been read, and the flags behind it are switched off. -/
  negated : Bool
  /-- The hyphen has been read last. -/
  dangling : Bool

namespace OpenFlags

def start : OpenFlags := ⟨[], false, false⟩

/-- Read one sign; each flag and the hyphen may stand once. -/
def add? (o : OpenFlags) (c : Char) : Option OpenFlags :=
  if c = '-' then if o.negated then none else some { o with negated := true, dangling := true }
  else
    match Flag.ofChar? c with
    | some flag =>
      if o.changes.any fun change => change.flag = flag then none
      else some { o with changes := ⟨flag, !o.negated⟩ :: o.changes, dangling := false }
    | none => none

end OpenFlags

/-- Read flags up to a colon or a closing parenthesis, which is returned with what
follows it. -/
def flags? (o : OpenFlags) : List Char → Option (List FlagChange × Char × List Char)
  | [] => none
  | c :: rest =>
    if c = ':' || c = ')' then if o.dangling then none else some (o.changes.reverse, c, rest)
    else
      match o.add? c with
      | some o => flags? o rest
      | none => none

/-- The character may start the name of a group. -/
def startsName (c : Char) : Bool :=
  c = '_' || Alphabetic.isAlphabetic c

/-- The character may stand in the name of a group. -/
def continuesName (c : Char) : Bool :=
  c = '_' || c = '.' || c = '[' || c = ']' || Alphanumeric.isAlphanumeric c

/-- Read the name of a group up to the sign that ends it. -/
def name? (chars : List Char) : Option (List Char × List Char) :=
  let name := chars.takeWhile fun c => c ≠ '>'
  match name, chars.dropWhile fun c => c ≠ '>' with
  | c :: others, _ :: rest =>
    if startsName c && others.all continuesName then some (name, rest) else none
  | _, _ => none

/-- What is left of a pattern, and what has been said that counts for it. -/
structure Reading where
  rest : List Char
  /-- Blanks and comments do not count. -/
  spaced : Bool
  /-- The names of the groups so far. -/
  names : List (List Char)

namespace Reading

/-- Go on behind flags. -/
def change (r : Reading) (changes : List FlagChange) : Reading :=
  match changes.find? fun change => change.flag = .spaced with
  | some change => { r with spaced := change.on }
  | none => r

end Reading

/-- The alternatives of a group while they are read, latest first. -/
structure OpenGroup where
  branches : List Pattern
  /-- The items of the last alternative. -/
  parts : List Pattern

namespace OpenGroup

def start : OpenGroup := ⟨[], []⟩

def add (o : OpenGroup) (p : Pattern) : OpenGroup :=
  { o with parts := p :: o.parts }

/-- Go on with another alternative. -/
def branch (o : OpenGroup) : OpenGroup :=
  ⟨Pattern.ofParts o.parts.reverse :: o.branches, []⟩

/-- Repeat the last item. -/
def repeat? (o : OpenGroup) : Option OpenGroup :=
  match o.parts with
  | p :: parts => if p.isRepeatable then some { o with parts := .repetition p :: parts } else none
  | [] => none

def toPattern (o : OpenGroup) : Pattern :=
  Pattern.ofBranches o.branch.branches.reverse

end OpenGroup

/-- The start of a group: flags alone, or what a group begins with. -/
inductive GroupStart where
  | flags (changes : List FlagChange)
  | group (changes : List FlagChange)

/-- Read what follows the parenthesis that opens a group.  A name may be given
once. -/
def groupStart? (r : Reading) : Option (GroupStart × Reading) :=
  let named (chars : List Char) : Option (GroupStart × Reading) := do
    let (name, rest) ← name? chars
    if r.names.contains name then none
    else some (.group [], { r with rest, names := name :: r.names })
  match skip r.spaced r.rest with
  | '?' :: '=' :: _ | '?' :: '!' :: _ | '?' :: '<' :: '=' :: _ | '?' :: '<' :: '!' :: _ => none
  | '?' :: 'P' :: '<' :: chars => named chars
  | '?' :: '<' :: chars => named chars
  | '?' :: chars => do
    let (changes, stop, rest) ← flags? .start chars
    if stop = ':' then some (.group changes, { r with rest })
    else if changes.isEmpty then none
    else some (.flags changes, { r with rest })
  | rest => some (.group [], { r with rest })

/-- What a character or an escape stands for outside brackets. -/
def Meaning.toPattern : Meaning → Pattern
  | literal l => .literal l
  | edge => .edge
  | wordEdge => .wordEdge
  | shorthand negated => .shorthand negated

/-- Read one item that is neither a group nor a repetition. -/
def item? (spaced : Bool) (c : Char) (rest : List Char) : Option (Pattern × List Char) :=
  match c with
  | '[' => (bracket? spaced rest).map fun (s, rest) => (.set s, rest)
  | '\\' => (escape? spaced rest).map fun (m, rest) => (m.toPattern, rest)
  | '.' => some (.anyChar, rest)
  | '^' | '$' => some (.edge, rest)
  | c => if c = '\x7b' then none else some (.literal ⟨c, false⟩, rest)

/-- The rest behind a sign of repetition, which a question mark may follow. -/
def behindRepetition (rest : List Char) : List Char :=
  if rest.head? = some '?' then rest.drop 1 else rest

/-- Read items up to a closing parenthesis, which is left, or to the end.  Each
step takes a character, so the limit is the number of characters. -/
def read? : Nat → OpenGroup → Reading → Option (Pattern × Reading)
  | 0, _, _ => none
  | limit + 1, o, r =>
    match skip r.spaced r.rest with
    | [] => some (o.toPattern, { r with rest := [] })
    | c :: rest =>
      if c = ')' then some (o.toPattern, { r with rest := c :: rest })
      else if c = '|' then read? limit o.branch { r with rest }
      else if c = '*' || c = '+' || c = '?' then
        match o.repeat? with
        | some o => read? limit o { r with rest := behindRepetition rest }
        | none => none
      else if c = '(' then
        match groupStart? { r with rest } with
        | none => none
        | some (.flags changes, inner) =>
          read? limit (o.add (.flags changes)) (inner.change changes)
        | some (.group changes, inner) =>
          match read? limit .start (inner.change changes) with
          | some (p, { rest := ')' :: rest, names, .. }) =>
            read? limit (o.add (.group changes p)) { r with rest, names }
          | _ => none
      else
        match item? r.spaced c rest with
        | some (p, rest) => read? limit (o.add p) { r with rest }
        | none => none

/-- Read a whole text as a pattern. -/
def ofText? (text : List Char) : Option Pattern :=
  match read? (text.length + 1) .start ⟨text, false, []⟩ with
  | some (p, { rest := [], .. }) => some p
  | _ => none

/-- The text is a pattern, and all of it is supported. -/
def isPattern (text : List Char) : Bool :=
  (ofText? text).any isSupported

end CodeLayout.Pattern
