import CodeLayout.Pattern

/-!
# Modes

What flags say about characters, and which parts of a pattern are supported
under them.  There are no tables of the characters beyond ASCII: a pattern about
characters has no classes with letters, does not ignore case and knows no
words, and one about bytes stays with those of ASCII.
-/

namespace CodeLayout.Pattern

/-- The flags that decide what is supported. -/
structure Mode where
  unicode : Bool
  ignoreCase : Bool
deriving DecidableEq, Repr

namespace Mode

/-- The flags at the start of a pattern. -/
def initial : Mode := ⟨true, false⟩

def change (m : Mode) (c : FlagChange) : Mode :=
  match c.flag with
  | .unicode => { m with unicode := c.on }
  | .ignoreCase => { m with ignoreCase := c.on }
  | _ => m

def changeAll (m : Mode) (changes : List FlagChange) : Mode :=
  changes.foldl change m

/-- The character is one of ASCII. -/
def isAscii (c : Char) : Bool :=
  c.toNat < 128

/-- A character alone.  As the code of a byte it must be one of ASCII, unless
the pattern is about characters. -/
def admitsLiteral (m : Mode) (l : Literal) : Bool :=
  if m.unicode then !m.ignoreCase else !l.asByte || isAscii l.char

/-- A character in a set. -/
def admitsMember (m : Mode) (l : Literal) : Bool :=
  if m.unicode then !m.ignoreCase else isAscii l.char

/-- A class of ASCII characters with a name. -/
def admitsNamed (m : Mode) (negated : Bool) : Bool :=
  if m.unicode then !m.ignoreCase else !negated

/-- A class with a letter. -/
def admitsShorthand (m : Mode) (negated : Bool) : Bool :=
  !m.unicode && !negated

mutual

/-- The set is supported. -/
def admitsSet (m : Mode) : CharSet → Bool
  | .empty => true
  | .literal l => m.admitsMember l
  | .range first last => m.admitsMember first && m.admitsMember last
  | .named negated => m.admitsNamed negated
  | .shorthand negated => m.admitsShorthand negated
  | .bracket negated inner => (m.unicode || !negated) && m.admitsSet inner
  | .union parts => m.admitsSets parts
  | .combination left right => m.admitsSet left && m.admitsSet right

/-- All of the sets are supported. -/
def admitsSets (m : Mode) : List CharSet → Bool
  | [] => true
  | s :: rest => m.admitsSet s && m.admitsSets rest

end

/-- The mode, if something is supported in it. -/
def when (m : Mode) (supported : Bool) : Option Mode :=
  if supported then some m else none

mutual

/-- The mode behind a pattern, if the pattern is supported. -/
def after? (m : Mode) : Pattern → Option Mode
  | .empty | .edge => some m
  | .flags changes => some (m.changeAll changes)
  | .literal l => m.when (m.admitsLiteral l)
  | .anyChar => m.when m.unicode
  | .wordEdge => m.when (!m.unicode)
  | .shorthand negated => m.when (m.admitsShorthand negated)
  | .set s => m.when (m.admitsSet s)
  | .repetition p => m.after? p
  | .group changes p => ((m.changeAll changes).after? p).map fun _ => m
  | .sequence parts => m.afterAll? parts
  | .alternation branches => m.afterAll? branches

/-- The mode behind some patterns, read one after the other. -/
def afterAll? (m : Mode) : List Pattern → Option Mode
  | [] => some m
  | p :: rest =>
    match m.after? p with
    | some m => m.afterAll? rest
    | none => none

end

end Mode

/-- All parts of the pattern are supported. -/
def isSupported (p : Pattern) : Bool :=
  (Mode.initial.after? p).isSome && decide (p.depth ≤ maxDepth)

end CodeLayout.Pattern
