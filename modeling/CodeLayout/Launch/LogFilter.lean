import CodeLayout.Event.Log
import CodeLayout.Pattern.Reader
import CodeLayout.Text.Characters
import CodeLayout.Text.Fields

/-!
# Log filters

A filter decides by the target of a line, by its fields, and by its level,
whether the line is shown.  It is written as rules separated by commas: a level
for everything, or a target with an equals sign and a level.  A bracket behind
the target makes a rule about spans, or with braces in it about lines that have
a field.  No line is in a span, so a rule about spans covers none.

Of the rules that cover a line the one that tells most counts, and of two that
tell as much the later one.
-/

namespace CodeLayout

/-- One rule of a filter. -/
structure LogFilter.Rule where
  /-- What the targets begin with; the empty text stands for every target. -/
  target : String
  /-- Name of a field that the lines have. -/
  field : Option String
  /-- Least severe level that is shown; with none, nothing is. -/
  level : Option Level
  /-- The rule is about spans. -/
  forSpans : Bool
deriving DecidableEq, Repr

/-- What is wrong with a rule that cannot be read. -/
inductive LogFilter.Fault where
  | form
  | level
deriving DecidableEq, Repr

/-- A filter as the list of its rules. -/
structure LogFilter where
  rules : List LogFilter.Rule
deriving DecidableEq, Repr

namespace LogFilter

def Fault.message : Fault → String
  | form => "invalid filter directive"
  | level =>
    "error parsing level filter: expected one of \"off\", \"error\", \"warn\", \"info\", " ++
      "\"debug\", \"trace\", or a number 0-5"

/-- The level words, their numbers, and `off`. -/
def levels : List (String × Option Level) :=
  [("off", none), ("error", some .error), ("warn", some .warn), ("info", some .info),
   ("debug", some .debug), ("trace", some .trace)]

/-- Read a level: a word in any mixture of upper and lower case, or a number
from zero, which is `off`, to five. -/
def readLevel? (text : List Char) : Option (Option Level) :=
  match Digits.parsePlus? text with
  | some n => (levels[n]?).map Prod.snd
  | none => levels.lookup (String.ofList (text.map Char.toLower))

/-- The target of a rule starts with a letter or a digit, a hyphen, an
underscore or a colon. -/
def startsTarget (c : Char) : Bool :=
  Alphanumeric.isAlphanumeric c || c = '-' || c = '_' || c = ':'

/-- The bytes of a text, of each character all but the first without it. -/
def bytesOf (text : List Char) : List (Option Char) :=
  text.flatMap fun c => some c :: List.replicate (c.utf8Size - 1) none

/-- What is left of a rule while it is read.  How the rule goes on is decided
without the blanks around it, but what is kept is taken from the rule with
them, as many bytes at a time. -/
structure Rest where
  deciding : List Char
  bytes : List (Option Char)

namespace Rest

def ofRule (text : List Char) : Rest :=
  ⟨Blank.trim text, bytesOf text⟩

/-- All that is kept. -/
def kept (r : Rest) : List Char :=
  r.bytes.filterMap id

/-- What is left behind some characters of those that decide. -/
def skip (r : Rest) (chars : List Char) : Rest :=
  ⟨r.deciding.drop chars.length, r.bytes.drop (bytesOf chars).length⟩

/-- The next character and what is left behind it. -/
def next? (r : Rest) : Option (Char × Rest) :=
  r.deciding.head?.map fun c => (c, r.skip [c])

/-- What is kept in front of the first of some characters, and what is left from
there. -/
def upTo (r : Rest) (stops : List Char) : List Char × Rest :=
  let chars := r.deciding.takeWhile fun c => !stops.contains c
  ((r.bytes.take (bytesOf chars).length).filterMap id, r.skip chars)

/-- What is left behind a character that has to come next. -/
def behind (r : Rest) (c : Char) : Except Fault Rest :=
  match r.next? with
  | some (d, rest) => if d = c then .ok rest else .error .form
  | none => .error .form

end Rest

/-- Give a rule its level; where none is written, every level is shown. -/
def Rule.withLevel (r : Rule) (level : List Char) : Except Fault Rule :=
  if level.isEmpty then .ok { r with level := some .trace }
  else
    match readLevel? level with
    | some level => .ok { r with level }
    | none => .error .level

/-- Read a field: a name, and behind an equals sign a value, which is a number or
a pattern.  Only fields of spans have values to look at. -/
def Rule.withField (r : Rule) (text : List Char) : Except Fault Rule :=
  match Fields.split '=' text with
  | name :: value :: _ =>
    if Number.isNumber value || Pattern.isPattern value then
      .ok { r with field := some (String.ofList name), forSpans := true }
    else .error .form
  | _ =>
    if text.isEmpty then .error .form else .ok { r with field := some (String.ofList text) }

/-- Read what follows the bracket behind a target: the name of a span, or a field
in braces, or both; then, behind an equals sign, the level. -/
def Rule.withScope (r : Rule) (rest : Rest) : Except Fault Rule := do
  let (span, rest) := rest.upTo [']', '\x7b']
  let (c, rest) ← (rest.next?).elim (.error .form) .ok
  let (r, rest) ←
    if c = ']' then pure ({ r with forSpans := true }, rest)
    else do
      let (field, rest) := rest.upTo ['\x7d']
      let r ← { r with forSpans := !span.isEmpty }.withField field
      pure (r, ← (← rest.behind '\x7d').behind ']')
  match rest.next? with
  | none => .ok r
  | some _ => r.withLevel (← rest.behind '=').kept

/-- The rule for lines of a target, of every level. -/
def Rule.ofTarget (target : List Char) : Rule :=
  ⟨String.ofList target, none, some .trace, false⟩

/-- Read a rule.  A level alone is the rule for every target. -/
def readRule (text : List Char) : Except Fault Rule := do
  let start := Rest.ofRule text
  let (c, rest) ← (start.next?).elim (.error .form) .ok
  if c = '[' then (Rule.ofTarget []).withScope rest
  else if startsTarget c then
    let (target, rest) := start.upTo ['=', '[']
    match rest.next? with
    | none => (Rule.ofTarget []).withLevel text <|> pure (Rule.ofTarget text)
    | some (c, rest) =>
      if c = '=' then (Rule.ofTarget target).withLevel rest.kept
      else (Rule.ofTarget target).withScope rest
  else .error .form

/-- The rules as they are written one by one; empty ones are passed over. -/
def pieces (text : String) : List (List Char) :=
  (Fields.split ',' text.toList).filter fun piece => !piece.isEmpty

/-- A filter without rules shows errors. -/
def ofRules (rules : List Rule) : LogFilter :=
  ⟨if rules.isEmpty then [⟨"", none, some .error, false⟩] else rules⟩

/-- Read a filter in which every rule has to be right. -/
def ofText? (text : String) : Option LogFilter :=
  ((pieces text).mapM fun piece => (readRule piece).toOption).map ofRules

/-- Read a filter, passing over the rules that are not right. -/
def ofTextLoosely (text : String) : LogFilter :=
  ofRules ((pieces text).filterMap fun piece => (readRule piece).toOption)

/-- What is said about a rule that is passed over. -/
def complaint? (piece : List Char) : Option String :=
  match readRule piece with
  | .ok _ => none
  | .error fault => some ("ignoring `" ++ String.ofList piece ++ "`: " ++ fault.message)

/-- What is said about all the rules that are passed over. -/
def complaints (text : String) : List String :=
  (pieces text).filterMap complaint?

/-- The rule is about a line. -/
def Rule.covers (r : Rule) (line : LogLine) : Bool :=
  !r.forSpans && r.target.toList.isPrefixOf line.target.toList &&
    r.field.all fun name => line.fields.contains name

/-- The rule tells less than another, or as much.  A longer target tells most,
then a field, and of two fields the one that comes later. -/
def Rule.within (a b : Rule) : Bool :=
  a.target.length < b.target.length ||
    (a.target.length = b.target.length && a.field.all fun x => b.field.any fun y => x ≤ y)

/-- The rule that decides about a line. -/
def deciding? (f : LogFilter) (line : LogLine) : Option Rule :=
  (f.rules.filter (·.covers line)).foldl
    (fun found r => if found.all (·.within r) then some r else found) none

/-- The line is shown. -/
def admits (f : LogFilter) (line : LogLine) : Bool :=
  match f.deciding? line with
  | some r => r.level.any fun limit => line.level.within limit
  | none => false

end LogFilter

end CodeLayout
