import CodeLayout.Decimal.Shortest
import CodeLayout.Document

/-!
# JSON text

Documents written as JSON, on one line or indented.  Numbers are written with
the fewest digits that read back; a number that is not finite has no JSON form
and becomes `null`.
-/

namespace CodeLayout.Json

/-- Numbers are positional up to sixteen digits in front of the point and four
zeros behind it; an exponent always has a sign. -/
def numbers : Decimal.Scientific.Layout := ⟨16, 4, "+"⟩

/-- A double as JSON text. -/
def ofFloat (x : Float) : String :=
  match Decimal.Binary.ofFloat? x with
  | some b =>
    (if b.negative then "-" else "") ++ (Decimal.Scientific.shortest b).text numbers
  | none => "null"

/-- The characters that stand for one character inside a string. -/
def escape (c : Char) : List Char :=
  if c = '"' then ['\\', '"']
  else if c = '\\' then ['\\', '\\']
  else if c = '\n' then ['\\', 'n']
  else if c = '\r' then ['\\', 'r']
  else if c = '\t' then ['\\', 't']
  else if c = '\x08' then ['\\', 'b']
  else if c = '\x0c' then ['\\', 'f']
  else if c.toNat < 32 then ['\\', 'u', '0', '0'] ++ Digits.hexPair c.toNat
  else [c]

/-- A text as a JSON string. -/
def quote (s : String) : String :=
  "\"" ++ String.ofList (s.toList.flatMap escape) ++ "\""

/-- A scalar as JSON text; lists and tables have none of their own. -/
def scalar : Document → String
  | .null => "null"
  | .flag b => if b then "true" else "false"
  | .integer n => Digits.signed n
  | .real x => ofFloat x
  | .text s | .date s => quote s
  | .list _ | .table _ => ""

mutual

/-- Everything on one line, without blanks. -/
def compact : Document → String
  | .list items => "[" ++ String.intercalate "," (compactItems items) ++ "]"
  | .table entries => "\x7b" ++ String.intercalate "," (compactEntries entries) ++ "\x7d"
  | d => scalar d

/-- The items of a list, each in compact form. -/
def compactItems : List Document → List String
  | [] => []
  | d :: rest => compact d :: compactItems rest

/-- The entries of a table, each in compact form. -/
def compactEntries : List (String × Document) → List String
  | [] => []
  | (key, d) :: rest => (quote key ++ ":" ++ compact d) :: compactEntries rest

end

/-- A line break with two blanks for each level of nesting. -/
def newline (depth : Nat) : String :=
  "\n" ++ String.ofList (List.replicate (2 * depth) ' ')

mutual

/-- One entry to a line, indented by two blanks to a level; what is empty
stays on its line. -/
def indented (depth : Nat) : Document → String
  | .list [] => "[]"
  | .table [] => "\x7b\x7d"
  | .list items =>
    "[" ++ String.intercalate "," (indentedItems (depth + 1) items) ++ newline depth ++ "]"
  | .table entries =>
    "\x7b" ++ String.intercalate "," (indentedEntries (depth + 1) entries) ++ newline depth ++
      "\x7d"
  | d => scalar d

/-- The items of a list, each on a line of its own. -/
def indentedItems (depth : Nat) : List Document → List String
  | [] => []
  | d :: rest => (newline depth ++ indented depth d) :: indentedItems depth rest

/-- The entries of a table, each on a line of its own. -/
def indentedEntries (depth : Nat) : List (String × Document) → List String
  | [] => []
  | (key, d) :: rest =>
    (newline depth ++ quote key ++ ": " ++ indented depth d) :: indentedEntries depth rest

end

end CodeLayout.Json
