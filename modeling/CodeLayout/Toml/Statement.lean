import CodeLayout.Toml.Tree

/-!
# Statements

A document is a sequence of lines.  Each holds a statement or nothing: a path
with a value, or in brackets the path of the table that the following lines
are about.
-/

namespace CodeLayout.Toml

namespace Reader

/-- Take a path, an equals sign and a value. -/
def assignment (value : Reader Document) : Reader (List String × Document) := do
  let path ← path
  expect '='
  blanks
  return (path, ← value)

/-- Take a value that holds no other values. -/
def plainValue : Reader Document := do
  match ← peek with
  | some '"' | some '\'' => return .text (← text)
  | _ => scalar

/-- Take a value that is nested at most so deep. -/
def value : Nat → Reader Document
  | 0 => plainValue
  | depth + 1 => do
    match ← peek with
    | some '[' =>
      expect '['
      return .list (← enclosed ']' true gap (value depth))
    | some '\x7b' =>
      expect '\x7b'
      match Tree.ofAssignments (← enclosed '\x7d' false blanks (assignment (value depth))) with
      | some tree => return tree.toDocument
      | none => failure
    | _ => plainValue

/-- Take a statement. -/
def statement : Reader Statement := do
  if ← accept '[' then
    if ← accept '[' then
      let path ← path
      expect ']'
      expect ']'
      return .element path
    else
      let path ← path
      expect ']'
      return .header path
  else
    let (path, d) ← assignment (value (maxDepth - 1))
    return .assign path d

/-- Take the statement of a line, if there is one, and the rest of the line. -/
def line : Reader (Option Statement) := do
  blanks
  match ← peek with
  | none | some '#' | some '\n' | some '\r' =>
    endOfLine
    return none
  | _ =>
    let statement ← statement
    endOfLine
    return some statement

/-- Take all lines, at most so many. -/
def lines : Nat → Reader (List Statement)
  | 0 => failure
  | limit + 1 => do
    if ← atEnd then return []
    let first ← line
    let rest ← lines limit
    return first.toList ++ rest

end Reader

/-- A byte order mark in front of a text does not count. -/
def dropMark : List Char → List Char
  | '\ufeff' :: rest => rest
  | s => s

/-- The statements of a text; each line has at least the character that ends
it. -/
def statements? (chars : List Char) : Option (List Statement) :=
  let chars := dropMark chars
  (Reader.lines (chars.length + 1) chars).map Prod.fst

/-- Read a text as a table. -/
def ofText? (text : String) : Option Document := do
  let statements ← statements? text.toList
  let tree ← Tree.ofStatements statements
  return tree.toDocument

end CodeLayout.Toml
