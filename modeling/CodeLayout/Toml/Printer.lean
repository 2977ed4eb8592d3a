import CodeLayout.Document
import CodeLayout.Json

/-!
# Writing documents

A document is written as one section for each of its tables.  A text takes the
first of the kinds of quotes that needs no escapes: double, single, then the
same tripled; where none does it is written with escapes.
-/

namespace CodeLayout.Toml

/-- The four kinds of quotes. -/
inductive Quotes where
  | basic
  | literal
  | longBasic
  | longLiteral
deriving DecidableEq, Repr

namespace Quotes

def mark : Quotes → String
  | basic => "\""
  | literal => "'"
  | longBasic => "\"\"\""
  | longLiteral => "'''"

/-- Length of the longest run of a character. -/
def longestRun (c : Char) : Nat → List Char → Nat
  | _, [] => 0
  | run, x :: rest =>
    if x = c then max (run + 1) (longestRun c (run + 1) rest) else longestRun c 0 rest

/-- A character that can only be written by an escape, anywhere. -/
def isHidden (c : Char) : Bool :=
  c ≠ '\t' && c ≠ '\n' && (decide (c.toNat < 32) || c.toNat == 127)

/-- The kind of quotes for a text. -/
def ofText (s : List Char) : Quotes :=
  let hidden := s.any isHidden
  let backslash := s.contains '\\'
  let newline := s.contains '\n'
  let singles := longestRun '\'' 0 s
  let doubles := longestRun '"' 0 s
  if !hidden && !backslash && doubles = 0 && !newline then basic
  else if !hidden && singles = 0 && !newline then literal
  else if !hidden && !backslash && doubles ≤ 2 then longBasic
  else if !hidden && singles ≤ 2 then longLiteral
  else if newline then longBasic
  else basic

end Quotes

/-- The characters that stand for one character between double quotes, `run`
double quotes standing in front of it.  Between tripled quotes two double
quotes in a row and line ends stand for themselves. -/
def escape (long : Bool) (run : Nat) (c : Char) : List Char :=
  if c = '"' then (if long && run < 2 then ['"'] else ['\\', '"'])
  else if c = '\n' then (if long then ['\n'] else ['\\', 'n'])
  else if c = '\\' then ['\\', '\\']
  else if c = '\x08' then ['\\', 'b']
  else if c = '\t' then ['\\', 't']
  else if c = '\x0c' then ['\\', 'f']
  else if c = '\r' then ['\\', 'r']
  else if Quotes.isHidden c then
    ['\\', 'u', '0', '0'] ++ (Digits.hexPair c.toNat).map Char.toUpper
  else [c]

/-- A text with escapes; the run of double quotes starts again behind one that
is escaped. -/
def escapeAll (long : Bool) : Nat → List Char → List Char
  | _, [] => []
  | run, c :: rest =>
    let next := if c = '"' && long && run < 2 then run + 1 else 0
    escape long run c ++ escapeAll long next rest

/-- A text between quotes.  If it has several lines the first starts a line of
its own. -/
def quote (text : String) : String :=
  let s := text.toList
  let quotes := Quotes.ofText s
  let inner := match quotes with
    | .basic => escapeAll false 0 s
    | .longBasic => escapeAll true 0 s
    | .literal | .longLiteral => s
  let start := if s.contains '\n' && (quotes = .longBasic || quotes = .longLiteral)
    then "\n" else ""
  quotes.mark ++ start ++ String.ofList inner ++ quotes.mark

/-- Largest integer that can be written. -/
def maxInteger : Int := 0x7fffffffffffffff

/-- A scalar as it is written; some have no written form. -/
def scalar? : Document → Option String
  | .flag b => some (if b then "true" else "false")
  | .integer n => if n ≤ maxInteger then some (Digits.signed n) else none
  | .text s => some (quote s)
  | _ => none

/-- One line for an entry; an absent value has none. -/
def entryLine? (key : String) : Document → Option String
  | .null => some ""
  | d => (scalar? d).map fun value => key ++ " = " ++ value ++ "\n"

/-- A table with its header. -/
def section? (name : String) (entries : List (String × Document)) : Option String := do
  let lines ← entries.mapM fun (key, d) => entryLine? key d
  return "[" ++ name ++ "]\n" ++ String.join lines

/-- Tables one after the other, with an empty line between them. -/
def sections? (tables : List (String × List (String × Document))) : Option String := do
  let sections ← tables.mapM fun (name, entries) => section? name entries
  return String.intercalate "\n" sections

end CodeLayout.Toml
