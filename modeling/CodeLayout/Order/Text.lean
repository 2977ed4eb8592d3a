import CodeLayout.Order
import CodeLayout.Text.Fields

/-!
# Order files

The text of an order.  A method stands on a line `M size holder name signature`
and a separator on a line `C`.  Empty lines and lines that start with `#` are
passed over, `C` may be followed by a blank and anything else, and the holder
may be written with points in place of slashes.
-/

namespace CodeLayout.Order

/-- Why a text is not an order. -/
inductive ParseError where
  | badLine (line : List Char)
  | duplicate (method : Method)
deriving DecidableEq, Repr

namespace ParseError

def message : ParseError → String
  | badLine line => "Wrong format of JBolt order line! line=\"" ++ String.ofList line ++ "\"."
  | duplicate method => "Duplicated method: \x7b" ++ method.display ++ "\x7d!"

def toFault (e : ParseError) : Fault :=
  .malformedOrder e.message

end ParseError

/-- The text of one entry, with its line end. -/
def Entry.render : Entry → List Char
  | .method m size => "M ".toList ++ Digits.render size ++ ' ' :: m.display.toList ++ ['\n']
  | .separator => "C\n".toList

/-- The text of an order. -/
def render (o : Order) : List Char :=
  o.entries.flatMap Entry.render

/-- The three parts of a method's name, the holder with slashes. -/
def readMethod? (text : List Char) : Option Method := do
  let (holder, rest) ← Fields.splitOnce ' ' text
  let (name, signature) ← Fields.splitOnce ' ' rest
  if holder.isEmpty || name.isEmpty || signature.isEmpty then none
  else
    let holder := holder.map fun c => if c = '.' then '/' else c
    some ⟨String.ofList holder, String.ofList name, String.ofList signature⟩

/-- A code length: digits that a plus sign may precede, up to the largest
size. -/
def readSize? (text : List Char) : Option Nat :=
  (Digits.parsePlus? text).bind fun size => if size ≤ Size.largest then some size else none

/-- Read a line.  The outer option is empty if the line is malformed, the
inner one if it says nothing. -/
def readLine? : List Char → Option (Option Entry)
  | [] => some none
  | '#' :: _ => some none
  | ['C'] => some (some .separator)
  | 'C' :: ' ' :: _ => some (some .separator)
  | 'M' :: ' ' :: rest => do
    let (size, names) ← Fields.splitOnce ' ' rest
    let size ← readSize? size
    let method ← readMethod? names
    some (some (.method method size))
  | _ => none

/-- Add what a line says to an order. -/
def addLine (o : Order) (line : List Char) : Except ParseError Order :=
  match readLine? line with
  | none => .error (.badLine line)
  | some none => .ok o
  | some (some .separator) => .ok o.separate
  | some (some (.method m size)) =>
    match o.push? m size with
    | some extended => .ok extended
    | none => .error (.duplicate m)

/-- Read an order; the first line that does not fit is the error. -/
def parse (text : List Char) : Except ParseError Order :=
  ((Fields.lines text).map Fields.dropReturns).foldlM addLine empty

end CodeLayout.Order
