/-!
# Fields

A text cut at every occurrence of one separator character.  The separators
are dropped and nothing else is, so there is always one field more than there
are separators.
-/

namespace CodeLayout.Fields

/-- All fields of `chars` between separators; the empty text has one empty
field. -/
def split (separator : Char) : List Char → List (List Char)
  | [] => [[]]
  | c :: rest =>
    match split separator rest with
    | [] => [[]]
    | field :: fields =>
      if c = separator then [] :: field :: fields else (c :: field) :: fields

/-- The parts before and after the first separator, if there is one. -/
def splitOnce (separator : Char) : List Char → Option (List Char × List Char)
  | [] => none
  | c :: rest =>
    if c = separator then some ([], rest)
    else (splitOnce separator rest).map fun (before, after) => (c :: before, after)

/-- Fields of `text` as texts. -/
def ofText (separator : Char) (text : String) : List String :=
  (split separator text.toList).map String.ofList

/-- The parts of `text` before and after its first separator. -/
def onceOfText (separator : Char) (text : String) : Option (String × String) :=
  (splitOnce separator text.toList).map fun (before, after) =>
    (String.ofList before, String.ofList after)

/-- The lines of a text.  A line ends with a newline; the last one need not,
and a text that ends with a newline has no empty line after it. -/
def lines (chars : List Char) : List (List Char) :=
  match (split '\n' chars).reverse with
  | [] :: earlier => earlier.reverse
  | fields => fields.reverse

/-- `line` without the carriage returns at its end. -/
def dropReturns (line : List Char) : List Char :=
  (line.reverse.dropWhile (· = '\r')).reverse

end CodeLayout.Fields
