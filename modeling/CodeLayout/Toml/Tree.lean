import CodeLayout.Toml.Scalar

/-!
# Trees of tables

The statements of a document build a tree.  How a table came about decides what
later statements may do with it: a table with a header of its own is closed to
paths of names, one that only lies on the way to another may still get its
header, and one that was made by a path of names may only be extended by such
paths.
-/

namespace CodeLayout.Toml

/-- One statement. -/
inductive Statement where
  | assign (path : List String) (value : Document)
  /-- The following assignments are about a table. -/
  | header (path : List String)
  /-- The following assignments are about a new element of a list of tables. -/
  | element (path : List String)
deriving Inhabited

/-- How a table came about. -/
inductive Origin where
  /-- By a header, or as a value. -/
  | header
  /-- On the way to a table with a header. -/
  | implied
  /-- By a path of names in an assignment. -/
  | dotted
deriving DecidableEq, Repr

/-- What a name stands for while the tree is built. -/
inductive Tree where
  | value (d : Document)
  | table (origin : Origin) (entries : List (String × Tree))
  /-- Elements with a header each, the newest last. -/
  | elements (tables : List (List (String × Tree)))
deriving Inhabited

namespace Tree

/-- The entries of a table. -/
abbrev Entries := List (String × Tree)

/-- Put what a name stands for in the place of what it stood for. -/
def Entries.put (key : String) (t : Tree) : Entries → Entries
  | [] => [(key, t)]
  | (k, old) :: rest => if k = key then (k, t) :: rest else (k, old) :: Entries.put key t rest

/-- Change what a name stands for. -/
def Entries.alter (key : String) (change : Option Tree → Option Tree) (entries : Entries) :
    Option Entries :=
  (change (entries.lookup key)).map fun t => entries.put key t

/-- Change the table at the end of a path, making the tables on the way that do
not exist.  A list of tables leads on to its newest element. -/
def within (dotted : Bool) (change : Origin → Entries → Option Entries) :
    List String → Origin → Entries → Option Entries
  | [], origin, entries => change origin entries
  | key :: rest, _, entries =>
    entries.alter key fun
      | none =>
        let origin := if dotted then .dotted else .implied
        (within dotted change rest origin []).map (.table origin)
      | some (.value _) => none
      | some (.table origin inner) =>
        if dotted && origin = .header then none
        else (within dotted change rest origin inner).map (.table origin)
      | some (.elements tables) =>
        match tables.getLast? with
        | some newest =>
          (within dotted change rest .header newest).map fun newest =>
            .elements (tables.dropLast ++ [newest])
        | none => none

/-- Split a path in front of its last name. -/
def splitLast : List String → Option (List String × String)
  | [] => none
  | [key] => some ([], key)
  | key :: rest => (splitLast rest).map fun (front, last) => (key :: front, last)

/-- Give a value to a path of names, seen from a table.  The last name must be
new, and the table it belongs to must be open to paths of names. -/
def assign (path : List String) (d : Document) (entries : Entries) : Option Entries := do
  let (front, last) ← splitLast path
  let add (origin : Origin) (entries : Entries) : Option Entries :=
    if !front.isEmpty && origin ≠ .dotted then none
    else entries.alter last fun
      | none => some (.value d)
      | some _ => none
  within true add front .header entries

/-- Open a table for assignments. -/
def openTable (path : List String) (entries : Entries) : Option Entries := do
  let (front, last) ← splitLast path
  let start (_ : Origin) (entries : Entries) : Option Entries :=
    entries.alter last fun
      | none => some (.table .header [])
      | some (.table .implied inner) => some (.table .header inner)
      | some _ => none
  within false start front .header entries

/-- Open a new element of a list of tables for assignments. -/
def openElement (path : List String) (entries : Entries) : Option Entries := do
  let (front, last) ← splitLast path
  let start (_ : Origin) (entries : Entries) : Option Entries :=
    entries.alter last fun
      | none => some (.elements [[]])
      | some (.elements tables) => some (.elements (tables ++ [[]]))
      | some _ => none
  within false start front .header entries

/-- The tree so far, and the path of the table that assignments are about. -/
structure State where
  entries : Entries
  current : List String

/-- Follow one statement. -/
def State.step (s : State) : Statement → Option State
  | .assign path d => do
    let entries ← within false (fun _ => assign path d) s.current .header s.entries
    return { s with entries }
  | .header path => do
    return ⟨← openTable path s.entries, path⟩
  | .element path => do
    return ⟨← openElement path s.entries, path⟩

/-- The tree that statements build. -/
def ofStatements (statements : List Statement) : Option Tree :=
  (statements.foldlM State.step ⟨[], []⟩).map fun s => .table .header s.entries

/-- The tree that assignments alone build. -/
def ofAssignments (assignments : List (List String × Document)) : Option Tree :=
  ofStatements (assignments.map fun (path, d) => .assign path d)

mutual

/-- The tree as a document. -/
def toDocument : Tree → Document
  | .value d => d
  | .table _ entries => .table (entriesToDocument entries)
  | .elements tables => .list (tablesToDocument tables)

/-- The entries of a table as those of a document. -/
def entriesToDocument : List (String × Tree) → List (String × Document)
  | [] => []
  | (key, t) :: rest => (key, toDocument t) :: entriesToDocument rest

/-- A list of tables as a list of documents. -/
def tablesToDocument : List (List (String × Tree)) → List Document
  | [] => []
  | entries :: rest => .table (entriesToDocument entries) :: tablesToDocument rest

end

end Tree

end CodeLayout.Toml
