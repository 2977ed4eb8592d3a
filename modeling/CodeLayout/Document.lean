/-!
# Documents

Values as they are found in configuration files and in messages between
programs: scalars, lists, and tables that keep the order of their entries.
-/

namespace CodeLayout

/-- A structured value. -/
inductive Document where
  | null
  | flag (value : Bool)
  | integer (value : Int)
  | real (value : Float)
  | text (value : String)
  /-- A date or a time of day, kept as it was written. -/
  | date (value : String)
  | list (items : List Document)
  | table (entries : List (String × Document))
deriving Inhabited

namespace Document

def flag? : Document → Option Bool
  | flag b => some b
  | _ => none

def text? : Document → Option String
  | text s => some s
  | _ => none

/-- A natural number below a limit. -/
def below? (limit : Nat) : Document → Option Nat
  | integer (.ofNat n) => if n < limit then some n else none
  | _ => none

/-- A value that may be absent; `null` is the absent one. -/
def nullable? (read : Document → Option α) : Document → Option (Option α)
  | null => some none
  | d => (read d).map some

/-- Read a record from a table by the names of its fields, or from a list by
their order.  Fields that are missing keep their value, and what has no field
is passed over. -/
def record? (fields : List (String × (α → Document → Option α))) (initial : α) :
    Document → Option α
  | table entries =>
    entries.foldlM (fun record (name, value) =>
      match fields.lookup name with
      | some set => set record value
      | none => some record) initial
  | list items =>
    (fields.zip items).foldlM (fun record ((_, set), value) => set record value) initial
  | date _ => some initial
  | _ => none

end Document

end CodeLayout
