import CodeLayout.Error
import CodeLayout.Method

/-!
# Method orders

An order lists methods with their code lengths, hottest first; separators may
stand between them.  No method is listed twice.
-/

namespace CodeLayout

/-- A line of an order. -/
inductive Order.Entry where
  | method (method : Method) (size : Nat)
  | separator
deriving DecidableEq, Repr

/-- Methods and separators, hottest first. -/
structure Order where
  entries : List Order.Entry
deriving DecidableEq, Repr, Inhabited

namespace Order

/-- The method that an entry lists. -/
def Entry.method? : Entry → Option (Method × Nat)
  | method m size => some (m, size)
  | separator => none

def empty : Order := ⟨[]⟩

/-- The listed methods with their code lengths. -/
def methods (o : Order) : List (Method × Nat) :=
  o.entries.filterMap Entry.method?

/-- The listed methods, hottest first. -/
def ranking (o : Order) : List Method :=
  o.methods.map Prod.fst

def size (o : Order) : Nat :=
  o.methods.length

def contains (o : Order) (m : Method) : Bool :=
  o.ranking.contains m

/-- List a method at the end; `none` if it is listed already. -/
def push? (o : Order) (m : Method) (size : Nat) : Option Order :=
  if o.contains m then none else some ⟨o.entries ++ [.method m size]⟩

/-- Put a separator at the end. -/
def separate (o : Order) : Order :=
  ⟨o.entries ++ [.separator]⟩

/-- The order of the given methods; only the first of repeated ones counts. -/
def ofMethods (methods : List (Method × Nat)) : Order :=
  methods.foldl (fun o (m, size) => (o.push? m size).getD o) empty

/-- Bytes that all listed methods need in a heap, at most the largest word. -/
def paddedSize (o : Order) : Nat :=
  o.methods.foldl (fun total (_, size) => min (total + Size.padded size) (Size.wordLimit - 1)) 0

end Order

end CodeLayout
