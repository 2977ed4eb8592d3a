/-!
# Methods

A method is named by its holder class, its own name and its signature.
-/

namespace CodeLayout

/-- Holder class, name and signature of a method. -/
structure Method where
  holder : String
  name : String
  signature : String
deriving DecidableEq, Repr, Inhabited

namespace Method

/-- The three parts separated by single spaces. -/
def display (m : Method) : String :=
  m.holder ++ " " ++ m.name ++ " " ++ m.signature

/-- Holder first, then name, then signature, each in code point order. -/
def le (a b : Method) : Bool :=
  if a.holder ≠ b.holder then decide (a.holder < b.holder)
  else if a.name ≠ b.name then decide (a.name < b.name)
  else decide (a.signature ≤ b.signature)

end Method

end CodeLayout
