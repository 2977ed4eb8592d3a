import CodeLayout.Proofs.Size.Rounding

/-!
# Arithmetic in words

The sizes of the library are unbounded numbers.  Here the operations on them are done in
words: each has no result where its result is not a word, and so has a computation that
takes such a step.  A computation that has a result this way has the one that the unbounded
numbers have.
-/

namespace CodeLayout.Size

variable {a b value alignment : Nat}

/-- A sum that has to be a word. -/
def add? (a b : Nat) : Option Nat :=
  if a + b < wordLimit then some (a + b) else none

/-- A difference, which must not be negative. -/
def sub? (a b : Nat) : Option Nat :=
  if b ≤ a then some (a - b) else none

/-- A product that has to be a word. -/
def mul? (a b : Nat) : Option Nat :=
  if a * b < wordLimit then some (a * b) else none

/-- Round down: mask the low bits of a word away. -/
def alignDown? (value alignment : Nat) : Option Nat :=
  (sub? alignment 1).map fun low => value &&& (wordLimit - 1 - low)

/-- Round up.  All of the alignment is added before one is taken off. -/
def alignUp? (value alignment : Nat) : Option Nat :=
  (add? value alignment).bind fun sum =>
    (sub? sum 1).bind fun raised => alignDown? raised alignment

/-- Bytes that code of the given length occupies in a code heap. -/
def padded? (length : Nat) : Option Nat :=
  alignUp? (max length 1) segment

/-- A length rounded up to whole pages. -/
def wholePages? (pageSize length : Nat) : Option Nat :=
  alignUp? length pageSize

theorem add?_eq (word : a + b < wordLimit) : add? a b = some (a + b) :=
  if_pos word

theorem sub?_eq (within : b ≤ a) : sub? a b = some (a - b) :=
  if_pos within

theorem alignDown?_eq (positive : 0 < alignment) :
    alignDown? value alignment = some (alignDown value alignment) := by
  have mask : wordLimit - 1 - (alignment - 1) = wordLimit - alignment := by omega
  rw [alignDown?, sub?_eq positive, Option.map_some, mask]
  rfl

theorem alignUp?_eq (positive : 0 < alignment) (word : value + alignment < wordLimit) :
    alignUp? value alignment = some (alignUp value alignment) := by
  have raised : (value + alignment - 1) % wordLimit = value + alignment - 1 :=
    Nat.mod_eq_of_lt (Nat.lt_of_le_of_lt (Nat.sub_le _ _) word)
  rw [alignUp?, add?_eq word, Option.bind_some,
    sub?_eq (Nat.le_trans positive (Nat.le_add_left _ _)), Option.bind_some,
    alignDown?_eq positive, alignUp, raised]

/-- No length that a file or an option can give is too long to be padded. -/
theorem padded?_eq {length : Nat} (limited : length ≤ largest) :
    padded? length = some (padded length) := by
  apply alignUp?_eq (by decide)
  simp only [largest, segment, wordLimit, Nat.reduceShiftLeft] at limited ⊢
  omega

theorem padded_le {length : Nat} (limited : length ≤ largest) : padded length ≤ 1 <<< 63 := by
  rw [padded_eq (short_of_le_largest limited)]
  simp only [largest, Nat.reduceShiftLeft] at limited ⊢
  omega

theorem wholePages?_eq {pageSize length : Nat} (positive : 0 < pageSize)
    (fits : pageSize ≤ heapAlignment) (limited : length ≤ largest) :
    wholePages? pageSize length = some (wholePages pageSize length) := by
  apply alignUp?_eq positive
  simp only [largest, heapAlignment, kib, wordLimit, Nat.reduceShiftLeft] at fits limited ⊢
  omega

/-- Steps that each have a result have one together.  What keeps the sizes small enough may
be known of the state and of the values that are stepped through. -/
theorem foldlM_eq_some {State Value : Type} {step? : State → Value → Option State}
    {step : State → Value → State} (small : State → Prop) {values : List Value} {start : State}
    (starts : small start)
    (steps : ∀ state value, value ∈ values → small state →
      step? state value = some (step state value) ∧ small (step state value)) :
    values.foldlM step? start = some (values.foldl step start) := by
  induction values generalizing start with
  | nil => rfl
  | cons value rest inductionHypothesis =>
      rcases steps start value List.mem_cons_self starts with ⟨made, smallAfter⟩
      rw [List.foldlM_cons, made, Option.bind_eq_bind, Option.bind_some, List.foldl_cons]
      exact inductionHypothesis smallAfter fun state later member =>
        steps state later (List.mem_cons_of_mem _ member)

end CodeLayout.Size
