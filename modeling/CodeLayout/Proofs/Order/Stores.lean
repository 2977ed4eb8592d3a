import CodeLayout.Indexed
import CodeLayout.Proofs.Order.WellFormed

/-!
# The two stores of an order

An order can be kept in two stores: the entries, separators among them, and beside them a
map from each method to its code length, which is what is looked up, counted and added up.
Listing a method writes to both.  They never disagree, so that all that is read from the map
is read from the entries, and reading a text into the two stores is reading the order.
-/

namespace CodeLayout.Order

/-- An order whose code lengths are kept apart. -/
structure Stores where
  entries : List Entry
  sizes : Indexed Method Nat

variable {o : Order} {s after : Stores} {m : Method}

namespace Stores

def empty : Stores :=
  ⟨[], .empty⟩

/-- List a method at the end, in both stores; `none` if it is listed already. -/
def push? (s : Stores) (m : Method) (size : Nat) : Option Stores :=
  if s.sizes.contains m then none
  else some ⟨s.entries ++ [.method m size], s.sizes.insert m size⟩

def separate (s : Stores) : Stores :=
  { s with entries := s.entries ++ [.separator] }

/-- The order of the given methods; only the first of repeated ones counts. -/
def ofMethods (methods : List (Method × Nat)) : Stores :=
  methods.foldl (fun s (m, size) => (s.push? m size).getD s) empty

/-- The bytes that all listed methods need, at most the largest word. -/
def paddedSize (s : Stores) : Nat :=
  s.sizes.values.foldl (fun total size => min (total + Size.padded size) (Size.wordLimit - 1)) 0

/-- Add what a line says. -/
def addLine (s : Stores) (line : List Char) : Except ParseError Stores :=
  match readLine? line with
  | none => .error (.badLine line)
  | some none => .ok s
  | some (some .separator) => .ok s.separate
  | some (some (.method m size)) =>
    match s.push? m size with
    | some extended => .ok extended
    | none => .error (.duplicate m)

/-- Read an order into the two stores. -/
def parse (text : List Char) : Except ParseError Stores :=
  ((Fields.lines text).map Fields.dropReturns).foldlM addLine empty

/-- The stores hold an order. -/
structure Hold (s : Stores) (o : Order) : Prop where
  entries : s.entries = o.entries
  sizes : s.sizes.entries = o.methods

/-- What two stores hold determines them. -/
theorem Hold.unique {other : Stores} (holds : s.Hold o) (too : other.Hold o) : s = other := by
  rcases s with ⟨entries, sizes⟩
  rcases other with ⟨otherEntries, otherSizes⟩
  cases holds.entries.trans too.entries.symm
  cases Indexed.ext (holds.sizes.trans too.sizes.symm)
  rfl

/-! ## Reading the stores -/

namespace Hold

theorem keys (holds : s.Hold o) : s.sizes.keys = o.ranking :=
  congrArg (List.map Prod.fst) holds.sizes

theorem contains (holds : s.Hold o) (m : Method) : s.sizes.contains m = o.contains m := by
  rw [Bool.eq_iff_iff, Indexed.contains_iff, holds.keys, Order.contains, List.contains_iff_mem]

theorem size (holds : s.Hold o) : s.sizes.entries.length = o.size :=
  congrArg List.length holds.sizes

theorem paddedSize (holds : s.Hold o) : s.paddedSize = o.paddedSize := by
  rw [Stores.paddedSize, Indexed.values, holds.sizes, List.foldl_map]
  rfl

/-! ## Writing to them -/

theorem empty : Stores.empty.Hold Order.empty :=
  ⟨rfl, rfl⟩

theorem separate (holds : s.Hold o) : s.separate.Hold o.separate := by
  constructor
  · exact congrArg (· ++ [Entry.separator]) holds.entries
  · rw [methods_separate]
    exact holds.sizes

/-- A method is listed in both stores or, if it is in the map already, in neither. -/
theorem push? (holds : s.Hold o) (m : Method) (size : Nat) :
    s.push? m size = none ∧ o.push? m size = none ∨
      ∃ after extended, s.push? m size = some after ∧ o.push? m size = some extended ∧
        after.Hold extended := by
  have same := holds.contains m
  cases listed : o.contains m with
  | true =>
      rw [listed] at same
      exact Or.inl ⟨if_pos same, if_pos listed⟩
  | false =>
      rw [listed] at same
      have new : m ∉ s.sizes.keys := fun old =>
        Bool.noConfusion (same.symm.trans (Indexed.contains_iff.mpr old))
      have pushed : o.push? m size = some ⟨o.entries ++ [.method m size]⟩ :=
        if_neg (by rw [listed]; decide)
      refine Or.inr ⟨_, _, if_neg (by rw [same]; decide), pushed, ?_, ?_⟩
      · rw [holds.entries]
      · rw [Indexed.entries_insert_of_new new, holds.sizes, methods_push pushed]

/-- A line is added to both stores, or is no line of either. -/
theorem addLine (holds : s.Hold o) (line : List Char) :
    (∃ cause, s.addLine line = .error cause ∧ o.addLine line = .error cause) ∨
      ∃ after extended, s.addLine line = .ok after ∧ o.addLine line = .ok extended ∧
        after.Hold extended := by
  rw [Stores.addLine, Order.addLine]
  rcases readLine? line with _ | _ | ⟨m, size⟩ | _
  · exact Or.inl ⟨_, rfl, rfl⟩
  · exact Or.inr ⟨_, _, rfl, rfl, holds⟩
  · dsimp only
    rcases holds.push? m size with ⟨refused, refusedToo⟩ |
      ⟨after, extended, pushed, pushedToo, kept⟩
    · rw [refused, refusedToo]
      exact Or.inl ⟨_, rfl, rfl⟩
    · rw [pushed, pushedToo]
      exact Or.inr ⟨_, _, rfl, rfl, kept⟩
  · exact Or.inr ⟨_, _, rfl, rfl, holds.separate⟩

theorem addLines (holds : s.Hold o) (lines : List (List Char)) :
    (∃ cause, lines.foldlM Stores.addLine s = .error cause ∧
        lines.foldlM Order.addLine o = .error cause) ∨
      ∃ after extended, lines.foldlM Stores.addLine s = .ok after ∧
        lines.foldlM Order.addLine o = .ok extended ∧ after.Hold extended := by
  induction lines generalizing s o with
  | nil => exact Or.inr ⟨_, _, rfl, rfl, holds⟩
  | cons line rest inductionHypothesis =>
      rw [List.foldlM_cons, List.foldlM_cons]
      rcases holds.addLine line with ⟨cause, stopped, stoppedToo⟩ |
        ⟨after, extended, added, addedToo, kept⟩
      · rw [stopped, stoppedToo]
        exact Or.inl ⟨cause, rfl, rfl⟩
      · rw [added, addedToo]
        exact inductionHypothesis kept

/-- Of methods that are listed one after the other repeated ones are passed over. -/
theorem listAll (holds : s.Hold o) (methods : List (Method × Nat)) :
    (methods.foldl (fun s (m, size) => (s.push? m size).getD s) s).Hold
      (methods.foldl (fun o (m, size) => (o.push? m size).getD o) o) := by
  induction methods generalizing s o with
  | nil => exact holds
  | cons entry rest inductionHypothesis =>
      rw [List.foldl_cons, List.foldl_cons]
      apply inductionHypothesis
      rcases entry with ⟨m, size⟩
      dsimp only
      rcases holds.push? m size with ⟨refused, refusedToo⟩ |
        ⟨after, extended, pushed, pushedToo, kept⟩
      · rw [refused, refusedToo]
        exact holds
      · rw [pushed, pushedToo]
        exact kept

end Hold

/-- A text is read into the two stores as it is read as an order, with the same error if
it is none. -/
theorem hold_of_parse (text : List Char) :
    (∃ cause, parse text = .error cause ∧ Order.parse text = .error cause) ∨
      ∃ s o, parse text = .ok s ∧ Order.parse text = .ok o ∧ s.Hold o :=
  Hold.empty.addLines _

/-- Listed methods are in both stores. -/
theorem hold_ofMethods (methods : List (Method × Nat)) :
    (ofMethods methods).Hold (Order.ofMethods methods) :=
  Hold.empty.listAll methods

end Stores

end CodeLayout.Order
