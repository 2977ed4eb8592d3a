import CodeLayout.Proofs.Order.Grammar

/-!
# Lines of an order

A line is faulty if it cannot be read, or if it lists a method that a line before
it lists.  The first faulty line can be looked for; it is the one that offends against
the grammar, so the search says whether a text is an order, and why it is none.
-/

namespace CodeLayout.Order

variable {m : Method} {before lines : List (List Char)} {line text : List Char}
  {cause : ParseError}

/-- The method that a line lists. -/
def listed? (line : List Char) : Option Method :=
  ((readLine? line).join.bind Entry.method?).map Prod.fst

/-- What is wrong with a line that comes after others. -/
def lineFault? (before : List (List Char)) (line : List Char) : Option ParseError :=
  match readLine? line with
  | none => some (.badLine line)
  | some (some (.method m _)) =>
    if m ∈ before.filterMap listed? then some (.duplicate m) else none
  | some (some .separator) | some none => none

/-- What is wrong with the first faulty line. -/
def firstFault? (lines : List (List Char)) : Option ParseError :=
  lines.zipIdx.findSome? fun (line, number) => lineFault? (lines.take number) line

/-- The lines of a text, without the carriage returns at their ends. -/
def linesOf (text : List Char) : List (List Char) :=
  (Fields.lines text).map Fields.dropReturns

/-! ## Faulty lines -/

theorem listed?_eq_some_iff :
    listed? line = some m ↔ ∃ size, Reads line (some (.method m size)) := by
  simp only [← readLine?_eq_some_iff, listed?]
  rcases readLine? line with _ | _ | ⟨other, size⟩ | _ <;> simp [Entry.method?]

/-- A line is faulty if the grammar has no such line, or if it repeats a method. -/
theorem lineFault?_eq_some_iff :
    lineFault? before line = some cause ↔
      (∀ said, ¬ Reads line said) ∧ cause = .badLine line ∨
        ∃ m size, Reads line (some (.method m size)) ∧
          (∃ earlier ∈ before, ∃ earlierSize, Reads earlier (some (.method m earlierSize))) ∧
          cause = .duplicate m := by
  have reads (said : Option Entry) : readLine? line = some said ↔ Reads line said :=
    readLine?_eq_some_iff
  have lists (m : Method) : m ∈ before.filterMap listed? ↔
      ∃ earlier ∈ before, ∃ earlierSize, Reads earlier (some (.method m earlierSize)) := by
    simp only [List.mem_filterMap, listed?_eq_some_iff]
  simp only [← lists, ← reads]
  rw [lineFault?]
  generalize before.filterMap listed? = seen
  rcases readLine? line with _ | _ | ⟨m, size⟩ | _
  · simp [eq_comm]
  · simp
  · by_cases old : m ∈ seen <;> simp [old, eq_comm]
  · simp

/-- It is not if it has a meaning and repeats no method. -/
theorem lineFault?_eq_none_iff :
    lineFault? before line = none ↔
      (∃ said, Reads line said) ∧ ∀ earlier ∈ before, Differ earlier line := by
  rw [Option.eq_none_iff_forall_ne_some]
  simp only [ne_eq, lineFault?_eq_some_iff, not_or]
  constructor
  · intro sound
    constructor
    · by_contra! senseless
      exact (sound (.badLine line)).1 ⟨senseless, rfl⟩
    · intro earlier listed m earlierSize size first again
      exact (sound (.duplicate m)).2 ⟨m, size, again, ⟨earlier, listed, earlierSize, first⟩, rfl⟩
  · rintro ⟨⟨said, reads⟩, differ⟩ cause
    constructor
    · rintro ⟨senseless, _⟩
      exact senseless said reads
    · rintro ⟨m, size, again, ⟨earlier, listed, earlierSize, first⟩, _⟩
      exact differ earlier listed m earlierSize size first again

/-! ## The first faulty line -/

/-- A line at the end is looked at if none before it is faulty. -/
theorem firstFault?_concat (before : List (List Char)) (line : List Char) :
    firstFault? (before ++ [line]) = (firstFault? before).or (lineFault? before line) := by
  have earlier : (before.zipIdx.map fun (other, number) =>
      lineFault? ((before ++ [line]).take number) other) =
        before.zipIdx.map fun (other, number) => lineFault? (before.take number) other := by
    refine List.map_congr_left fun (other, number) member => ?_
    have within : number ≤ before.length := by
      have bound := (List.mem_zipIdx member).2.1
      omega
    dsimp only
    rw [List.take_append_of_le_length within]
  have searched := congrArg (List.findSome? id) earlier
  rw [List.findSome?_map, List.findSome?_map] at searched
  rw [firstFault?, List.zipIdx_append, List.findSome?_append]
  congr 1
  simp

theorem acceptable_concat_iff :
    Acceptable (before ++ [line]) ↔ Acceptable before ∧ lineFault? before line = none := by
  rw [lineFault?_eq_none_iff]
  constructor
  · rintro ⟨readable, distinct⟩
    rw [List.forall_mem_append, List.forall_mem_singleton] at readable
    rw [List.pairwise_append] at distinct
    exact ⟨⟨readable.1, distinct.1⟩, readable.2,
      fun earlier listed => distinct.2.2 earlier listed line List.mem_cons_self⟩
  · rintro ⟨⟨readable, distinct⟩, reads, differ⟩
    constructor
    · exact List.forall_mem_append.mpr ⟨readable, List.forall_mem_singleton.mpr reads⟩
    · refine List.pairwise_append.mpr ⟨distinct, List.pairwise_singleton _ _, ?_⟩
      intro earlier listed other isLine
      rw [List.mem_singleton.mp isLine]
      exact differ earlier listed

/-- No line is faulty exactly if the lines are acceptable. -/
theorem firstFault?_eq_none_iff : firstFault? lines = none ↔ Acceptable lines := by
  induction lines using List.reverseRecOn with
  | nil => exact ⟨fun _ => ⟨by simp, .nil⟩, fun _ => rfl⟩
  | append_singleton before line inductionHypothesis =>
      rw [firstFault?_concat, Option.or_eq_none_iff, inductionHypothesis, acceptable_concat_iff]

/-- The lines before the first faulty one are acceptable. -/
theorem firstFault?_eq_some_iff :
    firstFault? lines = some cause ↔ ∃ before line after, lines = before ++ line :: after ∧
      Acceptable before ∧ lineFault? before line = some cause := by
  induction lines using List.reverseRecOn with
  | nil => simp [firstFault?]
  | append_singleton lines last inductionHypothesis =>
      rw [firstFault?_concat, Option.or_eq_some_iff, inductionHypothesis, firstFault?_eq_none_iff]
      constructor
      · rintro (⟨before, line, after, rfl, acceptable, faulty⟩ | ⟨acceptable, faulty⟩)
        · exact ⟨before, line, after ++ [last], by simp, acceptable, faulty⟩
        · exact ⟨lines, last, [], rfl, acceptable, faulty⟩
      · rintro ⟨before, line, after, split, acceptable, faulty⟩
        rcases List.eq_nil_or_concat' after with rfl | ⟨after, same, rfl⟩
        · rcases List.append_inj' split rfl with ⟨rfl, isLine⟩
          cases isLine
          exact Or.inr ⟨acceptable, faulty⟩
        · rw [← List.cons_append, ← List.append_assoc] at split
          rcases List.append_inj' split rfl with ⟨rfl, _⟩
          exact Or.inl ⟨before, line, after, rfl, acceptable, faulty⟩

/-- The first faulty line is the one that offends. -/
theorem firstFault?_iff_offends :
    firstFault? lines = some cause ↔ Offends lines cause cause.toFault.message := by
  rw [firstFault?_eq_some_iff]
  simp only [lineFault?_eq_some_iff]
  constructor
  · rintro ⟨before, line, after, split, acceptable, ⟨senseless, rfl⟩ |
      ⟨m, size, again, ⟨earlier, listed, earlierSize, lists⟩, rfl⟩⟩
    · exact .senseless split acceptable senseless
    · exact .repeated split acceptable listed lists again
  · intro offends
    cases offends with
    | senseless split acceptable senseless =>
        exact ⟨_, _, _, split, acceptable, Or.inl ⟨senseless, rfl⟩⟩
    | repeated split acceptable listed lists again =>
        exact ⟨_, _, _, split, acceptable, Or.inr ⟨_, _, again, ⟨_, listed, _, lists⟩, rfl⟩⟩

/-- A text is refused for its first faulty line. -/
theorem parse_eq_error_iff : parse text = .error cause ↔ firstFault? (linesOf text) = some cause :=
  addLines_eq_error_iff.trans firstFault?_iff_offends.symm

theorem firstFault?_of_parse {order : Order} (parsed : parse text = .ok order) :
    firstFault? (linesOf text) = none :=
  firstFault?_eq_none_iff.mpr (addLines_empty_iff.mp parsed).1

end CodeLayout.Order
