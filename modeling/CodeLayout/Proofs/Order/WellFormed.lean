import CodeLayout.Order.Text
import Mathlib.Data.List.Nodup

/-!
# Well-formed orders

The operations that make up an order never list a method twice.  An order that
was read from a text is well-formed moreover: its code lengths are within the
limit for sizes.
-/

namespace CodeLayout.Order

variable {o extended : Order} {m : Method} {size : Nat}

/-- No method is listed twice, and no code length exceeds the limit for sizes. -/
structure WellFormed (o : Order) : Prop where
  distinct : o.ranking.Nodup
  sizes : ∀ entry ∈ o.methods, entry.2 ≤ Size.largest

theorem wellFormed_empty : empty.WellFormed where
  distinct := List.nodup_nil
  sizes entry member := by contradiction

@[simp]
theorem methods_separate (o : Order) : o.separate.methods = o.methods := by
  simp [methods, separate, Entry.method?]

/-- A method is listed at the end if it is new. -/
theorem push?_eq_some_iff :
    o.push? m size = some extended ↔
      m ∉ o.ranking ∧ extended = ⟨o.entries ++ [.method m size]⟩ := by
  rw [push?, contains]
  by_cases listed : m ∈ o.ranking
  · simp [listed]
  · simp [listed, eq_comm]

theorem push?_of_new (new : m ∉ o.ranking) (size : Nat) :
    o.push? m size = some ⟨o.entries ++ [.method m size]⟩ :=
  push?_eq_some_iff.mpr ⟨new, rfl⟩

theorem methods_push (pushed : o.push? m size = some extended) :
    extended.methods = o.methods ++ [(m, size)] := by
  rcases push?_eq_some_iff.mp pushed with ⟨_, rfl⟩
  simp [methods, Entry.method?]

theorem nodup_push (nodup : o.ranking.Nodup) (pushed : o.push? m size = some extended) :
    extended.ranking.Nodup := by
  rcases push?_eq_some_iff.mp pushed with ⟨new, _⟩
  rw [ranking, methods_push pushed, List.map_append, List.map_singleton, ← List.concat_eq_append]
  exact nodup.concat new

/-- Of repeated methods only the first is listed. -/
theorem nodup_ofMethods (methods : List (Method × Nat)) : (ofMethods methods).ranking.Nodup := by
  refine List.foldlRecOn methods _ List.nodup_nil (motive := fun o : Order => o.ranking.Nodup) ?_
  intro o nodup entry _
  dsimp only
  cases pushed : o.push? entry.1 entry.2 with
  | none => exact nodup
  | some extended => exact nodup_push nodup pushed

/-! ## Orders from texts -/

theorem readSize?_le {text : List Char} (read : readSize? text = some size) :
    size ≤ Size.largest := by
  rcases Option.bind_eq_some_iff.mp read with ⟨digits, _, limited⟩
  split at limited
  · rename_i fits
    exact Option.some.inj limited ▸ fits
  · contradiction

/-- The code length on a line is within the limit. -/
theorem readLine?_le {line : List Char} (read : readLine? line = some (some (.method m size))) :
    size ≤ Size.largest := by
  unfold readLine? at read
  split at read
  case h_5 rest =>
    rcases Option.bind_eq_some_iff.mp read with ⟨⟨digits, names⟩, _, sized⟩
    rcases Option.bind_eq_some_iff.mp sized with ⟨length, isSize, named⟩
    rcases Option.bind_eq_some_iff.mp named with ⟨method, _, equal⟩
    cases equal
    exact readSize?_le isSize
  all_goals cases read

theorem WellFormed.push (wellFormed : o.WellFormed) (pushed : o.push? m size = some extended)
    (limited : size ≤ Size.largest) : extended.WellFormed := by
  refine ⟨nodup_push wellFormed.distinct pushed, ?_⟩
  intro entry member
  rw [methods_push pushed] at member
  rcases List.mem_append.mp member with listed | last
  · exact wellFormed.sizes entry listed
  · rw [List.mem_singleton.mp last]
    exact limited

theorem WellFormed.separate (wellFormed : o.WellFormed) : o.separate.WellFormed :=
  ⟨by simpa [ranking] using wellFormed.distinct, by simpa using wellFormed.sizes⟩

theorem WellFormed.addLine {line : List Char} (wellFormed : o.WellFormed)
    (added : addLine o line = .ok extended) : extended.WellFormed := by
  rw [Order.addLine] at added
  split at added
  · contradiction
  · cases added
    exact wellFormed
  · cases added
    exact wellFormed.separate
  · rename_i m size read
    split at added
    · rename_i pushed
      cases added
      exact wellFormed.push pushed (readLine?_le read)
    · contradiction

theorem WellFormed.addLines {lines : List (List Char)} (wellFormed : o.WellFormed)
    (added : lines.foldlM Order.addLine o = .ok extended) : extended.WellFormed := by
  induction lines generalizing o with
  | nil =>
      cases added
      exact wellFormed
  | cons line rest inductionHypothesis =>
      rw [List.foldlM_cons] at added
      cases first : Order.addLine o line with
      | error fault =>
          rw [first] at added
          contradiction
      | ok middle =>
          rw [first] at added
          exact inductionHypothesis (wellFormed.addLine first) added

/-- An order that could be read is well-formed. -/
theorem wellFormed_of_parse {text : List Char} (parsed : parse text = .ok o) : o.WellFormed :=
  wellFormed_empty.addLines parsed

end CodeLayout.Order
