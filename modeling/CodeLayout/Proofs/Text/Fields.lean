import CodeLayout.Text.Fields

/-!
# Fields of a text

A text that is put together from parts without the separator comes apart into them,
and whatever a text comes apart into has no separator inside.
-/

namespace CodeLayout.Fields

variable {separator : Char} {before after line text field : List Char}
  {parts : List (List Char)}

/-- The first separator is found behind a part that has none. -/
theorem splitOnce_append (absent : separator ∉ before) (after : List Char) :
    splitOnce separator (before ++ separator :: after) = some (before, after) := by
  induction before with
  | nil => simp [splitOnce]
  | cons c before inductionHypothesis =>
      rw [List.mem_cons, not_or] at absent
      rw [List.cons_append, splitOnce, if_neg (Ne.symm absent.1), inductionHypothesis absent.2]
      rfl

/-- A text is cut at its first separator. -/
theorem splitOnce_eq_some_iff :
    splitOnce separator text = some (before, after) ↔
      separator ∉ before ∧ text = before ++ separator :: after := by
  constructor
  · intro cut
    induction text generalizing before with
    | nil => contradiction
    | cons c rest inductionHypothesis =>
        rw [splitOnce] at cut
        split at cut
        · rename_i same
          cases cut
          exact ⟨List.not_mem_nil, by rw [same, List.nil_append]⟩
        · rename_i differs
          rcases Option.map_eq_some_iff.mp cut with ⟨⟨front, behind⟩, found, equal⟩
          cases equal
          rcases inductionHypothesis found with ⟨absent, rfl⟩
          refine ⟨?_, rfl⟩
          rw [List.mem_cons, not_or]
          exact ⟨Ne.symm differs, absent⟩
  · rintro ⟨absent, rfl⟩
    exact splitOnce_append absent after

/-- A text without the separator is not cut. -/
theorem splitOnce_eq_none_iff : splitOnce separator text = none ↔ separator ∉ text := by
  constructor
  · intro uncut member
    rcases List.eq_append_cons_of_mem member with ⟨before, after, rfl, absent⟩
    rw [splitOnce_append absent] at uncut
    contradiction
  · intro absent
    cases cut : splitOnce separator text with
    | none => rfl
    | some parts =>
        rw [(splitOnce_eq_some_iff.mp cut).2] at absent
        simp at absent

theorem onceOfText_eq_some_iff {whole front behind : String} :
    onceOfText separator whole = some (front, behind) ↔
      separator ∉ front.toList ∧ whole.toList = front.toList ++ separator :: behind.toList := by
  rw [onceOfText, Option.map_eq_some_iff, ← splitOnce_eq_some_iff]
  constructor
  · rintro ⟨⟨before, after⟩, cut, parts⟩
    cases parts
    rwa [String.toList_ofList, String.toList_ofList]
  · intro cut
    exact ⟨_, cut, by simp⟩

theorem onceOfText_eq_none_iff {whole : String} :
    onceOfText separator whole = none ↔ separator ∉ whole.toList := by
  rw [onceOfText, Option.map_eq_none_iff, splitOnce_eq_none_iff]

theorem split_ne_nil (separator : Char) (text : List Char) : split separator text ≠ [] := by
  cases text with
  | nil => simp [split]
  | cons c rest =>
      rw [split]
      split
      · simp
      · split <;> simp

/-- The fields of a text are those between its separators. -/
theorem split_eq_splitOn (separator : Char) (text : List Char) :
    split separator text = text.splitOn separator := by
  induction text with
  | nil => rfl
  | cons c rest inductionHypothesis =>
      rcases List.exists_cons_of_ne_nil (split_ne_nil separator rest) with ⟨field, fields, equal⟩
      rw [split, List.splitOn_cons_eq_if_modifyHead, ← inductionHypothesis, equal]
      simp

/-- A field has no separator inside. -/
theorem not_mem_of_mem_split (isField : field ∈ split separator text) : separator ∉ field := by
  induction text generalizing field with
  | nil =>
      rw [List.mem_singleton.mp isField]
      exact List.not_mem_nil
  | cons c rest inductionHypothesis =>
      rcases List.exists_cons_of_ne_nil (split_ne_nil separator rest) with ⟨front, fields, equal⟩
      rw [equal] at inductionHypothesis
      rw [split, equal] at isField
      dsimp only at isField
      split at isField
      · rcases List.mem_cons.mp isField with rfl | later
        · exact List.not_mem_nil
        · exact inductionHypothesis later
      · rename_i differs
        rcases List.mem_cons.mp isField with rfl | later
        · rw [List.mem_cons, not_or]
          exact ⟨Ne.symm differs, inductionHypothesis List.mem_cons_self⟩
        · exact inductionHypothesis (List.mem_cons_of_mem _ later)

/-- What is in a field is in the text. -/
theorem subset_of_mem_split (isField : field ∈ split separator text) : field ⊆ text := by
  induction text generalizing field with
  | nil =>
      rw [List.mem_singleton.mp isField]
      exact List.nil_subset _
  | cons c rest inductionHypothesis =>
      rcases List.exists_cons_of_ne_nil (split_ne_nil separator rest) with ⟨front, fields, equal⟩
      rw [equal] at inductionHypothesis
      rw [split, equal] at isField
      dsimp only at isField
      split at isField
      · rcases List.mem_cons.mp isField with rfl | later
        · exact List.nil_subset _
        · exact List.subset_cons_of_subset _ (inductionHypothesis later)
      · rcases List.mem_cons.mp isField with rfl | later
        · exact List.cons_subset_cons _ (inductionHypothesis List.mem_cons_self)
        · exact List.subset_cons_of_subset _
            (inductionHypothesis (List.mem_cons_of_mem _ later))

/-- The first field of a text is the part before its first separator. -/
theorem split_append (absent : separator ∉ before) (after : List Char) :
    split separator (before ++ separator :: after) = before :: split separator after := by
  induction before with
  | nil =>
      rcases List.exists_cons_of_ne_nil (split_ne_nil separator after) with ⟨field, fields, equal⟩
      rw [List.nil_append, split, equal]
      simp
  | cons c before inductionHypothesis =>
      rw [List.mem_cons, not_or] at absent
      rw [List.cons_append, split, inductionHypothesis absent.2]
      simp [Ne.symm absent.1]

/-- Lines that are ended by line ends and have none inside come apart, and nothing is
left behind the last one. -/
theorem split_flatMap (absent : ∀ line ∈ parts, '\n' ∉ line) :
    split '\n' (parts.flatMap fun line => line ++ ['\n']) = parts ++ [[]] := by
  induction parts with
  | nil => rfl
  | cons line rest inductionHypothesis =>
      rw [List.flatMap_cons, List.append_assoc, List.singleton_append,
        split_append (absent line List.mem_cons_self),
        inductionHypothesis fun other member => absent other (List.mem_cons_of_mem line member)]
      rfl

theorem lines_flatMap (absent : ∀ line ∈ parts, '\n' ∉ line) :
    lines (parts.flatMap fun line => line ++ ['\n']) = parts := by
  rw [lines, split_flatMap absent]
  simp

/-- The lines of a text are all its fields between newlines, but for an empty one at the
end. -/
theorem split_newline (text : List Char) :
    split '\n' text = lines text ∨ split '\n' text = lines text ++ [[]] := by
  unfold lines
  split
  · rename_i earlier reversed
    right
    rw [← List.reverse_cons, ← reversed, List.reverse_reverse]
  · left
    rw [List.reverse_reverse]

theorem dropReturns_of_getLast (plain : line.getLast? ≠ some '\r') : dropReturns line = line := by
  rw [dropReturns]
  rcases List.eq_nil_or_concat line with rfl | ⟨before, c, rfl⟩
  · rfl
  · have other : c ≠ '\r' := by simpa using plain
    simp [other]

end CodeLayout.Fields
