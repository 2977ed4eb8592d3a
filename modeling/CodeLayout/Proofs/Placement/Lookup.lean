import CodeLayout.Placement
import CodeLayout.Proofs.Heap.Allocation

/-!
# Looking up placements

Placements are kept in a list, at most one for each method.  Erasing takes the
placement of a method out, putting replaces it where it stands; neither touches
the placement of another method.
-/

namespace CodeLayout.Placements

variable {ps : Placements} {p q : Placement} {m n : Method}

theorem mem_of_find? (found : ps.find? m = some p) : p ∈ ps ∧ p.method = m :=
  ⟨List.mem_of_find?_eq_some found, by simpa using List.find?_some found⟩

theorem find?_eq_none_iff : ps.find? m = none ↔ ∀ p ∈ ps, p.method ≠ m := by
  simp [find?]

/-- The method of a placement is the key under which it is found. -/
theorem find?_of_mem (nodup : (ps.map Placement.method).Nodup) (member : p ∈ ps) :
    ps.find? p.method = some p := by
  cases found : ps.find? p.method with
  | none => exact absurd rfl (find?_eq_none_iff.mp found p member)
  | some q =>
      rcases mem_of_find? found with ⟨isPlacement, sameMethod⟩
      rw [List.inj_on_of_nodup_map nodup isPlacement member sameMethod]

theorem find?_erase (ps : Placements) (m n : Method) :
    (ps.erase m).find? n = if n = m then none else ps.find? n := by
  by_cases same : n = m
  · rw [if_pos same, find?_eq_none_iff]
    intro p kept
    have differs := (List.mem_filter.mp kept).2
    rw [same]
    simpa using differs
  · rw [if_neg same, find?, find?, erase, List.find?_filter]
    congr 1
    funext p
    by_cases isMethod : p.method = n
    · simp [isMethod, same]
    · simp [isMethod]

theorem erase_eq_self (absent : ps.find? m = none) : ps.erase m = ps := by
  apply List.filter_eq_self.mpr
  intro p member
  simpa using find?_eq_none_iff.mp absent p member

theorem perm_erase (nodup : (ps.map Placement.method).Nodup) (found : ps.find? m = some p) :
    ps.Perm (p :: ps.erase m) := by
  rcases mem_of_find? found with ⟨member, rfl⟩
  exact perm_cons_filter nodup member

/-- What is erased is the placement that is found, if there is any. -/
theorem perm_find?_erase (nodup : (ps.map Placement.method).Nodup) (m : Method) :
    ps.Perm ((ps.find? m).toList ++ ps.erase m) := by
  cases found : ps.find? m with
  | none =>
      rw [erase_eq_self found]
      exact List.Perm.refl _
  | some p => exact perm_erase nodup found

theorem find?_put (ps : Placements) (q : Placement) (n : Method) :
    (ps.put q).find? n = if n = q.method then some q else ps.find? n := by
  induction ps with
  | nil =>
      by_cases same : n = q.method
      · simp [put, find?, same]
      · simp [put, find?, same, Ne.symm same]
  | cons p rest inductionHypothesis =>
      simp only [find?] at inductionHypothesis ⊢
      rw [put]
      by_cases same : n = q.method
      · by_cases replaced : p.method = q.method
        · simp [same, replaced]
        · simpa [same, replaced] using inductionHypothesis
      · by_cases replaced : p.method = q.method
        · simp [same, Ne.symm same, replaced]
        · simp only [if_neg replaced, List.find?_cons, inductionHypothesis, if_neg same]

/-- A placement that replaces another one stands in its place. -/
theorem put_eq (found : ps.find? q.method = some p) :
    ∃ before rest, ps = before ++ p :: rest ∧ ps.put q = before ++ q :: rest := by
  induction ps with
  | nil => contradiction
  | cons r rest inductionHypothesis =>
      rw [put]
      by_cases replaced : r.method = q.method
      · have isHead : r = p := by simpa [find?, replaced] using found
        exact ⟨[], rest, by rw [isHead]; rfl, by rw [if_pos replaced]; rfl⟩
      · have foundLater : Placements.find? rest q.method = some p := by
          simpa [find?, replaced] using found
        rcases inductionHypothesis foundLater with ⟨before, last, split, putSplit⟩
        exact ⟨r :: before, last, by rw [split]; rfl, by rw [if_neg replaced, putSplit]; rfl⟩

end CodeLayout.Placements
