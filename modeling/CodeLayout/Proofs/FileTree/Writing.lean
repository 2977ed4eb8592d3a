import CodeLayout.Proofs.FileTree.Removal

/-!
# Writing a file

A text that is written to a path is read back from it.
-/

namespace CodeLayout.FileTree

variable {t after : FileTree} {path text : String} {names place : List String} {node : Node}
  {content : ByteArray}

theorem node?_put_of_ne (other : place ≠ names) :
    (t.put names node).node? place = t.node? place := by
  have missed : (place == names) = false := beq_eq_false_iff_ne.mpr other
  rw [node?, node?, put, List.lookup_cons, missed, lookup_filter_ne other]

theorem node?_put_self (listed : isRoot names = false) :
    (t.put names node).node? names = some node := by
  rw [node?, listed, put, List.lookup_cons, beq_self_eq_true]
  rfl

/-- What a write that succeeds has done. -/
theorem writeBytes_eq_ok (written : t.writeBytes path content = .ok after) :
    ∃ at_ names, t.resolve path = .ok at_ ∧ at_.asDirectory = false ∧
      enter at_.directory at_.name = .ok names ∧ t.node? names ≠ some .directory ∧
        after = t.put names (.file content) := by
  cases resolved : t.resolve path with
  | error cause =>
      rw [writeBytes, resolved] at written
      contradiction
  | ok at_ =>
      cases plain : at_.asDirectory with
      | true =>
          simp only [writeBytes, resolved, plain, bind, Except.bind] at written
          contradiction
      | false =>
          cases entered : enter at_.directory at_.name with
          | error cause =>
              simp only [writeBytes, resolved, plain, entered, bind, Except.bind] at written
              contradiction
          | ok names =>
              simp only [writeBytes, resolved, plain, entered, bind, Except.bind,
                Bool.false_eq_true, if_false] at written
              refine ⟨at_, names, rfl, plain, entered, ?_⟩
              split at written
              · contradiction
              · rename_i blocked
                cases written
                exact ⟨blocked, rfl⟩

/-- What is written to a path is found at its end. -/
theorem readBytes_of_writeBytes (written : t.writeBytes path content = .ok after) :
    after.readBytes path = .ok content := by
  rcases writeBytes_eq_ok written with ⟨at_, names, resolved, plain, entered, blocked, rfl⟩
  have listed : isRoot names = false := by
    cases root : isRoot names with
    | false => rfl
    | true => exact absurd (by rw [node?, if_pos root]) blocked
  have stillResolved : (t.put names (.file content)).resolve path = .ok at_ :=
    resolve_of_agree (fun _ => node?_put_of_ne) blocked resolved
  simp only [readBytes, find, stillResolved, entered, bind, Except.bind, node?_put_self listed,
    plain, Bool.false_eq_true, if_false]

/-- A text that is written to a path is read back from it. -/
theorem readText_of_writeText (written : t.writeText path text = .ok after) :
    after.readText path = .ok text := by
  have decoded : String.fromUTF8? text.toUTF8 = some text := by
    rw [String.fromUTF8?, String.toUTF8_eq_toByteArray, dif_pos text.isValidUTF8]
    rfl
  simp only [readText, readBytes_of_writeBytes written, bind, Except.bind, decoded]

end CodeLayout.FileTree
