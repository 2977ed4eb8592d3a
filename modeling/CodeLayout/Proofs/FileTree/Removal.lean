import CodeLayout.FileTree

/-!
# Removing a file

A path that leads to a file leads through directories only, so taking the file
away changes nothing on the way to any other place: what stands elsewhere is
found as before, and the path of the removed file can be written again.
-/

namespace CodeLayout.FileTree

variable {t : FileTree} {path : String} {names place from_ rest : List String} {node : Node}
  {content : ByteArray}

/-- Every file of the one tree can be read from the other one, with the same
content. -/
def Keeps (before after : FileTree) : Prop :=
  ∀ path content, before.readBytes path = .ok content → after.readBytes path = .ok content

/-! ## What stands at a place -/

theorem lookup_filter_ne {nodes : List (List String × Node)} (other : place ≠ names) :
    (nodes.filter fun entry => entry.1 ≠ names).lookup place = nodes.lookup place := by
  induction nodes with
  | nil => rfl
  | cons entry rest inductionHypothesis =>
      by_cases dropped : entry.1 = names
      · have missed : (place == entry.1) = false := by
          rw [dropped]
          exact beq_eq_false_iff_ne.mpr other
        rw [List.filter_cons_of_neg (by simpa using dropped), inductionHypothesis,
          List.lookup_cons, missed]
      · rw [List.filter_cons_of_pos (by simpa using dropped), List.lookup_cons, List.lookup_cons,
          inductionHypothesis]

theorem node?_drop_of_ne (other : place ≠ names) : (t.drop names).node? place = t.node? place := by
  rw [node?, node?, drop, lookup_filter_ne other]

theorem not_isRoot_of_file (isFile : t.node? names = some (.file content)) :
    ¬ isRoot names = true := by
  intro root
  rw [node?, if_pos root] at isFile
  cases isFile

theorem node?_drop_self (isFile : t.node? names = some (.file content)) :
    (t.drop names).node? names = none := by
  rw [node?, if_neg (not_isRoot_of_file isFile), List.lookup_eq_none_iff]
  intro entry member
  have kept : entry.1 ≠ names := of_decide_eq_true (List.mem_filter.mp member).2
  exact bne_iff_ne.mpr kept.symm

/-! ## Ways to a place -/

section Agreement

variable {after : FileTree}

/-- A way does not lead through a place where no directory stands, so it is there as long as
all other places stay as they are. -/
theorem walk_of_agree (agree : ∀ other, other ≠ names → after.node? other = t.node? other)
    (blocked : t.node? names ≠ some .directory) (walked : t.walk from_ rest = .ok place) :
    after.walk from_ rest = .ok place := by
  induction rest generalizing from_ with
  | nil => exact walked
  | cons name others inductionHypothesis =>
      cases entered : enter from_ name with
      | error cause =>
          rw [walk, entered] at walked
          contradiction
      | ok next =>
          simp only [walk, entered, bind, Except.bind] at walked ⊢
          split at walked
          · rename_i isDirectory
            have other : next ≠ names := by
              rintro rfl
              exact blocked isDirectory
            rw [agree next other, isDirectory]
            exact inductionHypothesis walked
          · contradiction
          · contradiction

theorem resolve_of_agree (agree : ∀ other, other ≠ names → after.node? other = t.node? other)
    (blocked : t.node? names ≠ some .directory) {found : Place}
    (resolved : t.resolve path = .ok found) : after.resolve path = .ok found := by
  unfold resolve at resolved ⊢
  split at resolved
  · contradiction
  · contradiction
  · cases walked : t.walk [] (namesOf path).dropLast with
    | error cause =>
        rw [walked] at resolved
        contradiction
    | ok directory =>
        rw [walked] at resolved
        rw [walk_of_agree agree blocked walked]
        exact resolved

end Agreement

theorem resolve_drop (isFile : t.node? names = some (.file content)) {found : Place}
    (resolved : t.resolve path = .ok found) : (t.drop names).resolve path = .ok found :=
  resolve_of_agree (fun _ => node?_drop_of_ne) (by simp [isFile]) resolved

/-- What is found at the end of a path. -/
theorem find_eq_ok (found : t.find path = .ok (names, node)) :
    ∃ at_ : Place, t.resolve path = .ok at_ ∧ enter at_.directory at_.name = .ok names ∧
      t.node? names = some node ∧ (node ≠ .directory → at_.asDirectory = false) := by
  cases resolved : t.resolve path with
  | error cause =>
      rw [find, resolved] at found
      contradiction
  | ok at_ =>
      refine ⟨at_, rfl, ?_⟩
      cases entered : enter at_.directory at_.name with
      | error cause =>
          simp only [find, resolved, entered, bind, Except.bind] at found
          contradiction
      | ok there =>
          simp only [find, resolved, entered, bind, Except.bind] at found
          split at found
          · contradiction
          · rename_i stands
            split at found
            · contradiction
            · rename_i plain
              cases found
              exact ⟨rfl, stands, fun _ => by simpa using plain⟩
          · rename_i stands
            cases found
            exact ⟨rfl, stands, fun isOther => absurd rfl isOther⟩

/-! ## The tree without the file -/

/-- What stands elsewhere is found as before. -/
theorem find_drop_of_ne (isFile : t.node? names = some (.file content))
    (found : t.find path = .ok (place, node)) (other : place ≠ names) :
    (t.drop names).find path = .ok (place, node) := by
  rcases find_eq_ok found with ⟨at_, resolved, entered, stands, plain⟩
  have still : (t.drop names).node? place = some node := (node?_drop_of_ne other).trans stands
  simp only [find, resolve_drop isFile resolved, entered, bind, Except.bind]
  rw [still]
  cases node with
  | directory => rfl
  | file bytes => simp only [plain (by simp), Bool.false_eq_true, if_false]

theorem find_drop_self (found : t.find path = .ok (names, .file content)) :
    (t.drop names).find path = .error .notFound := by
  rcases find_eq_ok found with ⟨at_, resolved, entered, isFile, _⟩
  simp only [find, resolve_drop isFile resolved, entered, bind, Except.bind]
  rw [node?_drop_self isFile]

theorem remove_eq (found : t.find path = .ok (names, .file content)) :
    t.remove path = .ok (t.drop names) := by
  simp only [remove, found, bind, Except.bind]

theorem remove_eq_ok {after : FileTree} (removed : t.remove path = .ok after) :
    ∃ names content, t.find path = .ok (names, .file content) ∧ after = t.drop names := by
  cases found : t.find path with
  | error cause =>
      simp only [remove, found, bind, Except.bind] at removed
      contradiction
  | ok place =>
      rcases place with ⟨names, node⟩
      simp only [remove, found, bind, Except.bind] at removed
      cases node with
      | directory => contradiction
      | file content =>
          cases removed
          exact ⟨names, content, rfl, rfl⟩

/-- A file that is removed is not kept. -/
theorem not_keeps_drop (found : t.find path = .ok (names, .file content)) :
    ¬ t.Keeps (t.drop names) := by
  intro keeps
  have isRead : t.readBytes path = .ok content := by
    simp only [readBytes, found, bind, Except.bind]
  have gone := keeps path content isRead
  simp only [readBytes, find_drop_self found, bind, Except.bind] at gone
  contradiction

/-- The path of a removed file can be written again. -/
theorem writeText_drop (found : t.find path = .ok (names, .file content)) (text : String) :
    (t.drop names).writeText path text = .ok ((t.drop names).put names (.file text.toUTF8)) := by
  rcases find_eq_ok found with ⟨at_, resolved, entered, isFile, plain⟩
  have file := plain (by simp)
  simp only [writeText, writeBytes, resolve_drop isFile resolved, entered, file, bind, Except.bind]
  rw [node?_drop_self isFile]
  rfl

end CodeLayout.FileTree
