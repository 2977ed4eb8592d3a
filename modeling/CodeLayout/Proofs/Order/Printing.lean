import CodeLayout.Proofs.Order.WellFormed
import CodeLayout.Proofs.Text.Digits
import CodeLayout.Proofs.Text.Fields

/-!
# Orders as texts

The text of an order is read back as this order, if the names of its methods can be
told apart in a line.
-/

namespace CodeLayout

/-- The three parts of a name can be read back from a line. -/
structure Method.Legible (m : Method) : Prop where
  holder : m.holder.toList ≠ []
  holderPlain : ' ' ∉ m.holder.toList ∧ '\n' ∉ m.holder.toList ∧ '.' ∉ m.holder.toList
  name : m.name.toList ≠ []
  namePlain : ' ' ∉ m.name.toList ∧ '\n' ∉ m.name.toList
  signature : m.signature.toList ≠ []
  signaturePlain : '\n' ∉ m.signature.toList
  signatureEnd : m.signature.toList.getLast? ≠ some '\r'

namespace Order

variable {o : Order} {m : Method} {size : Nat} {entries done rest : List Entry}

/-- The text of an entry without its line end. -/
def Entry.line : Entry → List Char
  | method m size => 'M' :: ' ' :: (Digits.render size ++ ' ' :: m.display.toList)
  | separator => ['C']

/-- The entry can be read back from its line. -/
def Entry.Legible (entry : Entry) : Prop :=
  ∀ m size, entry = method m size → m.Legible ∧ size ≤ Size.largest

theorem Entry.render_eq (entry : Entry) : entry.render = entry.line ++ ['\n'] := by
  cases entry with
  | method m size => simp [render, line]
  | separator => rfl

theorem display_toList (m : Method) :
    m.display.toList =
      m.holder.toList ++ ' ' :: (m.name.toList ++ ' ' :: m.signature.toList) := by
  simp [Method.display]

theorem readMethod?_display (legible : m.Legible) : readMethod? m.display.toList = some m := by
  have holder : (m.holder.toList.map fun c => if c = '.' then '/' else c) = m.holder.toList := by
    rw [List.map_congr_left (g := id), List.map_id]
    intro c member
    refine if_neg ?_
    rintro rfl
    exact legible.holderPlain.2.2 member
  have present : (m.holder.toList.isEmpty || m.name.toList.isEmpty || m.signature.toList.isEmpty) =
      false := by
    simp [legible.holder, legible.name, legible.signature]
  rw [readMethod?, display_toList, Fields.splitOnce_append legible.holderPlain.1]
  simp only [Option.bind_eq_bind, Option.bind_some,
    Fields.splitOnce_append legible.namePlain.1, present, holder, String.ofList_toList]
  rfl

theorem readSize?_render (limited : size ≤ Size.largest) :
    readSize? (Digits.render size) = some size := by
  rw [readSize?, Digits.parsePlus?_render, Option.bind_some, if_pos limited]

/-- A legible entry is read back from its line. -/
theorem readLine?_line {entry : Entry} (legible : entry.Legible) :
    readLine? entry.line = some (some entry) := by
  cases entry with
  | separator => rfl
  | method m size =>
      rcases legible m size rfl with ⟨named, limited⟩
      have blank : ' ' ∉ Digits.render size := fun member =>
        absurd (Digits.isDigit_of_mem_render size member) (by decide)
      rw [Entry.line, readLine?]
      simp only [Option.bind_eq_bind, Fields.splitOnce_append blank, Option.bind_some,
        readSize?_render limited, readMethod?_display named]

theorem newline_not_mem_line {entry : Entry} (legible : entry.Legible) : '\n' ∉ entry.line := by
  cases entry with
  | separator => decide
  | method m size =>
      rcases legible m size rfl with ⟨named, _⟩
      have digits : '\n' ∉ Digits.render size := fun member =>
        absurd (Digits.isDigit_of_mem_render size member) (by decide)
      rw [Entry.line, display_toList]
      simp [digits, named.holderPlain, named.namePlain, named.signaturePlain]

theorem getLast?_line {entry : Entry} (legible : entry.Legible) :
    entry.line.getLast? ≠ some '\r' := by
  cases entry with
  | separator => decide
  | method m size =>
      rcases legible m size rfl with ⟨named, _⟩
      rcases List.eq_nil_or_concat m.signature.toList with empty | ⟨before, c, signature⟩
      · exact absurd empty named.signature
      · have last := named.signatureEnd
        rw [List.concat_eq_append] at signature
        rw [Entry.line, display_toList, signature]
        rw [signature, List.getLast?_concat] at last
        simpa [List.getLast?_cons, List.getLast?_append] using last

/-- The lines of the text of an order are those of its entries. -/
theorem lines_render (legible : ∀ entry ∈ o.entries, entry.Legible) :
    (Fields.lines o.render).map Fields.dropReturns = o.entries.map Entry.line := by
  have text : o.render = (o.entries.map Entry.line).flatMap fun line => line ++ ['\n'] := by
    rw [render, List.flatMap_map]
    exact List.flatMap_congr fun entry _ => entry.render_eq
  rw [text, Fields.lines_flatMap]
  · rw [List.map_map]
    apply List.map_congr_left
    intro entry member
    exact Fields.dropReturns_of_getLast (getLast?_line (legible entry member))
  · intro line member
    rcases List.mem_map.mp member with ⟨entry, isEntry, rfl⟩
    exact newline_not_mem_line (legible entry isEntry)

theorem ranking_append (entries others : List Entry) :
    (Order.mk (entries ++ others)).ranking =
      (Order.mk entries).ranking ++ (Order.mk others).ranking := by
  simp [ranking, methods]

/-- A method that no entry after it lists again is new when it is listed. -/
theorem not_mem_ranking_of_nodup
    (distinct : (Order.mk (done ++ .method m size :: rest)).ranking.Nodup) :
    m ∉ (Order.mk done).ranking := by
  intro old
  rw [ranking_append, List.nodup_append] at distinct
  exact distinct.2.2 m old m List.mem_cons_self rfl

/-- Entries are added line by line behind those that are there. -/
theorem foldlM_line (legible : ∀ entry ∈ rest, entry.Legible)
    (distinct : (Order.mk (done ++ rest)).ranking.Nodup) :
    (rest.map Entry.line).foldlM addLine ⟨done⟩ = .ok ⟨done ++ rest⟩ := by
  induction rest generalizing done with
  | nil =>
      rw [List.append_nil]
      rfl
  | cons entry rest inductionHypothesis =>
      have added : addLine ⟨done⟩ entry.line = .ok ⟨done ++ [entry]⟩ := by
        rw [addLine, readLine?_line (legible entry List.mem_cons_self)]
        cases entry with
        | separator => rfl
        | method m size =>
            dsimp only
            rw [push?_of_new (not_mem_ranking_of_nodup distinct)]
      rw [List.map_cons, List.foldlM_cons, added]
      change (rest.map Entry.line).foldlM addLine ⟨done ++ [entry]⟩ = _
      have legibleRest : ∀ other ∈ rest, other.Legible := fun other member =>
        legible other (List.mem_cons_of_mem entry member)
      rw [inductionHypothesis legibleRest]
      · rw [List.append_assoc]
        rfl
      · rw [List.append_assoc]
        exact distinct

/-- A well-formed order whose methods are legible is read back from its text. -/
theorem parse_render (wellFormed : o.WellFormed)
    (legible : ∀ entry ∈ o.methods, entry.1.Legible) : parse o.render = .ok o := by
  have entries : ∀ entry ∈ o.entries, entry.Legible := by
    rintro entry member m size rfl
    have listed : (m, size) ∈ o.methods :=
      List.mem_filterMap.mpr ⟨_, member, rfl⟩
    exact ⟨legible _ listed, wellFormed.sizes _ listed⟩
  rw [parse, lines_render entries]
  exact foldlM_line (show ∀ entry ∈ o.entries, entry.Legible from entries)
    (show (Order.mk ([] ++ o.entries)).ranking.Nodup from wellFormed.distinct)

end Order

end CodeLayout
