import CodeLayout.Proofs.Order.Grammar

/-!
# Orders read again

An order is made up of entries, one put behind the other.  It is read back from its
text exactly if its methods can be told apart in a line; an order that was read from
a text always is, whatever the text looked like.
-/

namespace CodeLayout.Order

variable {o : Order} {m : Method} {size : Nat} {line text : List Char}
  {entry : Entry} {entries done rest : List Entry}

/-- Put an entry at the end.  A method that is listed already is refused, which leaves
the order as it is. -/
def add (o : Order) : Entry → Order
  | .method m size => (o.push? m size).getD o
  | .separator => o.separate

/-- The order that is made up of some entries. -/
def build (entries : List Entry) : Order :=
  entries.foldl add empty

/-- No code length is above the limit for sizes. -/
def Limited (entries : List Entry) : Prop :=
  ∀ m size, .method m size ∈ entries → size ≤ Size.largest

/-! ## Orders made up of entries -/

theorem WellFormed.add (wellFormed : o.WellFormed)
    (limited : ∀ m size, entry = .method m size → size ≤ Size.largest) :
    (o.add entry).WellFormed := by
  cases entry with
  | separator => exact wellFormed.separate
  | method m size =>
      rw [Order.add]
      cases pushed : o.push? m size with
      | none => exact wellFormed
      | some extended => exact wellFormed.push pushed (limited m size rfl)

theorem wellFormed_build (limited : Limited entries) : (build entries).WellFormed := by
  refine List.foldlRecOn entries _ wellFormed_empty (motive := WellFormed) ?_
  intro o wellFormed entry member
  refine wellFormed.add ?_
  rintro m size rfl
  exact limited m size member

theorem foldl_add (distinct : (Order.mk (done ++ rest)).ranking.Nodup) :
    rest.foldl add ⟨done⟩ = ⟨done ++ rest⟩ := by
  induction rest generalizing done with
  | nil => rw [List.append_nil, List.foldl_nil]
  | cons entry rest inductionHypothesis =>
      have added : add ⟨done⟩ entry = ⟨done ++ [entry]⟩ := by
        cases entry with
        | separator => rfl
        | method m size => rw [add, push?_of_new (not_mem_ranking_of_nodup distinct)]; rfl
      have split : done ++ entry :: rest = done ++ [entry] ++ rest :=
        List.append_cons done entry rest
      rw [List.foldl_cons, added, split]
      exact inductionHypothesis (split ▸ distinct)

/-- A well-formed order is made up of its own entries. -/
theorem WellFormed.build_entries (wellFormed : o.WellFormed) : build o.entries = o := by
  have distinct : (Order.mk ([] ++ o.entries)).ranking.Nodup := wellFormed.distinct
  exact foldl_add distinct

theorem WellFormed.limited (wellFormed : o.WellFormed) : Limited o.entries :=
  fun m size member => wellFormed.sizes (m, size) (List.mem_filterMap.mpr ⟨_, member, rfl⟩)

/-! ## Orders from texts -/

/-- A line has neither a newline inside nor a carriage return at its end. -/
theorem plain_of_mem_rows (member : line ∈ rows text) :
    '\n' ∉ line ∧ line.getLast? ≠ some '\r' := by
  rcases List.mem_map.mp member with ⟨field, isField, rfl⟩
  constructor
  · rw [← Fields.split_eq_splitOn] at isField
    intro newline
    exact Fields.not_mem_of_mem_split isField ((List.rdropWhile_prefix _ field).subset newline)
  · intro last
    rcases List.getLast?_eq_some_iff.mp last with ⟨before, ends⟩
    have nonempty : field.rdropWhile (· = '\r') ≠ [] := by simp [ends]
    have other := List.rdropWhile_last_not (· = '\r') field nonempty
    simp [ends] at other

theorem not_mem_slashed {c : Char} {holder : List Char} (absent : c ∉ holder ∨ c = '.')
    (plain : c ≠ '/') : c ∉ slashed holder := by
  intro member
  rcases List.mem_map.mp member with ⟨d, inHolder, equal⟩
  split at equal
  · exact plain equal.symm
  · rename_i noPoint
    rcases absent with notInHolder | isPoint
    · exact notInHolder (equal ▸ inHolder)
    · exact noPoint (equal.trans isPoint)

/-- The method that a line lists is legible. -/
theorem legible_of_reads (reads : Reads line (some (.method m size))) (newline : '\n' ∉ line)
    (last : line.getLast? ≠ some '\r') : m.Legible := by
  cases reads with
  | @method sign digits holder name signature optional nonempty numeral limited hasHolder
      holderPlain hasName namePlain hasSignature =>
      simp only [List.mem_cons, List.mem_append, not_or] at newline
      rcases newline with ⟨_, _, _, _, newlineHolder, _, newlineName, _, newlineSignature⟩
      constructor
      · simpa [slashed] using hasHolder
      · rw [String.toList_ofList]
        exact ⟨not_mem_slashed (Or.inl holderPlain) (by decide),
          not_mem_slashed (Or.inl newlineHolder) (by decide),
          not_mem_slashed (Or.inr rfl) (by decide)⟩
      · simpa using hasName
      · simpa using ⟨namePlain, newlineName⟩
      · simpa using hasSignature
      · simpa using newlineSignature
      · rcases List.eq_nil_or_concat signature with rfl | ⟨front, c, rfl⟩
        · contradiction
        · simpa [List.getLast?_cons, List.getLast?_append] using last

/-- The methods of an order that was read from a text are legible. -/
theorem legible_of_parse (parsed : parse text = .ok o) : ∀ m ∈ o.ranking, m.Legible := by
  rw [parse_eq_foldlM] at parsed
  intro m listed
  have tells := (addLines_empty_iff.mp parsed).2
  rcases tells.mem_ranking_iff.mp listed with ⟨line, member, size, reads⟩
  rcases plain_of_mem_rows member with ⟨newline, last⟩
  exact legible_of_reads reads newline last

/-- A well-formed order is read back from its text exactly if its methods are legible. -/
theorem WellFormed.parse_render_iff (wellFormed : o.WellFormed) :
    parse o.render = .ok o ↔ ∀ m ∈ o.ranking, m.Legible := by
  constructor
  · exact legible_of_parse
  · intro legible
    exact parse_render wellFormed fun entry listed => legible _ (List.mem_map_of_mem listed)

/-- What is made up of legible methods is read back from its text, and whatever is read
from a text is so made up. -/
theorem reread_of_legible :
    (∀ entries, Limited entries →
      ((∀ m ∈ (build entries).ranking, m.Legible) ↔
        parse (build entries).render = .ok (build entries))) ∧
    ∀ text o, parse text = .ok o →
      (∃ entries, Limited entries ∧ build entries = o) ∧ (∀ m ∈ o.ranking, m.Legible) ∧
        parse o.render = .ok o := by
  constructor
  · intro entries limited
    exact (wellFormed_build limited).parse_render_iff.symm
  · intro text o parsed
    have wellFormed := wellFormed_of_parse parsed
    have legible := legible_of_parse parsed
    exact ⟨⟨o.entries, wellFormed.limited, wellFormed.build_entries⟩, legible,
      wellFormed.parse_render_iff.mpr legible⟩

/-- Entries that look like other lines, and a method that is listed again. -/
def oddEntries : List Entry :=
  [.separator, .method ⟨"#C", "M", " C # "⟩ 0, .method ⟨"a", "b", "c"⟩ Size.largest,
    .method ⟨"#C", "M", " C # "⟩ 1, .separator]

theorem limited_oddEntries : Limited oddEntries := by
  intro m size member
  simp only [oddEntries, List.mem_cons, reduceCtorEq, Entry.method.injEq, List.not_mem_nil,
    or_false, false_or] at member
  rcases member with ⟨_, rfl⟩ | ⟨_, rfl⟩ | ⟨_, rfl⟩ <;> decide

theorem build_oddEntries :
    build oddEntries = ⟨[.separator, .method ⟨"#C", "M", " C # "⟩ 0,
      .method ⟨"a", "b", "c"⟩ Size.largest, .separator]⟩ :=
  rfl

/-- A separator and a method, as they are read from a carelessly written text. -/
def carelessOrder : Order :=
  ⟨[.separator, .method ⟨"a/B", "run.x", "()V y"⟩ 7]⟩

/-- Both ways, at odd entries and at a carelessly written text. -/
theorem reread_odd :
    parse (build oddEntries).render = .ok (build oddEntries) ∧
      parse "C x\r\n\n# M\nM +007 a.B run.x ()V y\r\r".toList = .ok carelessOrder ∧
      parse "C\nM 7 a/B run.x ()V y\n".toList = .ok carelessOrder := by
  have legible : ∀ m ∈ (build oddEntries).ranking, m.Legible := by
    rw [build_oddEntries]
    intro m listed
    rcases List.mem_cons.mp listed with rfl | last
    · constructor <;> decide
    · rw [List.mem_singleton.mp last]
      constructor <;> decide
  have careless : parse "C x\r\n\n# M\nM +007 a.B run.x ()V y\r\r".toList = .ok carelessOrder :=
    rfl
  have seven : Digits.render 7 = ['7'] := by
    rw [Digits.render]
    rfl
  have rendered : carelessOrder.render = "C\nM 7 a/B run.x ()V y\n".toList := by
    simp only [render, carelessOrder, List.flatMap_cons, Entry.render, seven]
    rfl
  rw [← rendered]
  exact ⟨(reread_of_legible.1 oddEntries limited_oddEntries).mp legible, careless,
    (reread_of_legible.2 _ _ careless).2.2⟩

end CodeLayout.Order
