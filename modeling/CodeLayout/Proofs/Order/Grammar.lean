import CodeLayout.Proofs.Order.Printing
import Mathlib.Data.List.DropRight
import Mathlib.Data.List.Forall2
import Mathlib.Data.List.ReduceOption

/-!
# The grammar of orders

Which lines an order may have, and what each of them says, as a relation that does
not depend on how lines are read.  A text is an order exactly if each of its lines
says something and no two lines list the same method; its entries are then what the
lines say, one after the other.  Otherwise the first line that offends against one of
the two rules is the error.
-/

namespace CodeLayout.Order

variable {o extended : Order} {m : Method} {size : Nat} {text line : List Char}
  {said : Option Entry} {lines : List (List Char)} {entries : List Entry} {cause : ParseError}

/-! ## Lines -/

/-- The name of a holder with slashes in place of points. -/
def slashed (holder : List Char) : List Char :=
  holder.map fun c => if c = '.' then '/' else c

/-- What a line of an order says, if it says anything. -/
inductive Reads : List Char → Option Entry → Prop
  | empty : Reads [] none
  | comment (rest : List Char) : Reads ('#' :: rest) none
  | separator : Reads ['C'] (some .separator)
  | component (rest : List Char) : Reads ('C' :: ' ' :: rest) (some .separator)
  | method {sign digits holder name signature : List Char}
      (optional : sign = [] ∨ sign = ['+'])
      (nonempty : digits ≠ []) (numeral : ∀ c ∈ digits, c.isDigit = true)
      (limited : Digits.value digits ≤ Size.largest)
      (hasHolder : holder ≠ []) (holderPlain : ' ' ∉ holder)
      (hasName : name ≠ []) (namePlain : ' ' ∉ name) (hasSignature : signature ≠ []) :
      Reads ('M' :: ' ' ::
          ((sign ++ digits) ++ ' ' :: (holder ++ ' ' :: (name ++ ' ' :: signature))))
        (some (.method ⟨String.ofList (slashed holder), String.ofList name, String.ofList signature⟩
          (Digits.value digits)))

theorem readSize?_eq_some_iff :
    readSize? text = some size ↔ ∃ sign digits, (sign = [] ∨ sign = ['+']) ∧
      text = sign ++ digits ∧ digits ≠ [] ∧ (∀ c ∈ digits, c.isDigit = true) ∧
      Digits.value digits = size ∧ size ≤ Size.largest := by
  constructor
  · intro read
    rcases Option.bind_eq_some_iff.mp read with ⟨n, isNumber, isSize⟩
    split at isSize
    · rename_i limited
      cases isSize
      rcases Digits.parsePlus?_eq_some_iff.mp isNumber with ⟨sign, digits, optional, rfl, parsed⟩
      rcases Digits.parse?_eq_some_iff.mp parsed with ⟨nonempty, numeral, value⟩
      exact ⟨sign, digits, optional, rfl, nonempty, numeral, value, limited⟩
    · contradiction
  · rintro ⟨sign, digits, optional, rfl, nonempty, numeral, value, limited⟩
    have parsed := Digits.parse?_eq_some_iff.mpr ⟨nonempty, numeral, value⟩
    rw [readSize?, Digits.parsePlus?_eq_some_iff.mpr ⟨sign, digits, optional, rfl, parsed⟩,
      Option.bind_some, if_pos limited]

theorem readMethod?_eq_some_iff :
    readMethod? text = some m ↔ ∃ holder name signature,
      text = holder ++ ' ' :: (name ++ ' ' :: signature) ∧
      (holder ≠ [] ∧ ' ' ∉ holder) ∧ (name ≠ [] ∧ ' ' ∉ name) ∧ signature ≠ [] ∧
      m = ⟨String.ofList (slashed holder), String.ofList name, String.ofList signature⟩ := by
  constructor
  · intro read
    rcases Option.bind_eq_some_iff.mp read with ⟨⟨holder, rest⟩, first, read⟩
    rcases Option.bind_eq_some_iff.mp read with ⟨⟨name, signature⟩, second, named⟩
    rcases Fields.splitOnce_eq_some_iff.mp first with ⟨holderPlain, rfl⟩
    rcases Fields.splitOnce_eq_some_iff.mp second with ⟨namePlain, rfl⟩
    dsimp only at named
    split at named
    · contradiction
    · rename_i present
      cases named
      simp only [Bool.or_eq_true, List.isEmpty_iff, not_or] at present
      exact ⟨holder, name, signature, rfl, ⟨present.1.1, holderPlain⟩, ⟨present.1.2, namePlain⟩,
        present.2, rfl⟩
  · rintro ⟨holder, name, signature, rfl, ⟨hasHolder, holderPlain⟩, ⟨hasName, namePlain⟩,
      hasSignature, rfl⟩
    have present : (holder.isEmpty || name.isEmpty || signature.isEmpty) = false := by
      simp [hasHolder, hasName, hasSignature]
    rw [readMethod?, Fields.splitOnce_append holderPlain]
    simp only [Option.bind_eq_bind, Option.bind_some, Fields.splitOnce_append namePlain, present]
    rfl

/-- A line is read as the grammar says. -/
theorem readLine?_eq_some_iff : readLine? line = some said ↔ Reads line said := by
  constructor
  · intro read
    unfold readLine? at read
    split at read
    case h_1 =>
      cases read
      exact .empty
    case h_2 rest =>
      cases read
      exact .comment rest
    case h_3 =>
      cases read
      exact .separator
    case h_4 rest =>
      cases read
      exact .component rest
    case h_5 rest =>
      rcases Option.bind_eq_some_iff.mp read with ⟨⟨number, names⟩, cut, read⟩
      rcases Option.bind_eq_some_iff.mp read with ⟨size, isSize, read⟩
      rcases Option.bind_eq_some_iff.mp read with ⟨m, isMethod, equal⟩
      cases equal
      rcases Fields.splitOnce_eq_some_iff.mp cut with ⟨_, rfl⟩
      rcases readSize?_eq_some_iff.mp isSize with
        ⟨sign, digits, optional, rfl, nonempty, numeral, rfl, limited⟩
      rcases readMethod?_eq_some_iff.mp isMethod with
        ⟨holder, name, signature, rfl, hasHolder, hasName, hasSignature, rfl⟩
      exact .method optional nonempty numeral limited hasHolder.1 hasHolder.2 hasName.1 hasName.2
        hasSignature
    case h_6 => contradiction
  · intro reads
    cases reads with
    | empty => rfl
    | comment rest => rfl
    | separator => rfl
    | component rest => rfl
    | @method sign digits holder name signature optional nonempty numeral limited hasHolder
        holderPlain hasName namePlain hasSignature =>
        have plain : ' ' ∉ sign ++ digits := by
          intro member
          rcases List.mem_append.mp member with inSign | inDigits
          · rcases optional with rfl | rfl <;> simp at inSign
          · exact absurd (numeral ' ' inDigits) (by decide)
        have isSize : readSize? (sign ++ digits) = some (Digits.value digits) :=
          readSize?_eq_some_iff.mpr
            ⟨sign, digits, optional, rfl, nonempty, numeral, rfl, limited⟩
        have isMethod := readMethod?_eq_some_iff.mpr ⟨holder, name, signature, rfl,
          ⟨hasHolder, holderPlain⟩, ⟨hasName, namePlain⟩, hasSignature, rfl⟩
        rw [readLine?, Fields.splitOnce_append plain]
        simp only [Option.bind_eq_bind, Option.bind_some, isSize, isMethod]

/-- No line can be understood in two ways. -/
theorem reads_unique {other : Option Entry} (first : Reads line said) (second : Reads line other) :
    said = other :=
  Option.some.inj ((readLine?_eq_some_iff.mpr first).symm.trans (readLine?_eq_some_iff.mpr second))

/-! ## Lists of lines -/

/-- The entries are what the lines say, one after the other. -/
def Tells (lines : List (List Char)) (entries : List Entry) : Prop :=
  ∃ said, List.Forall₂ Reads lines said ∧ entries = said.reduceOption

/-- The lines do not list the same method. -/
def Differ (line other : List Char) : Prop :=
  ∀ m size otherSize, Reads line (some (.method m size)) →
    ¬ Reads other (some (.method m otherSize))

/-- Each line says something, and no two lines list the same method. -/
structure Acceptable (lines : List (List Char)) : Prop where
  readable : ∀ line ∈ lines, ∃ said, Reads line said
  distinct : lines.Pairwise Differ

/-- Why the first line that offends does so, and the message about it. -/
inductive Offends (lines : List (List Char)) : ParseError → String → Prop
  | senseless {before after : List (List Char)} {line : List Char}
      (split : lines = before ++ line :: after) (acceptable : Acceptable before)
      (senseless : ∀ said, ¬ Reads line said) :
      Offends lines (.badLine line)
        ("Wrong format of JBolt order line! line=\"" ++ String.ofList line ++ "\".")
  | repeated {before after : List (List Char)} {line earlier : List Char} {m : Method}
      {size earlierSize : Nat}
      (split : lines = before ++ line :: after) (acceptable : Acceptable before)
      (listed : earlier ∈ before) (lists : Reads earlier (some (.method m earlierSize)))
      (again : Reads line (some (.method m size))) :
      Offends lines (.duplicate m)
        ("Duplicated method: \x7b" ++ m.holder ++ " " ++ m.name ++ " " ++ m.signature ++ "\x7d!")

@[simp]
theorem ranking_separator_cons (entries : List Entry) :
    (Order.mk (.separator :: entries)).ranking = (Order.mk entries).ranking :=
  rfl

@[simp]
theorem ranking_method_cons (m : Method) (size : Nat) (entries : List Entry) :
    (Order.mk (.method m size :: entries)).ranking = m :: (Order.mk entries).ranking :=
  rfl

/-- Readable lines tell some entries. -/
theorem exists_tells (readable : ∀ line ∈ lines, ∃ said, Reads line said) :
    ∃ entries, Tells lines entries := by
  have each : ∃ said, List.Forall₂ Reads lines said := by
    induction lines with
    | nil => exact ⟨[], .nil⟩
    | cons line rest inductionHypothesis =>
        rcases List.forall_mem_cons.mp readable with ⟨⟨first, reads⟩, others⟩
        rcases inductionHypothesis others with ⟨said, readRest⟩
        exact ⟨first :: said, .cons reads readRest⟩
  rcases each with ⟨said, reads⟩
  exact ⟨_, said, reads, rfl⟩

theorem Tells.readable (tells : Tells lines entries) :
    ∀ line ∈ lines, ∃ said, Reads line said := by
  rcases tells with ⟨said, reads, rfl⟩
  induction reads with
  | nil => exact fun line member => absurd member List.not_mem_nil
  | cons first _ inductionHypothesis =>
      exact List.forall_mem_cons.mpr ⟨⟨_, first⟩, inductionHypothesis⟩

/-- A method is among the entries if one of the lines lists it. -/
theorem Tells.mem_ranking_iff (tells : Tells lines entries) :
    m ∈ (Order.mk entries).ranking ↔
      ∃ line ∈ lines, ∃ size, Reads line (some (.method m size)) := by
  rcases tells with ⟨said, reads, rfl⟩
  induction reads with
  | nil => simp [ranking, methods]
  | @cons line entry lines said first _ inductionHypothesis =>
      have here : (∃ size, Reads line (some (.method m size))) ↔
          ∃ size, entry = some (.method m size) :=
        exists_congr fun size => ⟨reads_unique first, fun equal => equal ▸ first⟩
      rw [List.exists_mem_cons_iff, here, ← inductionHypothesis]
      rcases entry with _ | ⟨other, length⟩ | _ <;> simp [eq_comm]

/-- A line that lists no method does not list the method of another one. -/
theorem differ_of_reads (reads : Reads line said)
    (lists : ∀ m size, said ≠ some (.method m size)) (other : List Char) : Differ line other :=
  fun m size _ isMethod => absurd (reads_unique reads isMethod) (lists m size)

/-- The entries list a method twice exactly if two of the lines do. -/
theorem Tells.nodup_iff (tells : Tells lines entries) :
    (Order.mk entries).ranking.Nodup ↔ lines.Pairwise Differ := by
  rcases tells with ⟨said, reads, rfl⟩
  induction reads with
  | nil => simp [ranking, methods]
  | @cons line entry lines said first others inductionHypothesis =>
      rw [List.pairwise_cons, ← inductionHypothesis]
      rcases entry with _ | ⟨m, size⟩ | _
      · have differs := differ_of_reads first (by simp)
        simp [differs]
      · have listed := Tells.mem_ranking_iff (m := m) ⟨said, others, rfl⟩
        have new : m ∉ (Order.mk said.reduceOption).ranking ↔
            ∀ other ∈ lines, Differ line other := by
          rw [listed]
          constructor
          · intro absent other member m' length otherSize isFirst isOther
            cases reads_unique first isFirst
            exact absent ⟨other, member, otherSize, isOther⟩
          · rintro differ ⟨other, member, otherSize, isOther⟩
            exact differ other member m size otherSize first isOther
        simp [new]
      · have differs := differ_of_reads first (by simp)
        simp [differs]

/-! ## Adding lines -/

theorem addLine_eq_ok_iff (distinct : o.ranking.Nodup) :
    addLine o line = .ok extended ↔
      ∃ said, Reads line said ∧ extended.entries = o.entries ++ said.toList ∧
        extended.ranking.Nodup := by
  constructor
  · intro added
    rw [addLine] at added
    split at added
    · contradiction
    · rename_i read
      cases added
      exact ⟨none, readLine?_eq_some_iff.mp read, by simp, distinct⟩
    · rename_i read
      cases added
      refine ⟨_, readLine?_eq_some_iff.mp read, rfl, ?_⟩
      simpa [ranking] using distinct
    · rename_i m size read
      split at added
      · rename_i pushed
        cases added
        rcases push?_eq_some_iff.mp pushed with ⟨_, rfl⟩
        exact ⟨_, readLine?_eq_some_iff.mp read, rfl, nodup_push distinct pushed⟩
      · contradiction
  · rcases extended with ⟨entries⟩
    rintro ⟨said, reads, rfl, distinctAfter⟩
    rw [addLine, readLine?_eq_some_iff.mpr reads]
    rcases said with _ | ⟨m, size⟩ | _
    · simp
    · dsimp only
      rw [push?_of_new (not_mem_ranking_of_nodup distinctAfter)]
      rfl
    · rfl

theorem addLine_eq_error_iff :
    addLine o line = .error cause ↔
      (∀ said, ¬ Reads line said) ∧ cause = .badLine line ∨
        ∃ m size, Reads line (some (.method m size)) ∧ m ∈ o.ranking ∧ cause = .duplicate m := by
  simp only [← readLine?_eq_some_iff]
  rw [addLine]
  rcases readLine? line with _ | _ | ⟨m, size⟩ | _
  · simp [eq_comm]
  · simp
  · by_cases old : m ∈ o.ranking
    · have refused : o.push? m size = none := by simp [push?, contains, old]
      simp [refused, old, eq_comm]
    · simp [push?_of_new old, old]
  · simp

/-- A computation over a list that fails does so at one of its members. -/
theorem foldlM_eq_error_iff {α β ε : Type} {f : β → α → Except ε β} {start : β} {xs : List α}
    {cause : ε} :
    xs.foldlM f start = .error cause ↔
      ∃ before x after middle, xs = before ++ x :: after ∧
        before.foldlM f start = .ok middle ∧ f middle x = .error cause := by
  induction xs generalizing start with
  | nil => simp [pure, Except.pure]
  | cons y rest inductionHypothesis =>
      rw [List.foldlM_cons]
      constructor
      · intro fails
        cases first : f start y with
        | error fault =>
            rw [first] at fails
            exact ⟨[], y, rest, start, rfl, rfl, first.trans fails⟩
        | ok middle =>
            rw [first] at fails
            rcases inductionHypothesis.mp fails with ⟨before, x, after, last, rfl, runs, stops⟩
            refine ⟨y :: before, x, after, last, rfl, ?_, stops⟩
            rw [List.foldlM_cons, first]
            exact runs
      · rintro ⟨before, x, after, last, split, runs, stops⟩
        cases before with
        | nil =>
            cases split
            cases runs
            rw [stops]
            rfl
        | cons z before =>
            cases split
            rw [List.foldlM_cons] at runs
            cases first : f start y with
            | error fault =>
                rw [first] at runs
                contradiction
            | ok middle =>
                rw [first] at runs
                exact inductionHypothesis.mpr ⟨before, x, after, last, rfl, runs, stops⟩

/-- Lines are added if they can be read and list new methods only. -/
theorem addLines_eq_ok_iff (distinct : o.ranking.Nodup) :
    lines.foldlM addLine o = .ok extended ↔
      ∃ said, List.Forall₂ Reads lines said ∧ extended.entries = o.entries ++ said.reduceOption ∧
        extended.ranking.Nodup := by
  induction lines generalizing o with
  | nil =>
      constructor
      · rintro ⟨⟩
        exact ⟨[], .nil, by simp, distinct⟩
      · rcases extended with ⟨entries⟩
        rintro ⟨said, ⟨⟩, equal, _⟩
        cases equal
        simp [pure, Except.pure]
  | cons line rest inductionHypothesis =>
      rw [List.foldlM_cons]
      constructor
      · intro added
        cases first : addLine o line with
        | error fault =>
            rw [first] at added
            contradiction
        | ok middle =>
            rw [first] at added
            rcases (addLine_eq_ok_iff distinct).mp first with ⟨here, reads, entries, distinctHere⟩
            rcases (inductionHypothesis distinctHere).mp added with
              ⟨said, others, entriesAfter, last⟩
            refine ⟨here :: said, .cons reads others, ?_, last⟩
            rw [entriesAfter, entries]
            cases here <;> simp
      · rintro ⟨_, read, entries, last⟩
        cases read with
        | @cons _ here _ said reads others =>
            have parts : extended = ⟨(o.entries ++ here.toList) ++ said.reduceOption⟩ := by
              rcases extended with ⟨all⟩
              cases here <;> simp_all
            have distinctHere : (Order.mk (o.entries ++ here.toList)).ranking.Nodup := by
              rw [parts, ranking_append] at last
              exact last.of_append_left
            have first : addLine o line = .ok ⟨o.entries ++ here.toList⟩ :=
              (addLine_eq_ok_iff distinct).mpr ⟨here, reads, rfl, distinctHere⟩
            rw [first]
            exact (inductionHypothesis distinctHere).mpr
              ⟨said, others, congrArg Order.entries parts, last⟩

/-- Lines that make up an order are acceptable, and the order has what they say. -/
theorem addLines_empty_iff :
    lines.foldlM addLine empty = .ok o ↔ Acceptable lines ∧ Tells lines o.entries := by
  rw [addLines_eq_ok_iff (show empty.ranking.Nodup from List.nodup_nil)]
  constructor
  · rintro ⟨said, reads, entries, distinct⟩
    have tells : Tells lines o.entries := ⟨said, reads, entries⟩
    exact ⟨⟨tells.readable, tells.nodup_iff.mp distinct⟩, tells⟩
  · rintro ⟨acceptable, said, reads, entries⟩
    have tells : Tells lines o.entries := ⟨said, reads, entries⟩
    exact ⟨said, reads, entries, tells.nodup_iff.mpr acceptable.distinct⟩

/-- Acceptable lines make up an order. -/
theorem Acceptable.exists_order (acceptable : Acceptable lines) :
    ∃ o, lines.foldlM addLine empty = .ok o ∧ Tells lines o.entries := by
  rcases exists_tells acceptable.readable with ⟨entries, tells⟩
  exact ⟨⟨entries⟩, addLines_empty_iff.mpr ⟨acceptable, tells⟩, tells⟩

/-- Lines are refused for the first one that offends. -/
theorem addLines_eq_error_iff :
    lines.foldlM addLine empty = .error cause ↔ Offends lines cause cause.toFault.message := by
  rw [foldlM_eq_error_iff]
  constructor
  · rintro ⟨before, line, after, o, split, added, stops⟩
    rcases addLines_empty_iff.mp added with ⟨acceptable, tells⟩
    rcases addLine_eq_error_iff.mp stops with ⟨senseless, rfl⟩ | ⟨m, size, again, old, rfl⟩
    · exact .senseless split acceptable senseless
    · rcases tells.mem_ranking_iff.mp old with ⟨earlier, listed, earlierSize, lists⟩
      exact .repeated split acceptable listed lists again
  · intro offends
    cases offends with
    | senseless split acceptable senseless =>
        rcases acceptable.exists_order with ⟨o, added, _⟩
        exact ⟨_, _, _, o, split, added, addLine_eq_error_iff.mpr (Or.inl ⟨senseless, rfl⟩)⟩
    | repeated split acceptable listed lists again =>
        rcases acceptable.exists_order with ⟨o, added, tells⟩
        have old := tells.mem_ranking_iff.mpr ⟨_, listed, _, lists⟩
        exact ⟨_, _, _, o, split, added,
          addLine_eq_error_iff.mpr (Or.inr ⟨_, _, again, old, rfl⟩)⟩

/-! ## Texts -/

/-- The lines of a text, without the carriage returns at their ends. -/
def rows (text : List Char) : List (List Char) :=
  (text.splitOn '\n').map fun line => line.rdropWhile (· = '\r')

/-- Reading a text adds its lines one after the other.  It does not matter that a text
that ends with a newline has no line after it, since an empty line says nothing. -/
theorem parse_eq_foldlM (text : List Char) : parse text = (rows text).foldlM addLine empty := by
  have same : Fields.dropReturns = fun line => line.rdropWhile (· = '\r') := rfl
  rw [rows, ← Fields.split_eq_splitOn, ← same, parse]
  rcases Fields.split_newline text with all | more
  · rw [all]
  · rw [more, List.map_append, List.foldlM_append]
    exact (bind_pure _).symm

/-- A text is an order exactly if its lines are acceptable, and the order has what they
say; otherwise the first line that offends is the error. -/
theorem parse_of_grammar (text : List Char) :
    ((∃ o, parse text = .ok o) ↔ Acceptable (rows text)) ∧
      (∀ o, parse text = .ok o ↔ Acceptable (rows text) ∧ Tells (rows text) o.entries) ∧
      ∀ cause, parse text = .error cause ↔
        Offends (rows text) cause cause.toFault.message := by
  rw [parse_eq_foldlM]
  refine ⟨⟨?_, ?_⟩, fun o => addLines_empty_iff, fun cause => addLines_eq_error_iff⟩
  · rintro ⟨o, added⟩
    exact (addLines_empty_iff.mp added).1
  · intro acceptable
    rcases acceptable.exists_order with ⟨o, added, _⟩
    exact ⟨o, added⟩

end CodeLayout.Order
