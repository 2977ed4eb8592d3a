import CodeLayout.Proofs.Launch.Spelling
import Mathlib.Data.List.DropRight

/-!
# The spelling of log arguments

A log argument selects tags with their levels, one after the other.  A selector is a tag with
any number of stars behind it, and perhaps an equals sign and a word for the level.  What log
arguments select is stated here without the reader, which accepts these spellings and no other
ones.
-/

namespace CodeLayout

variable {text word tag selector argument : String} {level : Option Level} {d : LogDirective}
variable {selectors : List String} {selections : List LogDirective} {fault : LaunchError}

namespace LogDirective

/-- A word for a level, or for none.  There are two words for warnings. -/
inductive LevelWord : String → Option Level → Prop
  | name (level : Option Level) : LevelWord (levelName level) level
  | warning : LevelWord "warning" (some .warn)

/-- A tag has nothing inside that means something in a log argument. -/
structure IsTag (tag : String) : Prop where
  filled : tag ≠ ""
  plain : ∀ mark ∈ ['*', '=', ',', ':'], mark ∉ tag.toList

/-- The tag that one in an argument stands for. -/
def meant (tag : String) : String :=
  if tag = "all" then LogLine.eventTarget else tag

/-- A tag with stars behind it, which mean nothing. -/
def starred (tag : String) (stars : Nat) : String :=
  tag ++ String.ofList (List.replicate stars '*')

/-- A selector, and the level that it gives to a tag. -/
inductive Selects : String → LogDirective → Prop
  | plain {tag : String} (isTag : IsTag tag) (stars : Nat) :
      Selects (starred tag stars) ⟨meant tag, some .info⟩
  | levelled {tag word : String} {level : Option Level} (isTag : IsTag tag) (stars : Nat)
      (isWord : LevelWord word level) :
      Selects (starred tag stars ++ "=" ++ word) ⟨meant tag, level⟩

/-- The change that gives a level to a tag. -/
def change (d : LogDirective) : LaunchChange :=
  .select d.tag d.level

end LogDirective

namespace LaunchArgument

open LogDirective

/-- A log argument, and the levels that it gives to tags, one after the other. -/
inductive Selects : String → List LogDirective → Prop
  | bare : Selects "-Xlog" [⟨LogLine.eventTarget, some .info⟩]
  | disable : Selects "-Xlog:disable" [⟨LogLine.eventTarget, none⟩]
  | selectors {selectors : List String} {selections : List LogDirective} (filled : selectors ≠ [])
      (select : List.Forall₂ LogDirective.Selects selectors selections)
      (other : ",".intercalate selectors ≠ "disable") :
      Selects ("-Xlog:" ++ ",".intercalate selectors) selections
  | toOutput {selectors : List String} {selections : List LogDirective} (filled : selectors ≠ [])
      (select : List.Forall₂ LogDirective.Selects selectors selections) (output : LogOutput) :
      Selects ("-Xlog:" ++ (",".intercalate selectors ++ ":" ++ output.name)) selections

/-- An argument about the log, acceptable or not. -/
def IsLog (argument : String) : Prop :=
  argument = "-Xlog" ∨ ∃ spec, argument = "-Xlog:" ++ spec

/-! ## Words and tags -/

theorem readLevel?_eq_some_iff : readLevel? word = some level ↔ LevelWord word level := by
  constructor
  · intro read
    unfold readLevel? at read
    split at read <;> cases read
    · exact .name none
    · exact .name (some .error)
    · exact .warning
    · exact .name (some .warn)
    · exact .name (some .info)
    · exact .name (some .debug)
    · exact .name (some .trace)
  · intro isWord
    cases isWord with
    | warning => rfl
    | name =>
        cases level with
        | none => rfl
        | some level => cases level <;> rfl

theorem toList_starred (tag : String) (stars : Nat) :
    (starred tag stars).toList = tag.toList ++ List.replicate stars '*' := by
  rw [starred, String.toList_append, String.toList_ofList]

/-- Without the stars at its end, a tag is left. -/
theorem rdropWhile_starred (plain : '*' ∉ tag.toList) (stars : Nat) :
    (starred tag stars).toList.rdropWhile (· = '*') = tag.toList := by
  rw [toList_starred]
  induction stars with
  | zero =>
      rw [List.replicate_zero, List.append_nil, List.rdropWhile_eq_self_iff]
      intro filled last
      exact plain (of_decide_eq_true last ▸ List.getLast_mem filled)
  | succ stars inductionHypothesis =>
      rw [List.replicate_succ', ← List.append_assoc, List.rdropWhile_concat_pos _ _ _ (by simp),
        inductionHypothesis]

theorem exists_starred (text : String) :
    ∃ stars, text = starred (String.ofList (text.toList.rdropWhile (· = '*'))) stars := by
  have star (c : Char) (member : c ∈ text.toList.rtakeWhile (· = '*')) : c = '*' := by
    simpa using List.mem_rtakeWhile_imp member
  refine ⟨(text.toList.rtakeWhile (· = '*')).length, String.toList_inj.mp ?_⟩
  rw [toList_starred, String.toList_ofList, ← List.eq_replicate_of_mem star,
    List.rdropWhile_append_rtakeWhile]

theorem some_meant (tag : List Char) :
    (if tag = "all".toList then some LogLine.eventTarget else some (String.ofList tag)) =
      some (meant (String.ofList tag)) := by
  have chars : (String.ofList tag).toList = tag := String.toList_ofList
  have all : tag = "all".toList ↔ String.ofList tag = "all" := by
    rw [← String.toList_inj, chars]
  rw [meant, apply_ite some]
  exact if_congr all rfl rfl

theorem readTag?_eq_some_iff {name : String} :
    readTag? text = some name ↔
      ∃ tag stars, text = starred tag stars ∧ tag ≠ "" ∧ '*' ∉ tag.toList ∧ name = meant tag := by
  have stripped : (text.toList.reverse.dropWhile (· = '*')).reverse =
      text.toList.rdropWhile (· = '*') := rfl
  rw [readTag?, stripped]
  constructor
  · intro read
    rcases exists_starred text with ⟨stars, whole⟩
    refine ⟨_, stars, whole, ?_⟩
    generalize text.toList.rdropWhile (· = '*') = tag at read
    split at read
    · contradiction
    · rename_i acceptable
      rw [some_meant] at read
      simp only [Bool.or_eq_true, List.isEmpty_iff, List.contains_iff_mem, not_or] at acceptable
      exact ⟨by simpa using acceptable.1, by simpa using acceptable.2,
        (Option.some.inj read).symm⟩
  · rintro ⟨tag, stars, rfl, filled, plain, rfl⟩
    have acceptable : ¬ (tag.toList.isEmpty || tag.toList.contains '*') = true := by
      simpa using ⟨filled, plain⟩
    rw [rdropWhile_starred plain, if_neg acceptable, some_meant, String.ofList_toList]

/-! ## Selectors -/

theorem isTag_iff_starred {stars : Nat} (filled : tag ≠ "") (star : '*' ∉ tag.toList) :
    IsTag tag ↔ '=' ∉ (starred tag stars).toList ∧ ',' ∉ (starred tag stars).toList ∧
      ':' ∉ (starred tag stars).toList := by
  have absent {mark : Char} (different : mark ≠ '*') :
      mark ∉ (starred tag stars).toList ↔ mark ∉ tag.toList := by
    rw [toList_starred, List.mem_append, List.mem_replicate]
    simp [different]
  rw [absent (by decide), absent (by decide), absent (by decide)]
  constructor
  · intro isTag
    exact ⟨isTag.plain _ (by simp), isTag.plain _ (by simp), isTag.plain _ (by simp)⟩
  · rintro ⟨equals, comma, colon⟩
    exact ⟨filled, by simp [star, equals, comma, colon]⟩

theorem not_mem_starred (isTag : IsTag tag) (stars : Nat) :
    '=' ∉ (starred tag stars).toList ∧ ',' ∉ (starred tag stars).toList ∧
      ':' ∉ (starred tag stars).toList :=
  (isTag_iff_starred isTag.filled (isTag.plain _ (by simp))).mp isTag

theorem readTag?_starred (isTag : IsTag tag) (stars : Nat) :
    readTag? (starred tag stars) = some (meant tag) :=
  readTag?_eq_some_iff.mpr ⟨tag, stars, rfl, isTag.filled, isTag.plain _ (by simp), rfl⟩

theorem not_mem_of_levelWord (isWord : LevelWord word level) :
    ',' ∉ word.toList ∧ ':' ∉ word.toList := by
  cases isWord with
  | warning => decide
  | name =>
      cases level with
      | none => decide
      | some level => cases level <;> decide

/-- Nothing that a selector has inside is taken for the end of it. -/
theorem not_mem_of_selects (selects : LogDirective.Selects selector d) :
    ',' ∉ selector.toList ∧ ':' ∉ selector.toList := by
  cases selects with
  | plain isTag stars => exact (not_mem_starred isTag stars).2
  | levelled isTag stars isWord =>
      rcases not_mem_starred isTag stars with ⟨-, comma, colon⟩
      rcases not_mem_of_levelWord isWord with ⟨notComma, notColon⟩
      simp [comma, colon, notComma, notColon]

/-- No tag that is selected has an equals sign inside. -/
theorem equals_not_mem_of_selects (selects : LogDirective.Selects selector d) :
    '=' ∉ d.tag.toList := by
  have plain {tag : String} (isTag : IsTag tag) : '=' ∉ (meant tag).toList := by
    rw [meant]
    split
    · decide
    · exact isTag.plain _ (by simp)
  cases selects with
  | plain isTag => exact plain isTag
  | levelled isTag => exact plain isTag

theorem readSelector?_of_selects (selects : LogDirective.Selects selector d) :
    readSelector? selector = some d.change := by
  cases selects with
  | @plain tag isTag stars =>
      rw [readSelector?, Fields.onceOfText_eq_none_iff.mpr (not_mem_starred isTag stars).1]
      dsimp only
      rw [readTag?_starred isTag]
      rfl
  | @levelled tag word level isTag stars isWord =>
      have chars : (starred tag stars ++ "=" ++ word).toList =
          (starred tag stars).toList ++ '=' :: word.toList := by
        simp
      rw [readSelector?,
        Fields.onceOfText_eq_some_iff.mpr ⟨(not_mem_starred isTag stars).1, chars⟩]
      dsimp only
      rw [readLevel?_eq_some_iff.mpr isWord, readTag?_starred isTag]
      rfl

theorem exists_selects {change : LaunchChange} (comma : ',' ∉ selector.toList)
    (colon : ':' ∉ selector.toList) (read : readSelector? selector = some change) :
    ∃ d : LogDirective, LogDirective.Selects selector d := by
  unfold readSelector? at read
  split at read
  · rename_i tags word cut
    rcases Fields.onceOfText_eq_some_iff.mp cut with ⟨equals, whole⟩
    rcases Option.bind_eq_some_iff.mp read with ⟨level, isLevel, rest⟩
    rcases Option.bind_eq_some_iff.mp rest with ⟨name, isName, -⟩
    rcases readTag?_eq_some_iff.mp isName with ⟨tag, stars, rfl, filled, star, -⟩
    have same : selector = starred tag stars ++ "=" ++ word :=
      String.toList_inj.mp (by simp [whole])
    rw [whole, List.mem_append, not_or] at comma colon
    rw [same]
    exact ⟨_, .levelled ((isTag_iff_starred filled star).mpr ⟨equals, comma.1, colon.1⟩) stars
      (readLevel?_eq_some_iff.mp isLevel)⟩
  · rename_i uncut
    rcases Option.map_eq_some_iff.mp read with ⟨name, isName, -⟩
    rcases readTag?_eq_some_iff.mp isName with ⟨tag, stars, rfl, filled, star, -⟩
    have equals := Fields.onceOfText_eq_none_iff.mp uncut
    exact ⟨_, .plain ((isTag_iff_starred filled star).mpr ⟨equals, comma, colon⟩) stars⟩

/-! ## Lists of selectors -/

theorem readSelectors_of_selects
    (select : List.Forall₂ LogDirective.Selects selectors selections) :
    readSelectors fault selectors = sound (selections.map LogDirective.change) := by
  induction select with
  | nil => rfl
  | cons first _ inductionHypothesis =>
      rw [readSelectors, readSelector?_of_selects first, inductionHypothesis]
      rfl

theorem exists_forall₂_selects
    (plain : ∀ selector ∈ selectors, ',' ∉ selector.toList ∧ ':' ∉ selector.toList)
    (faultless : (readSelectors fault selectors).fault = none) :
    ∃ selections, List.Forall₂ LogDirective.Selects selectors selections := by
  induction selectors with
  | nil => exact ⟨[], .nil⟩
  | cons selector rest inductionHypothesis =>
      rcases List.forall_mem_cons.mp plain with ⟨⟨comma, colon⟩, plain⟩
      rw [readSelectors] at faultless
      split at faultless
      · rename_i isRead
        rcases exists_selects comma colon isRead with ⟨d, selects⟩
        rcases inductionHypothesis plain faultless with ⟨selections, select⟩
        exact ⟨d :: selections, .cons selects select⟩
      · contradiction

theorem not_mem_of_forall₂ (select : List.Forall₂ LogDirective.Selects selectors selections) :
    ∀ selector ∈ selectors, ',' ∉ selector.toList ∧ ':' ∉ selector.toList := by
  induction select with
  | nil => simp
  | cons first _ inductionHypothesis =>
      exact List.forall_mem_cons.mpr ⟨not_mem_of_selects first, inductionHypothesis⟩

theorem equals_not_mem_of_forall₂
    (select : List.Forall₂ LogDirective.Selects selectors selections) :
    ∀ d ∈ selections, '=' ∉ d.tag.toList := by
  induction select with
  | nil => simp
  | cons first _ inductionHypothesis =>
      exact List.forall_mem_cons.mpr ⟨equals_not_mem_of_selects first, inductionHypothesis⟩

/-- A text is put together again from what stands between its commas. -/
theorem intercalate_ofText (text : String) :
    ",".intercalate (Fields.ofText ',' text) = text := by
  have comma : ",".toList = [','] := rfl
  rw [← String.toList_inj, String.toList_intercalate, Fields.ofText, Fields.split_eq_splitOn, comma]
  simp [Function.comp_def, List.intercalate_splitOn]

/-- Selectors with commas between them come apart again. -/
theorem ofText_intercalate (filled : selectors ≠ [])
    (select : List.Forall₂ LogDirective.Selects selectors selections) :
    Fields.ofText ',' (",".intercalate selectors) = selectors := by
  have comma : ",".toList = [','] := rfl
  have plain : ∀ field ∈ selectors.map String.toList, ',' ∉ field :=
    List.forall_mem_map.mpr fun selector member => (not_mem_of_forall₂ select selector member).1
  rw [Fields.ofText, Fields.split_eq_splitOn, String.toList_intercalate, comma,
    List.splitOn_intercalate ',' plain (by simpa using filled)]
  simp [Function.comp_def]

theorem colon_not_mem_intercalate
    (select : List.Forall₂ LogDirective.Selects selectors selections) :
    ':' ∉ (",".intercalate selectors).toList := by
  induction select with
  | nil => simp
  | @cons selector _ rest _ first _ inductionHypothesis =>
      have colon := (not_mem_of_selects first).2
      rcases eq_or_ne rest [] with rfl | more
      · simpa using colon
      · rw [String.intercalate_cons_of_ne_nil more]
        simpa [colon] using inductionHypothesis

/-- What stands between the commas of a text has neither commas nor anything inside that
the text does not have. -/
theorem plain_of_ofText (colon : ':' ∉ text.toList) :
    ∀ selector ∈ Fields.ofText ',' text, ',' ∉ selector.toList ∧ ':' ∉ selector.toList := by
  rw [Fields.ofText, List.forall_mem_map]
  intro field isField
  rw [String.toList_ofList]
  exact ⟨Fields.not_mem_of_mem_split isField,
    fun member => colon (Fields.subset_of_mem_split isField member)⟩

theorem ofText_ne_nil (text : String) : Fields.ofText ',' text ≠ [] := by
  rw [Fields.ofText, Ne, List.map_eq_nil_iff]
  exact Fields.split_ne_nil _ _

/-! ## Arguments -/

theorem ofName?_eq_some_iff {name : String} {output : LogOutput} :
    LogOutput.ofName? name = some output ↔ name = output.name := by
  constructor
  · intro read
    unfold LogOutput.ofName? at read
    split at read <;> cases read <;> rfl
  · rintro rfl
    cases output <;> rfl

/-- No reader but the one for the log reads what begins like a log argument. -/
theorem ofText_log (spec : String) : ofText ("-Xlog:" ++ spec) = readLog spec := by
  have notSetting : behind? "-XX:" ("-Xlog:" ++ spec) = none := by
    simp [behind?]
  have notSwitch : "-Xlog:" ++ spec ≠ "-Xint" := by
    simp [← String.toList_inj]
  have notBare : "-Xlog:" ++ spec ≠ "-Xlog" := by
    simp [← String.toList_inj]
  rw [ofText, notSetting]
  dsimp only
  rw [if_neg notSwitch, if_neg notBare, behind?_eq_some_iff.mpr rfl]

/-- The tag and the level that a change is about, if it is about any. -/
def directive? : LaunchChange → Option LogDirective
  | .select tag level => some ⟨tag, level⟩
  | _ => none

/-- What an argument asks for in the log, in whatever spelling. -/
def selectedBy (argument : String) : List LogDirective :=
  (ofText argument).changes.filterMap directive?

theorem filterMap_change (selections : List LogDirective) :
    (selections.map LogDirective.change).filterMap directive? = selections := by
  have back : directive? ∘ LogDirective.change = some := rfl
  rw [List.filterMap_map, back, List.filterMap_some]

theorem readLog_of_forall₂ (filled : selectors ≠ [])
    (select : List.Forall₂ LogDirective.Selects selectors selections)
    (other : ",".intercalate selectors ≠ "disable") :
    readLog (",".intercalate selectors) = sound (selections.map LogDirective.change) := by
  rw [readLog, if_neg other, Fields.onceOfText_eq_none_iff.mpr (colon_not_mem_intercalate select)]
  dsimp only
  rw [ofText_intercalate filled select, readSelectors_of_selects select]

theorem readLog_of_output (filled : selectors ≠ [])
    (select : List.Forall₂ LogDirective.Selects selectors selections) (output : LogOutput) :
    readLog (",".intercalate selectors ++ ":" ++ output.name) =
      sound (.logTo output :: selections.map LogDirective.change) := by
  have chars : (",".intercalate selectors ++ ":" ++ output.name).toList =
      (",".intercalate selectors).toList ++ ':' :: output.name.toList := by
    rw [String.toList_append, String.toList_append, List.append_assoc]
    rfl
  have other : ",".intercalate selectors ++ ":" ++ output.name ≠ "disable" := by
    intro disable
    have colon : ':' ∈ "disable".toList := by
      rw [← disable, chars]
      simp
    revert colon
    decide
  rw [readLog, if_neg other,
    Fields.onceOfText_eq_some_iff.mpr ⟨colon_not_mem_intercalate select, chars⟩]
  dsimp only
  rw [ofName?_eq_some_iff.mpr rfl]
  dsimp only
  rw [ofText_intercalate filled select, readSelectors_of_selects select]
  rfl

theorem Selects.isLog (selects : Selects argument selections) : IsLog argument := by
  cases selects with
  | bare => exact .inl rfl
  | disable => exact .inr ⟨"disable", rfl⟩
  | selectors => exact .inr ⟨_, rfl⟩
  | toOutput => exact .inr ⟨_, rfl⟩

/-- What a log argument selects is read in it. -/
theorem Selects.read (selects : Selects argument selections) :
    (ofText argument).fault = none ∧ selectedBy argument = selections := by
  cases selects with
  | bare => exact ⟨by decide, by decide⟩
  | disable => exact ⟨by decide, by decide⟩
  | selectors filled select other =>
      rw [selectedBy, ofText_log, readLog_of_forall₂ filled select other]
      exact ⟨rfl, filterMap_change selections⟩
  | toOutput filled select output =>
      rw [selectedBy, ofText_log, readLog_of_output filled select output]
      exact ⟨rfl, filterMap_change selections⟩

theorem exists_selects_of_readLog {spec : String} (faultless : (readLog spec).fault = none) :
    ∃ selections, Selects ("-Xlog:" ++ spec) selections := by
  unfold readLog at faultless
  dsimp only at faultless
  split at faultless
  · rename_i isWord
    rw [isWord]
    exact ⟨_, .disable⟩
  · rename_i other
    split at faultless
    · rename_i uncut
      have colon := Fields.onceOfText_eq_none_iff.mp uncut
      rcases exists_forall₂_selects (plain_of_ofText colon) faultless with ⟨selections, select⟩
      rw [← intercalate_ofText spec] at other
      have selects := Selects.selectors (ofText_ne_nil spec) select other
      rw [intercalate_ofText] at selects
      exact ⟨selections, selects⟩
    · rename_i selection name cut
      rcases Fields.onceOfText_eq_some_iff.mp cut with ⟨colon, whole⟩
      split at faultless
      · rename_i output isName
        rcases exists_forall₂_selects (plain_of_ofText colon) faultless with ⟨selections, select⟩
        have selects := Selects.toOutput (ofText_ne_nil selection) select output
        rw [intercalate_ofText, ← ofName?_eq_some_iff.mp isName] at selects
        have same : spec = selection ++ ":" ++ name := String.toList_inj.mp (by simp [whole])
        rw [same]
        exact ⟨selections, selects⟩
      · contradiction

/-- Exactly the log arguments that are not refused select something, and this is read in them. -/
theorem selects_iff :
    Selects argument selections ↔
      IsLog argument ∧ (ofText argument).fault = none ∧ selectedBy argument = selections := by
  constructor
  · exact fun selects => ⟨selects.isLog, selects.read⟩
  · rintro ⟨isLog, faultless, rfl⟩
    have accepted : ∃ selections, Selects argument selections := by
      rcases isLog with rfl | ⟨spec, rfl⟩
      · exact ⟨_, .bare⟩
      · rw [ofText_log] at faultless
        exact exists_selects_of_readLog faultless
    rcases accepted with ⟨selections, selects⟩
    exact selects.read.2.symm ▸ selects

theorem Selects.equals_not_mem (selects : Selects argument selections) :
    ∀ d ∈ selections, '=' ∉ d.tag.toList := by
  cases selects with
  | bare => decide
  | disable => decide
  | selectors _ select => exact equals_not_mem_of_forall₂ select
  | toOutput _ select => exact equals_not_mem_of_forall₂ select

theorem Selects.ne_nil (selects : Selects argument selections) : selections ≠ [] := by
  have more {selectors : List String} {selections : List LogDirective} (filled : selectors ≠ [])
      (select : List.Forall₂ LogDirective.Selects selectors selections) : selections ≠ [] := by
    rintro rfl
    cases select
    exact filled rfl
  cases selects with
  | bare => simp
  | disable => simp
  | selectors filled select => exact more filled select
  | toOutput filled select => exact more filled select

/-- Other arguments ask for nothing in the log. -/
theorem selectedBy_of_not_isLog (notLog : ¬ IsLog argument) : selectedBy argument = [] := by
  rw [IsLog, not_or, not_exists] at notLog
  rw [selectedBy]
  unfold ofText
  split
  · split <;> rfl
  · split
    · rfl
    · rw [if_neg notLog.1]
      split
      · rename_i spec isSpec
        exact absurd (behind?_eq_some_iff.mp isSpec) (notLog.2 spec)
      · rfl

end LaunchArgument

end CodeLayout
