import CodeLayout.Launch.Arguments
import CodeLayout.Proofs.Text.Fields

/-!
# The spelling of settings

An option is set in one of three spellings: a flag by a plus or a minus sign before its
name, and any option by its name, an equals sign and a text for its value.  What they say
is stated here without the reader, which accepts these spellings and no other ones.
-/

namespace CodeLayout

variable {name text argument : String} {setting other : Setting}

/-! ## Names -/

theorem Flag.ofName?_eq_some_iff {f : Flag} : ofName? name = some f ↔ f.name = name := by
  constructor
  · intro found
    simpa using List.find?_some found
  · rintro rfl
    cases f <;> rfl

theorem SizeOption.ofName?_eq_some_iff {o : SizeOption} :
    ofName? name = some o ↔ o.name = name := by
  constructor
  · intro found
    simpa using List.find?_some found
  · rintro rfl
    cases o <;> rfl

namespace Setting

/-- A text behind the name of an option and an equals sign, and the setting that it says. -/
inductive Says : String → String → Setting → Prop
  | on (f : Flag) : Says f.name "true" (.flag f true)
  | off (f : Flag) : Says f.name "false" (.flag f false)
  | size {text : String} {bytes : Nat} (o : SizeOption) (isSize : Size.parse? text = some bytes) :
      Says o.name text (.size o (UInt64.ofNat bytes))
  | tier {text : String} {level : Nat} (isNumber : Digits.parsePlus? text.toList = some level)
      (low : level ≤ topTier) : Says "TieredStopAtLevel" text (.stopAtLevel (UInt8.ofNat level))
  | orderFile (path : String) : Says "JBoltOrderFile" path (.orderFile path)
  | rescheduling (times : String) : Says "JBoltRescheduling" times (.rescheduling times)

theorem says_of_parseFlag? {f : Flag} {on : Bool} (read : parseFlag? text = some on) :
    Says f.name text (.flag f on) := by
  unfold parseFlag? at read
  split at read
  · cases read
    exact .on f
  · cases read
    exact .off f
  · contradiction

theorem says_of_parseTier? {level : UInt8} (read : parseTier? text = some level) :
    Says "TieredStopAtLevel" text (.stopAtLevel level) := by
  rcases Option.bind_eq_some_iff.mp read with ⟨number, isNumber, within⟩
  split at within
  · rename_i low
    cases within
    exact .tier isNumber low
  · contradiction

theorem ofSign_eq_ok_iff {on : Bool} :
    ofSign name on = .ok setting ↔ ∃ f : Flag, f.name = name ∧ setting = .flag f on := by
  constructor
  · intro accepted
    unfold ofSign at accepted
    split at accepted
    · rename_i f isFlag
      exact ⟨f, Flag.ofName?_eq_some_iff.mp isFlag, (Except.ok.inj accepted).symm⟩
    · contradiction
  · rintro ⟨f, named, rfl⟩
    rw [ofSign, Flag.ofName?_eq_some_iff.mpr named]

/-- A text is read as a setting exactly if it says it. -/
theorem ofText_eq_ok_iff : ofText name text = .ok setting ↔ Says name text setting := by
  constructor
  · intro accepted
    unfold ofText at accepted
    dsimp only at accepted
    split at accepted
    · rename_i f isFlag
      cases read : parseFlag? text with
      | none =>
          rw [read] at accepted
          contradiction
      | some on =>
          rw [read] at accepted
          cases accepted
          exact Flag.ofName?_eq_some_iff.mp isFlag ▸ says_of_parseFlag? read
    · rename_i o _ isSize
      cases read : Size.parse? text with
      | none =>
          rw [read] at accepted
          contradiction
      | some bytes =>
          rw [read] at accepted
          cases accepted
          exact SizeOption.ofName?_eq_some_iff.mp isSize ▸ .size o read
    · split at accepted
      · rename_i named
        cases read : parseTier? text with
        | none =>
            rw [read] at accepted
            contradiction
        | some level =>
            rw [read] at accepted
            cases accepted
            exact named ▸ says_of_parseTier? read
      · split at accepted
        · rename_i named
          cases accepted
          exact named ▸ .orderFile text
        · split at accepted
          · rename_i named
            cases accepted
            exact named ▸ .rescheduling text
          · contradiction
  · intro said
    cases said with
    | on f => cases f <;> rfl
    | off f => cases f <;> rfl
    | size o isSize =>
        have notFlag : Flag.ofName? o.name = none := by cases o <;> rfl
        rw [ofText, notFlag, SizeOption.ofName?_eq_some_iff.mpr rfl, isSize]
        rfl
    | @tier _ level isNumber low =>
        have read : parseTier? text = some (UInt8.ofNat level) := by
          rw [parseTier?, isNumber, Option.bind_some, if_pos low]
        have notFlag : Flag.ofName? "TieredStopAtLevel" = none := rfl
        have notSize : SizeOption.ofName? "TieredStopAtLevel" = none := rfl
        rw [ofText, notFlag, notSize, read]
        rfl
    | orderFile path => rfl
    | rescheduling times => rfl

end Setting

namespace LaunchArgument

/-- An argument that gives a value to an option. -/
inductive Spells : String → Setting → Prop
  | plus (f : Flag) : Spells ("-XX:" ++ ("+" ++ f.name)) (.flag f true)
  | minus (f : Flag) : Spells ("-XX:" ++ ("-" ++ f.name)) (.flag f false)
  | valued {name text : String} {setting : Setting} (said : Setting.Says name text setting) :
      Spells ("-XX:" ++ (name ++ "=" ++ text)) setting

/-- A text behind another one is what follows it. -/
theorem behind?_eq_some_iff {start text rest : String} :
    behind? start text = some rest ↔ text = start ++ rest := by
  rw [behind?]
  constructor
  · intro found
    split at found
    · rename_i begins
      rcases List.isPrefixOf_iff_prefix.mp begins with ⟨later, whole⟩
      rw [← whole, ← String.length_toList, List.drop_left] at found
      rw [← String.toList_inj, ← whole, String.toList_append, ← Option.some.inj found,
        String.toList_ofList]
    · contradiction
  · rintro rfl
    have begins : start.toList.isPrefixOf (start ++ rest).toList = true := by
      rw [String.toList_append]
      exact List.isPrefixOf_iff_prefix.mpr (List.prefix_append _ _)
    rw [if_pos begins, String.toList_append, ← String.length_toList, List.drop_left,
      String.ofList_toList]

/-- Neither a sign nor an equals sign can be taken for a part of the name of an option. -/
theorem plain_of_said (said : Setting.Says name text setting) :
    '=' ∉ name.toList ∧ name.toList.head? ≠ some '+' ∧ name.toList.head? ≠ some '-' ∧
      name.toList ≠ [] := by
  cases said with
  | on f => cases f <;> decide
  | off f => cases f <;> decide
  | size o isSize => cases o <;> decide
  | tier isNumber low => decide
  | orderFile path => decide
  | rescheduling times => decide

theorem readSetting_eq_ok_iff {body : String} :
    readSetting body = .ok setting ↔
      (∃ f : Flag, body = "+" ++ f.name ∧ setting = .flag f true) ∨
      (∃ f : Flag, body = "-" ++ f.name ∧ setting = .flag f false) ∨
      ∃ name text, body = name ++ "=" ++ text ∧ Setting.Says name text setting := by
  unfold readSetting
  constructor
  · intro accepted
    split at accepted
    · rename_i chars signed
      rcases Setting.ofSign_eq_ok_iff.mp accepted with ⟨f, named, rfl⟩
      refine .inl ⟨f, String.toList_inj.mp ?_, rfl⟩
      simp [signed, named]
    · rename_i chars signed
      rcases Setting.ofSign_eq_ok_iff.mp accepted with ⟨f, named, rfl⟩
      refine .inr (.inl ⟨f, String.toList_inj.mp ?_, rfl⟩)
      simp [signed, named]
    · split at accepted
      · rename_i name text cut
        rcases Option.map_eq_some_iff.mp cut with ⟨⟨before, after⟩, isCut, parts⟩
        cases parts
        refine .inr (.inr ⟨_, _, String.toList_inj.mp ?_, Setting.ofText_eq_ok_iff.mp accepted⟩)
        simp [(Fields.splitOnce_eq_some_iff.mp isCut).2]
      · contradiction
  · rintro (⟨f, rfl, rfl⟩ | ⟨f, rfl, rfl⟩ | ⟨name, text, rfl, said⟩)
    · cases f <;> rfl
    · cases f <;> rfl
    · rcases plain_of_said said with ⟨absent, notPlus, notMinus, nonempty⟩
      have chars : (name ++ "=" ++ text).toList = name.toList ++ '=' :: text.toList := by
        rw [String.toList_append, String.toList_append, List.append_assoc]
        rfl
      have cut : Fields.onceOfText '=' (name ++ "=" ++ text) = some (name, text) := by
        rw [Fields.onceOfText, chars, Fields.splitOnce_append absent]
        simp
      rw [chars, cut]
      rcases List.exists_cons_of_ne_nil nonempty with ⟨first, rest, isName⟩
      rw [isName] at notPlus notMinus ⊢
      split
      · rename_i signed
        cases signed
        exact absurd rfl notPlus
      · rename_i signed
        cases signed
        exact absurd rfl notMinus
      · exact Setting.ofText_eq_ok_iff.mpr said

/-- The setting that an argument asks for, if it does. -/
def setting? (argument : String) : Option Setting :=
  (behind? "-XX:" argument).bind fun body => (readSetting body).toOption

theorem spells_iff_readSetting :
    Spells argument setting ↔
      ∃ body, argument = "-XX:" ++ body ∧ readSetting body = .ok setting := by
  constructor
  · intro spells
    cases spells with
    | plus f => exact ⟨_, rfl, readSetting_eq_ok_iff.mpr (.inl ⟨f, rfl, rfl⟩)⟩
    | minus f => exact ⟨_, rfl, readSetting_eq_ok_iff.mpr (.inr (.inl ⟨f, rfl, rfl⟩))⟩
    | valued said => exact ⟨_, rfl, readSetting_eq_ok_iff.mpr (.inr (.inr ⟨_, _, rfl, said⟩))⟩
  · rintro ⟨body, rfl, read⟩
    rcases readSetting_eq_ok_iff.mp read with
      ⟨f, rfl, rfl⟩ | ⟨f, rfl, rfl⟩ | ⟨name, text, rfl, said⟩
    · exact .plus f
    · exact .minus f
    · exact .valued said

/-- Exactly the arguments that spell a setting ask for one, and for that one. -/
theorem setting?_eq_some_iff : setting? argument = some setting ↔ Spells argument setting := by
  have accepted (body : String) :
      (readSetting body).toOption = some setting ↔ readSetting body = .ok setting := by
    cases readSetting body <;> simp [Except.toOption]
  simp only [setting?, Option.bind_eq_some_iff, behind?_eq_some_iff, accepted,
    spells_iff_readSetting]

/-- No argument says two things. -/
theorem Spells.unique (spells : Spells argument setting) (again : Spells argument other) :
    setting = other :=
  Option.some.inj ((setting?_eq_some_iff.mpr spells).symm.trans (setting?_eq_some_iff.mpr again))

theorem not_spells_interpreter : ¬ Spells "-Xint" setting := by
  intro spells
  have nothing : setting? "-Xint" = none := by decide
  rw [setting?_eq_some_iff.mpr spells] at nothing
  contradiction

/-- An argument is about the option of a name. -/
def Names (argument name : String) : Prop :=
  ∃ setting, Spells argument setting ∧ setting.option = name

theorem names_iff_setting? :
    (setting? argument).any (fun setting => setting.option = name) = true ↔
      Names argument name := by
  simp [Names, Option.any_eq_true, setting?_eq_some_iff]

instance : Decidable (Names argument name) :=
  decidable_of_iff _ names_iff_setting?

/-- No argument is about two options. -/
theorem Names.unique {label : String} (names : Names argument name)
    (again : Names argument label) : name = label := by
  rcases names with ⟨setting, spells, rfl⟩
  rcases again with ⟨other, same, rfl⟩
  rw [spells.unique same]

/-! ## Readings -/

theorem ofText_of_spells (spells : Spells argument setting) :
    ofText argument = sound [.set setting] := by
  rcases spells_iff_readSetting.mp spells with ⟨body, whole, read⟩
  rw [ofText, behind?_eq_some_iff.mpr whole]
  dsimp only
  rw [read]

/-- A change of what is logged, which has nothing to do with the options. -/
inductive Logs : LaunchChange → Prop
  | select (tag : String) (level : Option Level) : Logs (.select tag level)
  | logTo (output : LogOutput) : Logs (.logTo output)

theorem logs_of_readSelectors {fault : LaunchError} {selectors : List String}
    {change : LaunchChange} (asked : change ∈ (readSelectors fault selectors).changes) :
    Logs change := by
  induction selectors with
  | nil => contradiction
  | cons selector rest inductionHypothesis =>
      rw [readSelectors] at asked
      split at asked
      · rename_i first isFirst
        rcases List.mem_cons.mp asked with rfl | later
        · unfold readSelector? at isFirst
          split at isFirst
          · rcases Option.bind_eq_some_iff.mp isFirst with ⟨level, -, isFirst⟩
            rcases Option.bind_eq_some_iff.mp isFirst with ⟨tag, -, isFirst⟩
            exact Option.some.inj isFirst ▸ .select tag level
          · rcases Option.map_eq_some_iff.mp isFirst with ⟨tag, -, isFirst⟩
            exact isFirst ▸ .select tag _
        · exact inductionHypothesis later
      · contradiction

theorem logs_of_readLog {spec : String} {change : LaunchChange}
    (asked : change ∈ (readLog spec).changes) : Logs change := by
  unfold readLog at asked
  dsimp only at asked
  split at asked
  · exact List.mem_singleton.mp asked ▸ .select _ _
  · split at asked
    · exact logs_of_readSelectors asked
    · split at asked
      · rcases List.mem_cons.mp asked with rfl | later
        · exact .logTo _
        · exact logs_of_readSelectors later
      · contradiction

/-- An argument that sets no option asks for nothing but the interpreter and the log. -/
theorem ofText_of_unspelled (unspelled : ∀ setting, ¬ Spells argument setting) :
    argument = "-Xint" ∧ ofText argument = sound [.interpretOnly] ∨
      argument ≠ "-Xint" ∧ ∀ change ∈ (ofText argument).changes, Logs change := by
  unfold ofText
  split
  · rename_i body isSetting
    have whole := behind?_eq_some_iff.mp isSetting
    refine .inr ⟨?_, ?_⟩
    · rintro rfl
      have nothing : behind? "-XX:" "-Xint" = none := by decide
      rw [nothing] at isSetting
      contradiction
    · split
      · rename_i setting read
        exact absurd (spells_iff_readSetting.mpr ⟨body, whole, read⟩) (unspelled setting)
      · exact fun _ asked => absurd asked List.not_mem_nil
  · split
    · exact .inl ⟨‹_›, rfl⟩
    · refine .inr ⟨‹_›, fun change asked => ?_⟩
      split at asked
      · exact List.mem_singleton.mp asked ▸ .select _ _
      · split at asked
        · exact logs_of_readLog asked
        · exact absurd asked List.not_mem_nil

end LaunchArgument

end CodeLayout
