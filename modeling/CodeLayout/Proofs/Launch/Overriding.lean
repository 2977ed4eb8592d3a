import CodeLayout.Proofs.Launch.Spelling
import CodeLayout.Proofs.Options.Values

/-!
# Overridden arguments

Machine arguments are applied from left to right.  Whether one of them is refused does not
depend on the others, and what they say comes to this: an option has the value that the last
argument naming it gives to it, and the value it had before if no argument names it.  So an
argument that is overridden later can as well be left out, and arguments that name different
options can change places.
-/

namespace CodeLayout

open LaunchArgument

variable {args others : List String} {argument name : String} {setting : Setting}
variable {before after o other : Options} {s t : LaunchSettings}

/-! ## Naming -/

/-- The last argument that names an option. -/
def lastNaming (args : List String) (name : String) : Option String :=
  (args.filter fun argument => Names argument name).getLast?

theorem lastNaming_append :
    lastNaming (args ++ others) name = (lastNaming others name).or (lastNaming args name) := by
  rw [lastNaming, List.filter_append, List.getLast?_append]
  rfl

theorem lastNaming_singleton :
    lastNaming [argument] name = if Names argument name then some argument else none := by
  by_cases names : Names argument name <;> simp [lastNaming, names]

theorem names_of_lastNaming (last : lastNaming args name = some argument) :
    Names argument name := by
  simpa using (List.mem_filter.mp (List.mem_of_getLast? last)).2

theorem exists_lastNaming (member : argument ∈ args) (names : Names argument name) :
    ∃ last, lastNaming args name = some last := by
  have nonempty : (args.filter fun argument => Names argument name) ≠ [] :=
    List.ne_nil_of_mem (List.mem_filter.mpr ⟨member, decide_eq_true names⟩)
  exact ⟨_, List.getLast?_eq_some_getLast nonempty⟩

/-- Some arguments, and what the options are behind them. -/
structure Settles (before : Options) (args : List String) (after : Options) : Prop where
  /-- The last argument for an option gives it its value. -/
  named : ∀ {name argument setting}, lastNaming args name = some argument →
    Spells argument setting → after.value? name = some setting.value
  /-- Where there is none, the option has the value it had. -/
  unnamed : ∀ {name}, lastNaming args name = none → after.value? name = before.value? name
  /-- The switch of the interpreter is never set back. -/
  interpreterOnly : after.interpreterOnly = true ↔
    before.interpreterOnly = true ∨ "-Xint" ∈ args

/-- Arguments without some of those that are overridden by a later one. -/
inductive Trims : List String → List String → Prop
  | nil : Trims [] []
  | keep (argument : String) {args others : List String} (trims : Trims args others) :
      Trims (argument :: args) (argument :: others)
  | drop {argument later name : String} {args others : List String} (trims : Trims args others)
      (names : Names argument name) (member : later ∈ args) (again : Names later name) :
      Trims (argument :: args) others

/-- The same arguments in another order, but in the same order for each option. -/
def Rearranges (args others : List String) : Prop :=
  args.Perm others ∧
    ∀ name, (args.filter fun argument => Names argument name) =
      others.filter fun argument => Names argument name

namespace Settles

/-- Options and arguments leave no choice. -/
theorem unique (settles : Settles before args o) (again : Settles before args other) :
    o = other := by
  refine Options.ext_of_value? (fun name => ?_) ?_
  · cases last : lastNaming args name with
    | none => rw [settles.unnamed last, again.unnamed last]
    | some argument =>
        rcases names_of_lastNaming last with ⟨setting, spells, -⟩
        rw [settles.named last spells, again.named last spells]
  · exact Bool.eq_iff_iff.mpr (settles.interpreterOnly.trans again.interpreterOnly.symm)

/-- Arguments with the same last ones do the same. -/
theorem congr (settles : Settles before args after)
    (last : ∀ name, lastNaming others name = lastNaming args name)
    (interpreter : "-Xint" ∈ others ↔ "-Xint" ∈ args) : Settles before others after where
  named isLast := settles.named (last _ ▸ isLast)
  unnamed absent := settles.unnamed (last _ ▸ absent)
  interpreterOnly := by rw [interpreter, settles.interpreterOnly]

theorem nil : Settles o [] o where
  named isLast := nomatch isLast
  unnamed _ := rfl
  interpreterOnly := by simp

/-- Arguments behind other ones go on from what those leave. -/
theorem append (first : Settles before args o) (second : Settles o others after) :
    Settles before (args ++ others) after where
  named {name argument setting} isLast spells := by
    rw [lastNaming_append, Option.or_eq_some_iff] at isLast
    rcases isLast with isLast | ⟨absent, isLast⟩
    · exact second.named isLast spells
    · rw [second.unnamed absent, first.named isLast spells]
  unnamed {name} absent := by
    rw [lastNaming_append, Option.or_eq_none_iff] at absent
    rw [second.unnamed absent.1, first.unnamed absent.2]
  interpreterOnly := by
    rw [second.interpreterOnly, first.interpreterOnly, List.mem_append, or_assoc]

/-- An argument that spells a setting does no more than this. -/
theorem of_spells (spells : Spells argument setting) :
    Settles before [argument] (setting.apply before) where
  named {name other given} isLast again := by
    rw [lastNaming_singleton] at isLast
    split at isLast
    · rename_i names
      cases isLast
      rcases names with ⟨_, same, rfl⟩
      cases spells.unique same
      cases spells.unique again
      rw [setting.value?_apply, if_pos rfl]
    · contradiction
  unnamed {name} absent := by
    have different : name ≠ setting.option := by
      rintro rfl
      rw [lastNaming_singleton, if_pos ⟨setting, spells, rfl⟩] at absent
      contradiction
    rw [setting.value?_apply, if_neg different]
  interpreterOnly := by
    have noSwitch : argument ≠ "-Xint" := by
      rintro rfl
      exact not_spells_interpreter spells
    simp [noSwitch.symm]

/-- An argument that sets no option has no business with those that have a name. -/
theorem of_unspelled (unspelled : ∀ setting, ¬ Spells argument setting)
    (interpreterOnly : o.interpreterOnly = true ↔
      before.interpreterOnly = true ∨ argument = "-Xint")
    (values : o.toEntries = before.toEntries) : Settles before [argument] o where
  named {name other given} isLast spells := by
    rw [lastNaming_singleton] at isLast
    split at isLast
    · rename_i names
      rcases names with ⟨setting, said, -⟩
      exact absurd said (unspelled setting)
    · contradiction
  unnamed {name} _ := by rw [Options.value?, Options.value?, values]
  interpreterOnly := by rw [List.mem_singleton, eq_comm (a := "-Xint"), interpreterOnly]

end Settles

/-! ## Runs -/

theorem options_of_logs {changes : List LaunchChange} (logs : ∀ change ∈ changes, Logs change) :
    (changes.foldl LaunchSettings.apply s).options = s.options := by
  induction changes generalizing s with
  | nil => rfl
  | cons change rest inductionHypothesis =>
      rw [List.foldl_cons, inductionHypothesis fun later member =>
        logs later (List.mem_cons_of_mem _ member)]
      cases logs change List.mem_cons_self <;> rfl

/-- What one argument does to the options. -/
theorem settles_ofText :
    Settles s.options [argument]
      ((ofText argument).changes.foldl LaunchSettings.apply s).options := by
  by_cases spelled : ∃ setting, Spells argument setting
  · rcases spelled with ⟨setting, spells⟩
    rw [ofText_of_spells spells]
    exact .of_spells spells
  · have unspelled := not_exists.mp spelled
    rcases ofText_of_unspelled unspelled with ⟨rfl, read⟩ | ⟨noSwitch, logs⟩
    · rw [read]
      exact .of_unspelled unspelled (by simp [sound, LaunchSettings.apply]) rfl
    · rw [options_of_logs logs]
      exact .of_unspelled unspelled (by simp [noSwitch]) rfl

/-- Whether an argument is refused depends on itself alone. -/
theorem fault_applyAll_singleton :
    (s.applyAll [argument]).2 = (ofText argument).fault := by
  rw [LaunchSettings.applyAll]
  cases refusal : (ofText argument).fault <;> rfl

/-- The fault of a run is the leftmost one. -/
theorem fault_applyAll (s : LaunchSettings) (args : List String) :
    (s.applyAll args).2 = args.findSome? fun argument => (ofText argument).fault := by
  induction args generalizing s with
  | nil => rfl
  | cons argument rest inductionHypothesis =>
      rw [LaunchSettings.applyAll, List.findSome?_cons]
      cases refusal : (ofText argument).fault with
      | none => exact inductionHypothesis _
      | some fault => rfl

/-- A run without a fault settles the options. -/
theorem settles_of_faultless (faultless : (s.applyAll args).2 = none) :
    Settles s.options args (s.applyAll args).1.options := by
  induction args generalizing s with
  | nil => exact .nil
  | cons argument rest inductionHypothesis =>
      rw [LaunchSettings.applyAll] at faultless ⊢
      cases refusal : (ofText argument).fault with
      | none =>
          rw [refusal] at faultless
          exact settles_ofText.append (inductionHypothesis faultless)
      | some fault =>
          rw [refusal] at faultless
          contradiction

/-! ## Leaving out and rearranging -/

namespace Trims

theorem lastNaming_eq (trims : Trims args others) (name : String) :
    lastNaming others name = lastNaming args name := by
  induction trims with
  | nil => rfl
  | @keep argument args others _ inductionHypothesis =>
      rw [← List.singleton_append, lastNaming_append, inductionHypothesis, ← lastNaming_append,
        List.singleton_append]
  | @drop argument later overridden args others _ names member again inductionHypothesis =>
      rw [inductionHypothesis, ← List.singleton_append, lastNaming_append, lastNaming_singleton]
      split
      · rename_i same
        cases names.unique same
        rcases exists_lastNaming member again with ⟨last, isLast⟩
        rw [isLast, Option.some_or]
      · rw [Option.or_none]

theorem subset (trims : Trims args others) : others ⊆ args := by
  induction trims with
  | nil => exact List.Subset.refl _
  | keep argument _ inductionHypothesis => exact List.cons_subset_cons _ inductionHypothesis
  | drop _ _ _ _ inductionHypothesis => exact List.subset_cons_of_subset _ inductionHypothesis

/-- The switch of the interpreter cannot be overridden. -/
theorem interpreter_mem_iff (trims : Trims args others) :
    "-Xint" ∈ others ↔ "-Xint" ∈ args := by
  induction trims with
  | nil => rfl
  | keep argument _ inductionHypothesis => rw [List.mem_cons, List.mem_cons, inductionHypothesis]
  | @drop argument later name args others _ names _ _ inductionHypothesis =>
      have noSwitch : "-Xint" ≠ argument := by
        rintro rfl
        rcases names with ⟨setting, spells, -⟩
        exact not_spells_interpreter spells
      rw [List.mem_cons, inductionHypothesis, or_iff_right noSwitch]

end Trims

/-- Neighbours for different options can change places. -/
theorem rearranges_swap {neighbour : String}
    (different : ∀ name, Names argument name → ¬ Names neighbour name) :
    Rearranges (argument :: neighbour :: args) (neighbour :: argument :: args) := by
  refine ⟨.swap _ _ _, fun name => ?_⟩
  by_cases names : Names argument name
  · simp [names, different name names]
  · by_cases others : Names neighbour name <;> simp [names, others]

theorem lastNaming_of_rearranges (rearranges : Rearranges args others) (name : String) :
    lastNaming others name = lastNaming args name := by
  rw [lastNaming, lastNaming, rearranges.2]

/-- Among fewer arguments there is no new fault. -/
theorem faultless_of_subset (faultless : (s.applyAll args).2 = none) (subset : others ⊆ args) :
    (t.applyAll others).2 = none := by
  rw [fault_applyAll, List.findSome?_eq_none_iff] at faultless ⊢
  exact fun argument member => faultless argument (subset member)

/-- A list of machine arguments is refused for the leftmost argument that is refused on its
own, whatever the settings.  Otherwise each option gets the value of the last argument that
names it, in whichever spelling, and this determines the options; so arguments that are
overridden can be left out, and arguments for different options can change places. -/
theorem applyAll_last_settles (s t : LaunchSettings) (args : List String) :
    ((s.applyAll args).2 = args.findSome? fun argument => (t.applyAll [argument]).2) ∧
    ((s.applyAll args).2 = none →
      (∀ o, Settles s.options args o ↔ o = (s.applyAll args).1.options) ∧
      ∀ others, Trims args others ∨ Rearranges args others →
        (s.applyAll others).2 = none ∧
          (s.applyAll others).1.options = (s.applyAll args).1.options) := by
  refine ⟨?_, fun faultless => ?_⟩
  · simp only [fault_applyAll s args, fault_applyAll_singleton]
  · have settles := settles_of_faultless faultless
    refine ⟨fun o => ⟨fun again => again.unique settles, fun same => same ▸ settles⟩, ?_⟩
    rintro others (trims | rearranges)
    · have stillFaultless := faultless_of_subset (t := s) faultless trims.subset
      have same := settles.congr trims.lastNaming_eq trims.interpreter_mem_iff
      exact ⟨stillFaultless, (settles_of_faultless stillFaultless).unique same⟩
    · have stillFaultless := faultless_of_subset (t := s) faultless rearranges.1.symm.subset
      have same := settles.congr (lastNaming_of_rearranges rearranges) rearranges.1.mem_iff.symm
      exact ⟨stillFaultless, (settles_of_faultless stillFaultless).unique same⟩

theorem applyAll_last_settles_of_heap_size :
    Settles Options.default
      ["-XX:JBoltCodeHeapSize=1M", "-XX:+UseJBolt", "-Xint", "-XX:JBoltCodeHeapSize=2M"]
      { Options.default with
        enabled := true, interpreterOnly := true, hotHeapSize := some (Options.ofMib 2) } ∧
    (LaunchSettings.applyAll default
      ["-XX:+UseJBolt", "-Xint", "-XX:JBoltCodeHeapSize=2M"]).1.options =
      { Options.default with
        enabled := true, interpreterOnly := true, hotHeapSize := some (Options.ofMib 2) } ∧
    (LaunchSettings.applyAll default
      ["-XX:+UseJBolt", "-XX:JBoltCodeHeapSize=1M", "-Xint",
        "-XX:JBoltCodeHeapSize=2M"]).1.options =
      { Options.default with
        enabled := true, interpreterOnly := true, hotHeapSize := some (Options.ofMib 2) } := by
  have ⟨settles, others⟩ := (applyAll_last_settles default default
    ["-XX:JBoltCodeHeapSize=1M", "-XX:+UseJBolt", "-Xint", "-XX:JBoltCodeHeapSize=2M"]).2
      (by decide +kernel)
  have result : (LaunchSettings.applyAll default
      ["-XX:JBoltCodeHeapSize=1M", "-XX:+UseJBolt", "-Xint",
        "-XX:JBoltCodeHeapSize=2M"]).1.options = { Options.default with
        enabled := true, interpreterOnly := true, hotHeapSize := some (Options.ofMib 2) } := by
    decide +kernel
  have first : Names "-XX:JBoltCodeHeapSize=1M" "JBoltCodeHeapSize" := by decide +kernel
  have again : Names "-XX:JBoltCodeHeapSize=2M" "JBoltCodeHeapSize" := by decide +kernel
  have apart : ¬ Names "-XX:+UseJBolt" "JBoltCodeHeapSize" := by decide +kernel
  have trims : Trims
      ["-XX:JBoltCodeHeapSize=1M", "-XX:+UseJBolt", "-Xint", "-XX:JBoltCodeHeapSize=2M"]
      ["-XX:+UseJBolt", "-Xint", "-XX:JBoltCodeHeapSize=2M"] :=
    .drop (.keep _ (.keep _ (.keep _ .nil))) first (by simp) again
  have swapped : Rearranges
      ["-XX:JBoltCodeHeapSize=1M", "-XX:+UseJBolt", "-Xint", "-XX:JBoltCodeHeapSize=2M"]
      ["-XX:+UseJBolt", "-XX:JBoltCodeHeapSize=1M", "-Xint", "-XX:JBoltCodeHeapSize=2M"] :=
    rearranges_swap fun _ names => names.unique first ▸ apart
  exact ⟨(settles _).mpr result.symm, (others _ (.inl trims)).2.trans result,
    (others _ (.inr swapped)).2.trans result⟩

end CodeLayout
