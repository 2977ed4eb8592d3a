import CodeLayout.Proofs.Launch.Overriding
import CodeLayout.Proofs.Launch.Selectors
import Mathlib.Data.List.Nodup

/-!
# Selected tags

The log settings keep a list of directives, in which a tag that is selected again goes to the
end.  Whatever log arguments are given, each tag that they select has one directive, which has
its last level; the directives stand in the order in which their tags were last selected; and
the level of the events is that of their directive.  The texts of the directives are the same if
those that begin with a tag and an equals sign are taken away when it is selected.
-/

namespace CodeLayout

open LaunchArgument

variable {argument tag : String} {args : List String} {d : LogDirective}
variable {directives selections : List LogDirective} {log : LogSettings}
variable {s : LaunchSettings} {changes : List LaunchChange}

namespace LaunchArgument

/-- Arguments, and the levels that they give to tags, one after the other. -/
inductive SelectsAll : List String → List LogDirective → Prop
  | nil : SelectsAll [] []
  | other {argument : String} {args : List String} {selections : List LogDirective}
      (notLog : ¬ IsLog argument) (rest : SelectsAll args selections) :
      SelectsAll (argument :: args) selections
  | log {argument : String} {args : List String} {first selections : List LogDirective}
      (selects : Selects argument first) (rest : SelectsAll args selections) :
      SelectsAll (argument :: args) (first ++ selections)

end LaunchArgument

namespace LogSettings

/-- The last selection of a tag. -/
def lastSelecting (selections : List LogDirective) (tag : String) : Option LogDirective :=
  (selections.filter (·.tag = tag)).getLast?

/-- From some moment on the second tag was selected again, but not the first one. -/
def SelectedBefore (selections : List LogDirective) (first second : String) : Prop :=
  ∃ earlier later, selections = earlier ++ later ∧
    second ∈ later.map LogDirective.tag ∧ first ∉ later.map LogDirective.tag

/-- Texts of directives when one more tag is selected.  Those that begin with the tag and an
equals sign are taken away. -/
def retext (texts : List String) (d : LogDirective) : List String :=
  texts.filter (fun text => (behind? (d.tag ++ "=") text).isNone) ++ [d.text]

/-- Directives that list the tags of some selections. -/
structure Lists (directives selections : List LogDirective) : Prop where
  /-- A tag has one directive if it was selected, and none if it was not. -/
  nodup : (directives.map LogDirective.tag).Nodup
  tags : ∀ tag, tag ∈ directives.map LogDirective.tag ↔ tag ∈ selections.map LogDirective.tag
  last : ∀ d ∈ directives, lastSelecting selections d.tag = some d
  ordered : directives.Pairwise fun earlier later =>
    SelectedBefore selections earlier.tag later.tag
  /-- No text of a directive can be taken for one about another tag. -/
  plain : ∀ d ∈ directives, '=' ∉ d.tag.toList
  /-- Taking away texts by what they begin with comes to the same. -/
  texts : directives.map LogDirective.text = selections.foldl retext []

/-- Log settings behind some selections, of which there is at least one. -/
structure Coherent (log : LogSettings) (selections : List LogDirective) : Prop where
  some : selections ≠ []
  lists : Lists log.directives selections
  /-- The defaults are gone, unless they were selected. -/
  defaults : ∀ d ∈ default.directives, d ∈ log.directives → d ∈ selections
  /-- The level of the events is that of their directive, and none if it switches them off. -/
  mirror : ∀ d ∈ log.directives, d.tag = LogLine.eventTarget → log.eventLevel = d.level

/-! ## One more selection -/

theorem lastSelecting_concat :
    lastSelecting (selections ++ [d]) tag =
      if d.tag = tag then some d else lastSelecting selections tag := by
  rw [lastSelecting, lastSelecting, List.filter_append]
  split <;> rename_i same <;> simp [same]

theorem mem_of_lastSelecting (last : lastSelecting selections tag = some d) : d ∈ selections :=
  (List.mem_filter.mp (List.mem_of_getLast? last)).1

/-- A tag without an equals sign is all of a text that stands before the first one. -/
theorem behind?_text_eq_none_iff (plain : '=' ∉ tag.toList) (isPlain : '=' ∉ d.tag.toList) :
    behind? (tag ++ "=") d.text = none ↔ d.tag ≠ tag := by
  have chars (front behind : String) :
      (front ++ "=" ++ behind).toList = front.toList ++ '=' :: behind.toList := by
    simp
  rw [Option.eq_none_iff_forall_ne_some]
  constructor
  · rintro nothing rfl
    exact nothing _ (behind?_eq_some_iff.mpr rfl)
  · intro different rest isText
    have whole := congrArg String.toList (behind?_eq_some_iff.mp isText)
    rw [LogDirective.text, chars, chars] at whole
    have cut := Fields.splitOnce_append isPlain (LogDirective.levelName d.level).toList
    rw [whole, Fields.splitOnce_append plain, Option.some_inj, Prod.mk.injEq] at cut
    exact different (String.toList_inj.mp cut.1.symm)

theorem map_text_filter (plain : '=' ∉ tag.toList)
    (arePlain : ∀ d ∈ directives, '=' ∉ d.tag.toList) :
    (directives.filter (·.tag ≠ tag)).map LogDirective.text =
      (directives.map LogDirective.text).filter fun text =>
        (behind? (tag ++ "=") text).isNone := by
  rw [List.filter_map]
  refine congrArg _ (List.filter_congr fun d member => ?_)
  rw [Function.comp_apply, Bool.eq_iff_iff, Option.isNone_iff_eq_none, decide_eq_true_iff]
  exact (behind?_text_eq_none_iff plain (arePlain d member)).symm

namespace Lists

theorem nil : Lists [] [] where
  nodup := .nil
  tags _ := Iff.rfl
  last _ member := absurd member List.not_mem_nil
  ordered := .nil
  plain _ member := absurd member List.not_mem_nil
  texts := rfl

/-- A tag that is selected again goes to the end, and the others stay in order. -/
theorem concat (lists : Lists directives selections) (plain : '=' ∉ d.tag.toList) :
    Lists (directives.filter (·.tag ≠ d.tag) ++ [d]) (selections ++ [d]) := by
  have others {e : LogDirective} (member : e ∈ directives.filter (·.tag ≠ d.tag)) :
      e ∈ directives ∧ e.tag ≠ d.tag := by
    simpa using List.mem_filter.mp member
  have tags (tag : String) : tag ∈ (directives.filter (·.tag ≠ d.tag)).map LogDirective.tag ↔
      tag ∈ selections.map LogDirective.tag ∧ tag ≠ d.tag := by
    rw [← lists.tags, List.mem_map, List.mem_map]
    constructor
    · rintro ⟨e, member, rfl⟩
      exact ⟨⟨e, (others member).1, rfl⟩, (others member).2⟩
    · rintro ⟨⟨e, member, rfl⟩, different⟩
      exact ⟨e, List.mem_filter.mpr ⟨member, decide_eq_true different⟩, rfl⟩
  constructor
  · rw [List.map_append, List.nodup_append_comm, List.map_singleton, List.singleton_append,
      List.nodup_cons, tags]
    exact ⟨fun same => same.2 rfl, lists.nodup.sublist (List.filter_sublist.map _)⟩
  · intro tag
    rw [List.map_append, List.mem_append, tags, List.map_append, List.mem_append,
      List.map_singleton, List.mem_singleton]
    by_cases same : tag = d.tag <;> simp [same]
  · intro e member
    rw [lastSelecting_concat]
    rcases List.mem_append.mp member with earlier | new
    · rw [if_neg (others earlier).2.symm]
      exact lists.last e (others earlier).1
    · rw [List.mem_singleton.mp new, if_pos rfl]
  · refine List.pairwise_append.mpr ⟨?_, List.pairwise_singleton _ _, ?_⟩
    · refine (lists.ordered.filter _).imp_of_mem fun kept _ before => ?_
      rcases before with ⟨earlier, later, rfl, again, gone⟩
      refine ⟨earlier, later ++ [d], List.append_assoc _ _ _, ?_, ?_⟩
      · rw [List.map_append, List.mem_append]
        exact .inl again
      · rw [List.map_append, List.mem_append, not_or]
        exact ⟨gone, by simpa using (others kept).2⟩
    · intro e earlier new isNew
      rw [List.mem_singleton.mp isNew]
      exact ⟨selections, [d], rfl, by simp, by simpa using (others earlier).2⟩
  · exact List.forall_mem_append.mpr
      ⟨fun e member => lists.plain e (others member).1, List.forall_mem_singleton.mpr plain⟩
  · rw [List.map_append, map_text_filter plain lists.plain, lists.texts, List.foldl_append]
    rfl

end Lists

/-! ## Runs -/

/-- Directives that were selected, but not the defaults. -/
def selected (log : LogSettings) : List LogDirective :=
  if log.explicit then log.directives else []

/-- What holds of log settings from the beginning on. -/
structure Tracks (log : LogSettings) (selections : List LogDirective) : Prop where
  explicit : log.explicit = true ↔ selections ≠ []
  lists : Lists log.selected selections
  mirror : ∀ {d}, lastSelecting selections LogLine.eventTarget = some d → log.eventLevel = d.level

namespace Tracks

theorem start : Tracks default [] where
  explicit := by simp [default]
  lists := .nil
  mirror isLast := nomatch isLast

/-- A selection goes behind the earlier ones. -/
theorem select (tracks : Tracks log selections) (plain : '=' ∉ d.tag.toList) :
    Tracks (log.select d.tag d.level) (selections ++ [d]) := by
  have lists := tracks.lists.concat plain
  have listed : (log.select d.tag d.level).selected =
      log.selected.filter (·.tag ≠ d.tag) ++ [d] := by
    rw [selected, selected]
    cases isExplicit : log.explicit <;> simp [LogSettings.select, isExplicit]
  refine ⟨by simp [LogSettings.select], listed ▸ lists, fun {e} isLast => ?_⟩
  rw [lastSelecting_concat] at isLast
  rw [LogSettings.select]
  split at isLast
  · rename_i isEvents
    rw [if_pos isEvents, Option.some.inj isLast]
  · rename_i other
    rw [if_neg other]
    exact tracks.mirror isLast

/-- No other change has to do with the tags. -/
theorem change (tracks : Tracks s.log selections) (change : LaunchChange)
    (plain : ∀ d ∈ directive? change, '=' ∉ d.tag.toList) :
    Tracks (s.apply change).log (selections ++ (directive? change).toList) := by
  have same : selections = selections ++ [] := (List.append_nil selections).symm
  cases change with
  | set setting => exact same ▸ tracks
  | interpretOnly => exact same ▸ tracks
  | logTo output => exact same ▸ ⟨tracks.explicit, tracks.lists, tracks.mirror⟩
  | select tag level => exact tracks.select (d := ⟨tag, level⟩) (plain ⟨tag, level⟩ rfl)

theorem foldl_apply (tracks : Tracks s.log selections)
    (plain : ∀ d ∈ changes.filterMap directive?, '=' ∉ d.tag.toList) :
    Tracks (changes.foldl LaunchSettings.apply s).log
      (selections ++ changes.filterMap directive?) := by
  induction changes generalizing s selections with
  | nil => simpa using tracks
  | cons change rest inductionHypothesis =>
      have split : (change :: rest).filterMap directive? =
          (directive? change).toList ++ rest.filterMap directive? := by
        rw [List.filterMap_cons]
        cases directive? change <;> rfl
      rw [split] at plain ⊢
      rcases List.forall_mem_append.mp plain with ⟨first, later⟩
      rw [← List.append_assoc]
      have next := tracks.change change fun d isDirective =>
        first d (Option.mem_toList.mpr isDirective)
      exact inductionHypothesis next later

/-- Behind some selections, the directives are those that were selected. -/
theorem coherent (tracks : Tracks log selections) (some : selections ≠ []) :
    Coherent log selections := by
  have same : log.selected = log.directives := by
    rw [selected, if_pos (tracks.explicit.mpr some)]
  have lists := tracks.lists
  rw [same] at lists
  refine ⟨some, lists, fun d _ listed => ?_, fun d listed isEvents => ?_⟩
  · exact mem_of_lastSelecting (lists.last d listed)
  · exact tracks.mirror (isEvents ▸ lists.last d listed)

end Tracks

end LogSettings

namespace LaunchArgument

namespace SelectsAll

theorem flatMap_selectedBy (all : SelectsAll args selections) :
    args.flatMap selectedBy = selections := by
  induction all with
  | nil => rfl
  | other notLog _ inductionHypothesis =>
      rw [List.flatMap_cons, selectedBy_of_not_isLog notLog, inductionHypothesis, List.nil_append]
  | log selects _ inductionHypothesis =>
      rw [List.flatMap_cons, selects.read.2, inductionHypothesis]

/-- No list of arguments selects two things. -/
theorem unique {others : List LogDirective} (all : SelectsAll args selections)
    (again : SelectsAll args others) : selections = others :=
  all.flatMap_selectedBy.symm.trans again.flatMap_selectedBy

theorem equals_not_mem (all : SelectsAll args selections) :
    ∀ d ∈ selections, '=' ∉ d.tag.toList := by
  induction all with
  | nil => simp
  | other _ _ inductionHypothesis => exact inductionHypothesis
  | log selects _ inductionHypothesis =>
      exact List.forall_mem_append.mpr ⟨selects.equals_not_mem, inductionHypothesis⟩

theorem ne_nil (all : SelectsAll args selections) (member : argument ∈ args)
    (isLog : IsLog argument) : selections ≠ [] := by
  induction all with
  | nil => contradiction
  | other notLog _ inductionHypothesis =>
      rcases List.mem_cons.mp member with rfl | later
      · exact absurd isLog notLog
      · exact inductionHypothesis later
  | log selects _ _ => exact List.append_ne_nil_of_left_ne_nil selects.ne_nil _

end SelectsAll

theorem exists_selectsAll (faultless : ∀ argument ∈ args, (ofText argument).fault = none) :
    ∃ selections, SelectsAll args selections := by
  induction args with
  | nil => exact ⟨[], .nil⟩
  | cons argument rest inductionHypothesis =>
      rcases List.forall_mem_cons.mp faultless with ⟨faultless, others⟩
      rcases inductionHypothesis others with ⟨selections, all⟩
      by_cases isLog : IsLog argument
      · exact ⟨_, .log (selects_iff.mpr ⟨isLog, faultless, rfl⟩) all⟩
      · exact ⟨selections, .other isLog all⟩

end LaunchArgument

namespace LaunchSettings

open LogSettings

/-- Without a fault, all changes that the arguments ask for are applied. -/
theorem applyAll_of_faultless (faultless : (s.applyAll args).2 = none) :
    (s.applyAll args).1 =
      (args.flatMap fun argument => (ofText argument).changes).foldl apply s := by
  induction args generalizing s with
  | nil => rfl
  | cons argument rest inductionHypothesis =>
      rw [applyAll] at faultless ⊢
      cases refusal : (ofText argument).fault with
      | none =>
          rw [refusal] at faultless
          rw [List.flatMap_cons, List.foldl_append]
          exact inductionHypothesis faultless
      | some fault =>
          rw [refusal] at faultless
          contradiction

/-- Arguments that are accepted and have a log argument among them select some tags, and this
in one way only; the log settings behind them are coherent with what was selected. -/
theorem coherent_applyAll (options : Options) (args : List String)
    (faultless : (applyAll ⟨options, LogSettings.default⟩ args).2 = none)
    (logs : ∃ argument ∈ args, IsLog argument) :
    ∃ selections, (∀ others, SelectsAll args others ↔ others = selections) ∧
      Coherent (applyAll ⟨options, LogSettings.default⟩ args).1.log selections := by
  have accepted := faultless
  rw [fault_applyAll, List.findSome?_eq_none_iff] at accepted
  rcases exists_selectsAll accepted with ⟨selections, all⟩
  rcases logs with ⟨argument, member, isLog⟩
  refine ⟨selections, fun others => ⟨fun again => again.unique all, fun same => same ▸ all⟩, ?_⟩
  have changed : (args.flatMap fun argument => (ofText argument).changes).filterMap directive? =
      selections := by
    rw [List.filterMap_flatMap]
    exact all.flatMap_selectedBy
  have tracks : Tracks (applyAll ⟨options, LogSettings.default⟩ args).1.log selections := by
    rw [applyAll_of_faultless faultless, ← changed]
    refine Tracks.start.foldl_apply (s := ⟨options, LogSettings.default⟩) ?_
    rw [changed]
    exact all.equals_not_mem
  exact tracks.coherent (all.ne_nil member isLog)

/-- Two tags are selected twice, the events last by the word that switches them off. -/
def reselecting : List String :=
  ["-Xlog:gc*=debug,all=warning:stderr", "-XX:+UseJBolt", "-Xlog:gc", "-Xlog:disable"]

theorem coherent_applyAll_reselecting :
    (applyAll ⟨Options.default, LogSettings.default⟩ reselecting).2 = none ∧
      (∃ argument ∈ reselecting, IsLog argument) ∧
      Coherent (applyAll ⟨Options.default, LogSettings.default⟩ reselecting).1.log
        [⟨"gc", some .debug⟩, ⟨"jbolt", some .warn⟩, ⟨"gc", some .info⟩, ⟨"jbolt", none⟩] := by
  have faultless : (applyAll ⟨Options.default, LogSettings.default⟩ reselecting).2 = none := by
    decide +kernel
  have logs : ∃ argument ∈ reselecting, IsLog argument :=
    ⟨"-Xlog:disable", by simp [reselecting], .inr ⟨"disable", rfl⟩⟩
  have asked : reselecting.flatMap selectedBy =
      [⟨"gc", some .debug⟩, ⟨"jbolt", some .warn⟩, ⟨"gc", some .info⟩, ⟨"jbolt", none⟩] := by
    decide +kernel
  rcases coherent_applyAll Options.default reselecting faultless logs with
    ⟨selections, unique, coherent⟩
  rw [← ((unique selections).mpr rfl).flatMap_selectedBy, asked] at coherent
  exact ⟨faultless, logs, coherent⟩

end LaunchSettings

end CodeLayout
