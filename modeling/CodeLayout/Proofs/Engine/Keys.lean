import CodeLayout.Indexed
import CodeLayout.Proofs.Engine.Consistency

/-!
# Placements by key

Placements can be kept in a map from methods to placements, in which a placement names its
method once more.  What the engine does to its placements it can do to such a map: it takes a
key out, sets one, and changes blobs and ranks in place.  Each placement then stays under the
method that it names, and the placements alone say what is in the map.
-/

namespace CodeLayout

namespace Placements

variable {ps : Placements} {m : Method}

/-- A change of the placements. -/
inductive Change where
  /-- A placement goes to the end; an earlier one of its method is taken out first. -/
  | install (p : Placement)
  | unload (m : Method)
  /-- The code of a method is somewhere else. -/
  | relocate (m : Method) (blob : Blob)
  /-- All ranks are set anew. -/
  | rank (rankOf : Method → Option Nat)

/-- Make a change in a map, under the method that it is about. -/
def Change.enter (map : Indexed Method Placement) : Change → Indexed Method Placement
  | .install p => (map.remove p.method).insert p.method p
  | .unload m => map.remove m
  | .relocate m blob => map.modify m fun p => { p with blob }
  | .rank rankOf => map.mapEntries fun _ p => { p with rank := rankOf p.method }

/-- Make a change in the placements. -/
def Change.make (ps : Placements) : Change → Placements
  | .install p => ps.erase p.method ++ [p]
  | .unload m => ps.erase m
  | .relocate m blob =>
    match ps.find? m with
    | none => ps
    | some p => ps.put { p with blob }
  | .rank rankOf => ps.map fun p => { p with rank := rankOf p.method }

/-- Each placement is under the method that it names, and the map has no others. -/
structure Keyed (map : Indexed Method Placement) (ps : Placements) : Prop where
  values : map.values = ps
  keys : ∀ entry ∈ map.entries, entry.2.method = entry.1

namespace Keyed

variable {map after : Indexed Method Placement}

theorem empty : Keyed .empty [] :=
  ⟨rfl, by simp [Indexed.empty]⟩

theorem keys_eq (keyed : Keyed map ps) : map.keys = ps.map Placement.method := by
  rw [← keyed.values, Indexed.values, Indexed.keys, List.map_map]
  exact List.map_congr_left fun entry member => (keyed.keys entry member).symm

theorem entries_eq (keyed : Keyed map ps) : map.entries = ps.map fun p => (p.method, p) := by
  rw [← keyed.values, Indexed.values, List.map_map]
  conv_lhs => rw [← List.map_id map.entries]
  refine List.map_congr_left fun entry member => ?_
  rw [Function.comp_apply, keyed.keys entry member]
  rfl

/-- No method has two placements. -/
theorem nodup (keyed : Keyed map ps) : (ps.map Placement.method).Nodup :=
  keyed.keys_eq ▸ map.distinct

/-- A map is determined by its placements. -/
theorem unique (keyed : Keyed map ps) (too : Keyed after ps) : map = after :=
  Indexed.ext (keyed.entries_eq.trans too.entries_eq.symm)

/-- Looking a method up in the map finds its placement. -/
theorem get?_eq (keyed : Keyed map ps) (m : Method) : map.get? m = ps.find? m := by
  rw [Indexed.get?, keyed.entries_eq, List.find?_map, Option.map_map, Placements.find?]
  exact Option.map_id'

/-! ## Changes -/

theorem remove (keyed : Keyed map ps) (m : Method) : Keyed (map.remove m) (ps.erase m) := by
  constructor
  · rw [Indexed.values, Indexed.entries_remove, keyed.entries_eq, List.filter_map, List.map_map]
    exact List.map_id' _
  · intro entry kept
    exact keyed.keys entry (List.mem_of_mem_filter kept)

theorem insert_of_new (keyed : Keyed map ps) {p : Placement} (new : ps.find? p.method = none) :
    Keyed (map.insert p.method p) (ps ++ [p]) := by
  have absent : p.method ∉ map.keys := by
    rw [keyed.keys_eq]
    intro old
    rcases List.mem_map.mp old with ⟨q, member, same⟩
    exact find?_eq_none_iff.mp new q member same
  have entries := Indexed.entries_insert_of_new absent p
  constructor
  · rw [Indexed.values, entries, List.map_append, ← keyed.values]
    rfl
  · rw [entries]
    exact List.forall_mem_append.mpr ⟨keyed.keys, List.forall_mem_singleton.mpr rfl⟩

/-- Placements may change in place, as long as they name the same methods. -/
theorem mapEntries (keyed : Keyed map ps) {change : Method → Placement → Placement}
    (method : ∀ m p, (change m p).method = p.method) :
    Keyed (map.mapEntries change) (ps.map fun p => change p.method p) := by
  constructor
  · rw [Indexed.values, Indexed.entries_mapEntries, keyed.entries_eq, List.map_map, List.map_map]
    rfl
  · intro entry member
    rcases List.mem_map.mp member with ⟨old, isEntry, rfl⟩
    exact (method _ _).trans (keyed.keys old isEntry)

/-- Setting a placement where it stands is a change in place. -/
theorem put_eq_map (nodup : (ps.map Placement.method).Nodup) {p q : Placement}
    (found : ps.find? m = some p) (isMethod : q.method = m) :
    ps.put q = ps.map fun other => if other.method = m then q else other := by
  subst isMethod
  induction ps with
  | nil => contradiction
  | cons first rest inductionHypothesis =>
      rw [List.map_cons, List.nodup_cons] at nodup
      rw [put, List.map_cons]
      by_cases same : first.method = q.method
      · rw [if_pos same, if_pos same]
        have others : ∀ other ∈ rest, other.method ≠ q.method := by
          intro other member isMethod
          exact nodup.1 (List.mem_map.mpr ⟨other, member, isMethod.trans same.symm⟩)
        conv_lhs => rw [← List.map_id rest]
        congr 1
        exact List.map_congr_left fun other member => (if_neg (others other member)).symm
      · rw [if_neg same, if_neg same]
        have later : Placements.find? rest q.method = some p := by
          simpa [Placements.find?, same] using found
        rw [inductionHypothesis nodup.2 later]

theorem modify (keyed : Keyed map ps) (m : Method) (blob : Blob) :
    Keyed (map.modify m fun p => { p with blob }) (Change.make ps (.relocate m blob)) := by
  have changed : Keyed (map.modify m fun p => { p with blob })
      (ps.map fun p => if p.method = m then { p with blob } else p) :=
    keyed.mapEntries fun other p => by split <;> rfl
  rw [Change.make]
  cases found : ps.find? m with
  | none =>
      have same : (ps.map fun p => if p.method = m then { p with blob } else p) = ps := by
        conv_rhs => rw [← List.map_id ps]
        exact List.map_congr_left fun p member => if_neg (find?_eq_none_iff.mp found p member)
      rw [same] at changed
      exact changed
  | some p =>
      have isMethod := (mem_of_find? found).2
      have same : (ps.map fun other => if other.method = m then { other with blob } else other) =
          ps.put { p with blob } := by
        rw [put_eq_map keyed.nodup found (q := { p with blob }) isMethod]
        refine List.map_congr_left fun other member => ?_
        by_cases here : other.method = m
        · have isFound := find?_of_mem keyed.nodup member
          rw [here, found] at isFound
          cases isFound
          rfl
        · rw [if_neg here, if_neg here]
      rw [same] at changed
      exact changed

/-- Every change keeps the placements under their methods. -/
theorem enter (keyed : Keyed map ps) (change : Change) :
    Keyed (change.enter map) (change.make ps) := by
  cases change with
  | install p =>
      have new : (ps.erase p.method).find? p.method = none := by
        rw [find?_erase, if_pos rfl]
      exact (keyed.remove p.method).insert_of_new new
  | unload m => exact keyed.remove m
  | relocate m blob => exact keyed.modify m blob
  | rank rankOf =>
      rw [Change.enter, Change.make]
      exact keyed.mapEntries fun _ _ => rfl

/-- And so do any number of changes. -/
theorem enterAll (keyed : Keyed map ps) (changes : List Change) :
    Keyed (changes.foldl Change.enter map) (changes.foldl Change.make ps) := by
  induction changes generalizing map ps with
  | nil => exact keyed
  | cons change rest inductionHypothesis => exact inductionHypothesis (keyed.enter change)

end Keyed

/-- Placements become others by some changes. -/
def Changes (ps after : Placements) : Prop :=
  ∃ changes : List Change, changes.foldl Change.make ps = after

namespace Changes

variable {middle after : Placements}

theorem refl (ps : Placements) : Changes ps ps :=
  ⟨[], rfl⟩

theorem single (change : Change) : Changes ps (change.make ps) :=
  ⟨[change], rfl⟩

theorem trans (first : Changes ps middle) (second : Changes middle after) : Changes ps after := by
  rcases first with ⟨changes, rfl⟩
  rcases second with ⟨more, rfl⟩
  exact ⟨changes ++ more, List.foldl_append⟩

end Changes

end Placements

namespace Transit

variable {t after : Transit}

theorem changes_relocate (t : Transit) (m : Method) (order : List Partition)
    (requested : Partition) :
    t.placements.Changes (t.relocate m order requested).2.placements := by
  unfold relocate
  split
  · exact .refl _
  · split
    · exact .refl _
    · rename_i placed found
      split
      · exact .refl _
      · dsimp only
        split
        · exact .refl _
        · rename_i blob _
          split
          · exact .refl _
          · have moved : t.placements.Changes
                (Placements.Change.make t.placements (.relocate m blob)) := .single _
            rw [Placements.Change.make, found] at moved
            exact moved

theorem Steps.changes (steps : Steps t after) : t.placements.Changes after.placements := by
  induction steps with
  | refl => exact .refl _
  | relocate _ m order requested inductionHypothesis =>
      exact inductionHypothesis.trans (changes_relocate _ m order requested)
  | giveUp _ _ _ inductionHypothesis => exact inductionHypothesis
  | note _ same inductionHypothesis =>
      rw [same.placements]
      exact inductionHypothesis

end Transit

namespace Engine

open Placements

variable {e start : Engine}

theorem changes_reorder (e : Engine) (ranking : List Method) (report : PassReport) :
    e.placements.Changes (e.reorder ranking report).2.placements := by
  have ranks : e.placements.Changes (e.ranked ranking).placements :=
    .single (.rank (e.planFor ranking).rankOf)
  rw [reorder_eq]
  split
  · exact ranks
  · exact ranks.trans (Transit.run_steps
      ((e.ranked ranking).opening report.pass (e.planFor ranking).moves)).changes

theorem changes_runPass (e : Engine) (files : FileTree) (ranking : List Method) (elapsed : Nat) :
    e.placements.Changes (e.runPass files ranking elapsed).engine.placements := by
  cases mode : e.recording with
  | true =>
      rw [(runPass_recording mode files ranking elapsed).placements]
      exact .refl _
  | false =>
      rw [(runPass_moving mode files ranking elapsed).1.placements]
      exact changes_reorder (e.begun ranking) ranking _

/-- A call changes the placements in no other way. -/
theorem changes_perform (e : Engine) (call : Call) :
    e.placements.Changes (e.perform call).placements := by
  cases call with
  | install m bytes requested _ =>
      have made := installs e m bytes requested
      rw [perform]
      generalize e.install m bytes requested = result at made ⊢
      cases made with
      | refused _ => exact .refl _
      | added _ _ => exact .single (.install ⟨m, _, none, e.compilations + 1⟩)
      | replaced _ _ _ => exact .single (.install ⟨m, _, none, e.compilations + 1⟩)
      | stuck _ _ _ => exact .single (.unload m)
  | unload m =>
      rw [perform, unload]
      split
      · exact .refl _
      · dsimp only
        split <;> exact .single (.unload m)
  | runPass files ranking elapsed => exact changes_runPass e files ranking elapsed
  | runWith files ranking elapsed =>
      rw [perform, runWith]
      split
      · split
        · exact changes_runPass e files ranking elapsed
        · exact changes_runPass { e with seedUsed := true } files _ elapsed
      · exact changes_runPass e files ranking elapsed

theorem changes_performAll (e : Engine) (calls : List Call) :
    e.placements.Changes (e.performAll calls).placements := by
  induction calls generalizing e with
  | nil => exact .refl _
  | cons call rest inductionHypothesis =>
      exact (changes_perform e call).trans (inductionHypothesis (e.perform call))

/-- The changes that an engine has made to its placements, made in an empty map, have led to
the placements, each under its method. -/
theorem keyed_performAll (new : start.placements = []) (calls : List Call) :
    ∃ changes : List Change,
      changes.foldl Change.make [] = (start.performAll calls).placements ∧
      Keyed (changes.foldl Change.enter .empty) (start.performAll calls).placements := by
  rcases changes_performAll start calls with ⟨changes, made⟩
  rw [new] at made
  exact ⟨changes, made, made ▸ Keyed.empty.enterAll changes⟩

end Engine

end CodeLayout
