import CodeLayout.Proofs.Transit.Errands

/-!
# Reports of a run

A run reports the methods that it gives up on, each one once and not before the
last moves.  Until then such a method has waited for its move, and while a
method waits it can only be sent to the fallback partition: it has been parked,
or it has left a partition that was being emptied.  So a method that is reported
is where it was before the run, or it is in the fallback partition and its way
there has been reported as well.
-/

namespace CodeLayout.Transit

variable {target : Method → Partition} {before : Placements} {code : Method → Option ByteArray}
  {t : Transit} {m : Method} {placed : Placement} {b : Blob} {cache : Cache}
  {passed : List Event} {first next : Stage} {failed : List Placement}

/-- The report that a method found no room. -/
def failure (target : Method → Partition) (p : Placement) : Event :=
  .placementFailed p.method.display (target p.method) p.blob.padded

/-- The code was moved to the fallback partition by the run. -/
def Strayed (t : Transit) (p : Placement) : Prop :=
  p.partition = t.fallback ∧
    ∃ source, .methodRelocated p.method.display source p.partition p.size ∈ t.events

/-- The code is where it was, or it strayed. -/
def Left (before : Placements) (t : Transit) (p : Placement) : Prop :=
  p ∈ before ∨ t.Strayed p

/-- Moves are still made exactly. -/
def Stage.isExact : Stage → Bool
  | .moving _ | .emptying _ _ _ => true
  | .settling _ _ | .done _ => false

/-- What is known about the methods that were given up on. -/
structure Reported (target : Method → Partition) (before : Placements) (stage : Stage)
    (failed : List Placement) : Prop where
  events : stage.transit.events.filter Event.isPlacementFailure = failed.map (failure target)
  early : stage.isExact = true → failed = []
  nodup : (failed.map Placement.method).Nodup
  apart : ∀ p ∈ failed, p.method ∉ stage.waiting.map Move.method
  failed : ∀ p ∈ failed, p ∈ stage.transit.placements ∧ Left before stage.transit p
  waiting : ∀ p ∈ stage.transit.placements, p.method ∈ stage.waiting.map Move.method →
    Left before stage.transit p

theorem Left.mono {after : Transit} {p : Placement} (left : Left before t p)
    (fallback : after.fallback = t.fallback) (events : t.events ⊆ after.events) :
    Left before after p := by
  rcases left with kept | ⟨isThere, source, reported⟩
  · exact Or.inl kept
  · exact Or.inr ⟨isThere.trans fallback.symm, source, events reported⟩

/-- A method that is struck off the list of moves waits no longer. -/
theorem not_waiting_of_nodup (kept : List Move) {rest : List Move} {move : Move}
    (nodup : ((kept ++ move :: rest).map Move.method).Nodup) :
    move.method ∉ (kept ++ rest).map Move.method := by
  intro member
  rcases List.mem_map.mp member with ⟨other, isOther, same⟩
  rcases List.mem_append.mp isOther with isKept | isRest
  · exact key_ne_of_nodup nodup (Or.inl isKept) same
  · exact key_ne_of_nodup nodup (Or.inr isRest) same

namespace Reported

/-- Nothing moves, and nobody begins to wait. -/
theorem of_still (reported : Reported target before first failed)
    (same : SameCode first.transit next.transit)
    (waiting : next.waiting ⊆ first.waiting)
    (later : next.isExact = true → first.isExact = true) :
    Reported target before next failed := by
  have fallback : next.transit.fallback = first.transit.fallback := by
    rw [Transit.fallback, same.cache]
    rfl
  have subset : first.transit.events ⊆ next.transit.events :=
    same.events ▸ List.Subset.refl _
  constructor
  · rw [same.events]
    exact reported.events
  · exact fun isExact => reported.early (later isExact)
  · exact reported.nodup
  · exact fun p isFailed waits => reported.apart p isFailed (List.map_subset _ waiting waits)
  · intro p isFailed
    rcases reported.failed p isFailed with ⟨member, left⟩
    rw [same.placements]
    exact ⟨member, left.mono fallback subset⟩
  · intro p member waits
    rw [same.placements] at member
    exact (reported.waiting p member (List.map_subset _ waiting waits)).mono fallback subset

/-- A method moves: it waits no longer, or it is in the fallback partition. -/
theorem of_relocated {order : List Partition} (reported : Reported target before first failed)
    (held : first.transit.Held code)
    (relocates : Relocates first.transit m order placed b cache)
    (quiet : ∀ event ∈ passed, event.isQuiet = true)
    (same : SameCode (first.transit.movedTo placed b cache passed) next.transit)
    (waited : failed ≠ [] → m ∈ first.waiting.map Move.method)
    (waiting : ∀ n ∈ next.waiting.map Move.method,
      n ∈ first.waiting.map Move.method ∨ first.isExact = true ∧ n = m)
    (aside : m ∈ next.waiting.map Move.method → b.partition = first.transit.fallback)
    (later : next.isExact = true → first.isExact = true) :
    Reported target before next failed := by
  rcases Placements.mem_of_find? relocates.found with ⟨_, rfl⟩
  have fallback : next.transit.fallback = first.transit.fallback := by
    rw [Transit.fallback, same.cache]
    exact congrArg Segmentation.fallback relocates.segmentation
  have subset : first.transit.events ⊆ next.transit.events := by
    rw [same.events]
    exact List.subset_append_left _ _
  constructor
  · rw [same.events, movedTo, List.filter_append, List.filter_append, (Event.filter_quiet quiet).1]
    simpa [Event.isPlacementFailure] using reported.events
  · exact fun isExact => reported.early (later isExact)
  · exact reported.nodup
  · intro p isFailed waits
    rcases waiting _ waits with old | ⟨isExact, _⟩
    · exact reported.apart p isFailed old
    · rw [reported.early isExact] at isFailed
      contradiction
  · intro p isFailed
    rcases reported.failed p isFailed with ⟨member, left⟩
    have differs : p.method ≠ placed.method := fun isSame =>
      reported.apart p isFailed (isSame ▸ waited (List.ne_nil_of_mem isFailed))
    have stays : next.transit.placements.find? p.method = some p := by
      rw [same.placements, movedTo, Placements.find?_put, if_neg differs]
      exact held.find?_of_mem member
    exact ⟨(Placements.mem_of_find? stays).1, left.mono fallback subset⟩
  · intro p member waits
    rw [same.placements] at member
    rcases relocates.mem_put held member with rfl | ⟨other, old⟩
    · refine Or.inr ⟨?_, placed.partition, ?_⟩
      · rw [fallback]
        exact aside waits
      · rw [same.events]
        exact List.mem_append_right _ (List.mem_append_right _ List.mem_cons_self)
    · rcases waiting _ waits with stillWaits | ⟨_, isSame⟩
      · exact (reported.waiting p old stillWaits).mono fallback subset
      · exact absurd isSame other

/-- A method is given up on. -/
theorem giveUp {move : Move} {rest : List Move}
    (reported : Reported target before (.settling (move :: rest) t) failed)
    (orderly : Orderly target (.settling (move :: rest) t))
    (found : t.placements.find? move.method = some placed)
    (quiet : ∀ event ∈ passed, event.isQuiet = true) :
    Reported target before (.settling rest ((t.logged passed).giveUp move placed))
      (failed ++ [placed]) := by
  rcases Placements.mem_of_find? found with ⟨member, sameMethod⟩
  have aim := orderly.aim move List.mem_cons_self
  have nodup := orderly.nodup.sublist (List.sublist_append_left _ _)
  have waited : placed.method ∈ (move :: rest).map Move.method := by
    rw [sameMethod]
    exact List.mem_cons_self
  have subset : t.events ⊆ ((t.logged passed).giveUp move placed).events :=
    List.Subset.trans (List.subset_append_left _ _) (List.subset_append_left _ _)
  constructor
  · have events : t.events.filter Event.isPlacementFailure = failed.map (failure target) :=
      reported.events
    change (t.events ++ passed ++ [_]).filter _ = _
    rw [List.filter_append, List.filter_append, (Event.filter_quiet quiet).1, events,
      List.map_append, List.append_nil]
    simp [Event.isPlacementFailure, failure, sameMethod, aim]
  · exact fun isExact => by contradiction
  · rw [List.map_append, List.map_singleton, ← List.concat_eq_append]
    apply reported.nodup.concat
    intro isFailed
    rcases List.mem_map.mp isFailed with ⟨p, isOld, same⟩
    exact reported.apart p isOld (same ▸ waited)
  · intro p isFailed
    rcases List.mem_append.mp isFailed with old | new
    · exact fun waits => reported.apart p old (List.mem_cons_of_mem _ waits)
    · rw [List.mem_singleton.mp new, sameMethod]
      exact not_waiting_of_nodup [] nodup
  · intro p isFailed
    rcases List.mem_append.mp isFailed with old | new
    · rcases reported.failed p old with ⟨isPlaced, left⟩
      exact ⟨isPlaced, left.mono rfl subset⟩
    · rw [List.mem_singleton.mp new]
      exact ⟨member, (reported.waiting placed member waited).mono rfl subset⟩
  · exact fun p isPlaced waits =>
      (reported.waiting p isPlaced (List.mem_cons_of_mem _ waits)).mono rfl subset

end Reported

theorem pending_of_relocate {after : Transit} {order : List Partition} {requested : Partition}
    {result : Except Fault Nat} (made : t.relocate m order requested = (result, after)) :
    after.pending = t.pending := by
  have same := (relocate_sameDuties t m order requested).pending
  rwa [made] at same

/-- Each act that gives up on a method reports it; what is reported stays
reported. -/
theorem Act.reported (act : Act first next) (held : first.transit.Held code)
    (orderly : Orderly target first) (reported : Reported target before first failed) :
    ∃ failed, Reported target before next failed := by
  cases act with
  | @arrive t after kept rest move size pending elsewhere made =>
      rcases relocate_eq_ok held made with ⟨placed, b, cache, passed, rfl, _, quiet, exchanges⟩
      have nodup := orderly.nodup.sublist (List.sublist_append_left _ _)
      rw [Stage.waiting, pending] at nodup
      refine ⟨failed, reported.of_relocated held exchanges.toRelocates quiet
        ⟨rfl, rfl, rfl, rfl, rfl, rfl⟩ (fun some => absurd (reported.early rfl) some) ?_
        (fun waits => absurd waits (not_waiting_of_nodup kept nodup)) id⟩
      intro n waits
      apply Or.inl
      rw [Stage.waiting, pending]
      exact List.map_subset _ ((List.sublist_cons_self move rest).append_left kept).subset waits
  | @skip t kept rest move pending _ =>
      refine ⟨failed, reported.of_still ⟨rfl, rfl, rfl, rfl, rfl, rfl⟩ ?_ id⟩
      rw [Stage.waiting, Stage.waiting, pending]
      exact ((List.sublist_cons_self move rest).append_left kept).subset
  | empty _ _ | leave _ _ _ _ _ =>
      exact ⟨failed, reported.of_still ⟨rfl, rfl, rfl, rfl, rfl, rfl⟩ (List.Subset.refl _) id⟩
  | @displace t after p m rank size rest made =>
      have pending := pending_of_relocate made
      rcases relocate_eq_ok held made with ⟨placed, b, cache, passed, rfl, _, quiet, exchanges⟩
      refine ⟨failed, reported.of_relocated held exchanges.toRelocates quiet
        ⟨rfl, rfl, rfl, rfl, rfl, rfl⟩ (fun some => absurd (reported.early rfl) some) ?_
        (fun _ => List.mem_singleton.mp exchanges.partition) id⟩
      intro n waits
      rw [Stage.waiting, queued] at waits
      simp only [pending, List.map_append, List.mem_append] at waits
      rcases waits with old | new
      · exact Or.inl old
      · exact Or.inr ⟨rfl, List.mem_singleton.mp new⟩
  | halt _ _ | emptied =>
      exact ⟨failed, reported.of_still ⟨rfl, rfl, rfl, rfl, rfl, rfl⟩
        (List.mergeSort_perm _ _).subset (fun _ => rfl)⟩
  | @park t after m size _ _ parkable made =>
      have pending := pending_of_relocate made
      rcases relocate_eq_ok (t := t.tried m) held made with
        ⟨placed, b, cache, passed, rfl, _, quiet, exchanges⟩
      have tried : Reported target before (.moving (t.tried m)) failed :=
        reported.of_still ⟨rfl, rfl, rfl, rfl, rfl, rfl⟩ (List.Subset.refl _) id
      refine ⟨failed, tried.of_relocated held exchanges.toRelocates quiet
        ⟨rfl, rfl, rfl, rfl, rfl, rfl⟩ (fun some => absurd (reported.early rfl) some) ?_
        (fun _ => List.mem_singleton.mp exchanges.partition) id⟩
      intro n waits
      rw [Stage.waiting, noteMoved] at waits
      rw [pending] at waits
      exact Or.inl waits
  | last _ _ _ | settled =>
      exact ⟨failed, reported.of_still ⟨rfl, rfl, rfl, rfl, rfl, rfl⟩ (List.Subset.refl _)
        (fun isExact => by contradiction)⟩
  | pass _ =>
      exact ⟨failed, reported.of_still ⟨rfl, rfl, rfl, rfl, rfl, rfl⟩ (List.subset_cons_self _ _)
        (fun isExact => by contradiction)⟩
  | @settle t after move rest placed size found made =>
      rcases attempt_eq_ok held found made with ⟨b, cache, passed, rfl, _, quiet, exchanges⟩
      have nodup := orderly.nodup.sublist (List.sublist_append_left _ _)
      exact ⟨failed, reported.of_relocated held exchanges.toRelocates quiet
        ⟨rfl, rfl, rfl, rfl, rfl, rfl⟩ (fun _ => List.mem_cons_self)
        (fun n waits => Or.inl (List.mem_cons_of_mem _ waits))
        (fun waits => absurd waits (not_waiting_of_nodup [] nodup))
        (fun isExact => by contradiction)⟩
  | @giveUp t after move rest placed fault found isFull noRoom =>
      rcases attempt_eq_error held found noRoom isFull with ⟨passed, rfl, quiet⟩
      exact ⟨failed ++ [placed], reported.giveUp orderly found quiet⟩
  | finish _ =>
      exact ⟨failed, reported.of_still ⟨rfl, rfl, rfl, rfl, rfl, rfl⟩ (List.nil_subset _)
        (fun isExact => by contradiction)⟩

theorem Leads.reported {last : Stage} (leads : Leads first last)
    (held : first.transit.Held code) (orderly : Orderly target first)
    (owes : first.Owes target) (reported : Reported target before first failed) :
    ∃ failed, Reported target before last failed := by
  induction leads with
  | refl => exact ⟨failed, reported⟩
  | tail reaches act inductionHypothesis =>
      rcases inductionHypothesis with ⟨_, reportedThere⟩
      have orderlyThere := (Leads.orderly reaches held orderly owes).1
      exact act.reported (Leads.steps reaches |>.held held).1 orderlyThere reportedThere

end CodeLayout.Transit
