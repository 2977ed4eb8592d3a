import CodeLayout.Proofs.Transit.Duties
import CodeLayout.Proofs.Transit.Room

/-!
# Outcome of a pass

When the moves of a pass come to an end without a fault, every method is where
it is to be, or it is reported, or it is in a partition that its target may
overflow into.  The methods reported are counted.
-/

namespace CodeLayout.Transit

variable {code : Method → Option ByteArray} {target : Method → Partition} {t : Transit}

/-- A placement is in its target, or its method is reported, or it is in an
unmanaged partition that the target may overflow into. -/
def AccountedFor (target : Method → Partition) (events : List Event) (p : Placement) : Prop :=
  p.partition = target p.method ∨
    .placementFailed p.method.display (target p.method) p.blob.padded ∈ events ∨
    p.partition.isManaged = false ∧ (target p.method).mayOverflowInto p.partition = true

theorem AccountedFor.mono {events more : List Event} {p : Placement}
    (accounted : AccountedFor target events p) (subset : events ⊆ more) :
    AccountedFor target more p := by
  rcases accounted with inPlace | reported | overflowed
  · exact Or.inl inPlace
  · exact Or.inr (Or.inl (subset reported))
  · exact Or.inr (Or.inr overflowed)

/-- A method that is given up on is reported. -/
theorem accounted_giveUp {move : Move} {p : Placement} (aim : move.target = target move.method)
    (sameMethod : p.method = move.method) :
    AccountedFor target (t.giveUp move p).events p := by
  apply Or.inr
  apply Or.inl
  rw [sameMethod, ← aim]
  exact List.mem_append_right _ List.mem_cons_self

/-- A method that a last move brings anywhere is in its target or where that may
overflow into. -/
theorem accounted_of_allocated {s : Segmentation} {move : Move} {p : Placement}
    (events : List Event) (aim : move.target = target move.method)
    (sameMethod : p.method = move.method) (inOrder : p.partition ∈ s.allocationOrder move.target) :
    AccountedFor target events p := by
  rw [AccountedFor, sameMethod, ← aim]
  rcases Segmentation.mem_allocationOrder inOrder with inPlace | overflowed
  · exact Or.inl inPlace
  · exact Or.inr (Or.inr overflowed)

/-! ## The last moves -/

/-- Every method is accounted for, or one of the last moves is its own. -/
structure Unsettled (target : Method → Partition) (t : Transit) (moves : List Move) : Prop where
  aim : ∀ move ∈ moves, move.target = target move.method
  placed : ∀ p ∈ t.placements,
    AccountedFor target t.events p ∨ ∃ move ∈ moves, move.method = p.method

namespace Unsettled

variable {move : Move} {rest : List Move} {placed : Placement}

/-- A method that is accounted for needs no move. -/
theorem drop (unsettled : Unsettled target t (move :: rest)) {after : Transit}
    (logged : t.events ⊆ after.events)
    (placed : ∀ p ∈ after.placements, p.method ≠ move.method ∧ p ∈ t.placements ∨
      AccountedFor target after.events p) : Unsettled target after rest := by
  constructor
  · intro other member
    exact unsettled.aim other (List.mem_cons_of_mem _ member)
  · intro p member
    rcases placed p member with ⟨differs, old⟩ | accounted
    · rcases unsettled.placed p old with accounted | ⟨other, isMove, sameMethod⟩
      · exact Or.inl (accounted.mono logged)
      · rcases List.mem_cons.mp isMove with rfl | inRest
        · exact absurd sameMethod.symm differs
        · exact Or.inr ⟨other, inRest, sameMethod⟩
    · exact Or.inl accounted

theorem giveUp (unsettled : Unsettled target t (move :: rest)) (held : t.Held code)
    (found : t.placements.find? move.method = some placed) (events : List Event) :
    Unsettled target ((t.logged events).giveUp move placed) rest := by
  apply unsettled.drop
  · exact List.Subset.trans (List.subset_append_left _ _) (List.subset_append_left _ _)
  · intro p member
    by_cases same : p.method = move.method
    · have known := held.find?_of_mem member
      rw [same, found] at known
      cases known
      exact Or.inr (accounted_giveUp (unsettled.aim move List.mem_cons_self) same)
    · exact Or.inl ⟨same, member⟩

theorem relocate (unsettled : Unsettled target t (move :: rest)) (held : t.Held code) {b : Blob}
    {cache : Cache}
    (relocates : Relocates t move.method (t.lastOrder move placed) placed b cache)
    (events : List Event) :
    Unsettled target ((t.movedTo placed b cache events).noteMoved move.method b.size) rest := by
  apply unsettled.drop
  · exact List.subset_append_left _ _
  · intro p member
    rcases relocates.mem_placements held member with ⟨sameMethod, atBlob⟩ | other
    · apply Or.inr
      apply accounted_of_allocated _ (unsettled.aim move List.mem_cons_self) sameMethod
      rw [atBlob]
      exact List.mem_of_mem_filter relocates.partition
    · exact Or.inl other

end Unsettled

/-- The last moves leave every method accounted for. -/
theorem settle_accounted (held : t.Held code) (moves : List Move)
    (unsettled : Unsettled target t moves) (endsWell : (t.settle moves).1 = .ok ()) :
    ∀ p ∈ (t.settle moves).2.placements,
      AccountedFor target (t.settle moves).2.events p := by
  induction moves generalizing t with
  | nil =>
      intro p member
      rcases unsettled.placed p member with accounted | ⟨move, isMove, _⟩
      · exact accounted
      · contradiction
  | cons move rest inductionHypothesis =>
      rw [settle_cons] at endsWell ⊢
      cases found : t.placements.find? move.method with
      | none =>
          rw [found] at endsWell
          apply inductionHypothesis held _ endsWell
          apply unsettled.drop (List.Subset.refl _)
          intro p member
          exact Or.inl ⟨Placements.find?_eq_none_iff.mp found p member, member⟩
      | some placed =>
          rw [found] at endsWell
          dsimp only at endsWell ⊢
          rcases attempt_cases held found with
            ⟨fault, after, equal, fails⟩ | ⟨b, cache, events, equal, _, exchanges⟩
          · rw [equal] at endsWell ⊢
            dsimp only at endsWell ⊢
            split at endsWell
            · rename_i full
              rw [if_pos full]
              rcases fails.eq_logged full with ⟨passed, rfl, _⟩
              have givenUp := unsettled.giveUp held found passed
              exact inductionHypothesis held givenUp endsWell
            · contradiction
          · rw [equal] at endsWell ⊢
            dsimp only at endsWell ⊢
            have relocated := unsettled.relocate held exchanges.toRelocates events
            exact inductionHypothesis (exchanges.held held) relocated endsWell

/-- A round that calls for another one has lost nobody; one that is the last
leaves every method accounted for. -/
def Round.Sound (target : Method → Partition) : Round → Prop
  | .again after => Owed target after after.pending
  | .finished after => ∀ p ∈ after.placements, AccountedFor target after.events p
  | .failed _ _ => True

theorem remedy_sound (held : t.Held code) (owed : Owed target t t.pending) :
    t.remedy.Sound target := by
  unfold remedy
  split
  · rename_i nothing
    intro p member
    rcases owed.placed p member with inPlace | ⟨move, isMove, _⟩
    · exact Or.inl inPlace
    · rw [List.isEmpty_iff.mp nothing] at isMove
      contradiction
  · split
    · rename_i p found
      have compacted := compact_owed held p owed
      split
      · rename_i after equal
        rw [equal] at compacted
        exact compacted
      · trivial
    · split
      · rename_i m found
        have parked := park_owed held found owed
        split
        · rename_i after equal
          rw [equal] at parked
          exact parked
        · trivial
      · have unsettled : Unsettled target { t with pending := [] } t.pending :=
          ⟨owed.aim, fun p member => (owed.placed p member).imp_left Or.inl⟩
        have settled := settle_accounted (t := { t with pending := [] }) held t.pending unsettled
        split
        · rename_i after equal
          rw [equal] at settled
          exact settled rfl
        · trivial

theorem round_sound (held : t.Held code) (owed : Owed target t t.pending) :
    t.round.Sound target := by
  have steps := makeExact_steps t
  have made := makeExact_owed held owed
  unfold round
  split
  · rename_i after equal
    rw [equal] at steps made
    exact remedy_sound (steps.held held).1 (made rfl)
  · trivial

/-- After a run without a fault every method is accounted for. -/
theorem run_accounted (held : t.Held code) (owed : Owed target t t.pending)
    (endsWell : t.run.1 = .ok ()) :
    ∀ p ∈ t.run.2.placements, AccountedFor target t.run.2.events p := by
  fun_induction run t with
  | case1 t after again inductionHypothesis =>
      have heldAfter := ((round_steps t).held held).1
      have owedAfter := round_sound held owed
      rw [again] at heldAfter owedAfter
      exact inductionHypothesis heldAfter owedAfter endsWell
  | case2 t after finished =>
      have accounted := round_sound held owed
      rw [finished] at accounted
      exact accounted
  | case3 t fault after failed => contradiction

/-! ## The log -/

/-- Events are only added to the log, and the methods reported are counted. -/
theorem Steps.log {after : Transit} (steps : Steps t after) (held : t.Held code) :
    ∃ more, after.events = t.events ++ more ∧
      after.unplaced = t.unplaced + more.countP Event.isPlacementFailure := by
  induction steps with
  | refl => exact ⟨[], by simp, by simp⟩
  | relocate steps m order requested inductionHypothesis =>
      rcases inductionHypothesis with ⟨more, logged, counted⟩
      rcases steps.held held with ⟨heldMiddle, _⟩
      rcases relocate_cases heldMiddle m order requested with
        ⟨fault, after, equal, ⟨quiet, _, _, _⟩⟩ | ⟨placed, b, cache, passed, equal, quiet, _⟩
      · rename_i passed _ _ _ _
        rcases Event.countP_quiet quiet with ⟨noFailure, _⟩
        rw [equal]
        refine ⟨more ++ passed, ?_, ?_⟩
        · rw [← List.append_assoc, ← logged]
          rfl
        · rw [List.countP_append, noFailure, Nat.add_zero, ← counted]
          rfl
      · rcases Event.countP_quiet quiet with ⟨noFailure, _⟩
        rw [equal]
        refine ⟨more ++ (passed ++ [.methodRelocated placed.method.display placed.partition
          b.partition b.size]), ?_, ?_⟩
        · rw [← List.append_assoc, ← logged]
          rfl
        · rw [List.countP_append, List.countP_append, noFailure]
          exact counted
  | giveUp _ move placed inductionHypothesis =>
      rcases inductionHypothesis with ⟨more, logged, counted⟩
      refine ⟨more ++ [.placementFailed move.method.display move.target placed.blob.padded],
        ?_, ?_⟩
      · rw [← List.append_assoc, ← logged]
        rfl
      · rw [List.countP_append, ← Nat.add_assoc, ← counted]
        rfl
  | note _ same inductionHypothesis =>
      rcases inductionHypothesis with ⟨more, logged, counted⟩
      exact ⟨more, same.events.trans logged, same.unplaced.trans counted⟩

end CodeLayout.Transit
