import CodeLayout.Proofs.Transit.Ledger

/-!
# Evictions of a run

A method without a rank is evicted from a managed partition by a move to the fallback
partition.  Such moves wait in front of all others, and nothing else moves a method
without a rank: it is neither parked nor displaced.  An eviction that is still left
among the last moves has been refused when all pending moves were stuck.  As nothing
moves before the evictions have been tried again, it is refused again.  So an eviction
is made exactly or not at all.
-/

namespace CodeLayout

/-- Code of the fallback partition overflows into no other one. -/
theorem Segmentation.allocationOrder_fallback (s : Segmentation) :
    s.allocationOrder s.fallback = [s.fallback] ∨ s.allocationOrder s.fallback = [] := by
  have nowhere : s.overflowChain s.fallback = [] := by
    rw [overflowChain, fallback]
    split <;> rfl
  rw [allocationOrder, nowhere]
  split
  · exact Or.inl rfl
  · exact Or.inr rfl

namespace Transit

variable {grade : Method → Option Nat} {code : Method → Option ByteArray} {t after : Transit}
  {first next : Stage} {m : Method} {move : Move} {placed : Placement}

/-! ## The order of the moves -/

/-- Whether a move goes before another one is decided by their ranks. -/
theorem before_trans (a b c : Move) (first : Move.before a b = true)
    (second : Move.before b c = true) : Move.before a c = true := by
  rcases a with ⟨_, _, _, _ | r⟩
  · rfl
  · rcases b with ⟨_, _, _, _ | s⟩
    · contradiction
    · rcases c with ⟨_, _, _, _ | u⟩
      · contradiction
      · exact decide_eq_true
          (Nat.le_trans (of_decide_eq_true first) (of_decide_eq_true second))

theorem before_total (a b : Move) : (Move.before a b || Move.before b a) = true := by
  unfold Move.before
  cases a.rank with
  | none => rfl
  | some r =>
      cases b.rank with
      | none => rfl
      | some s => simpa using Nat.le_total r s

/-- Moves without a rank wait in front. -/
def InFront (moves : List Move) : Prop :=
  moves.Pairwise fun a b => b.rank = none → a.rank = none

theorem inFront_mergeSort (moves : List Move) : InFront (moves.mergeSort Move.before) := by
  apply (List.pairwise_mergeSort before_trans before_total moves).imp
  intro a b goesBefore isNone
  cases isRank : a.rank with
  | none => rfl
  | some r => simp [Move.before, isRank, isNone] at goesBefore

theorem InFront.concat {moves : List Move} (inFront : InFront moves) (ranked : move.rank ≠ none) :
    InFront (moves ++ [move]) := by
  rw [InFront, List.pairwise_append]
  refine ⟨inFront, List.pairwise_singleton _ _, ?_⟩
  intro a _ b member isNone
  rw [List.mem_singleton.mp member] at isNone
  exact absurd isNone ranked

/-- Behind a move with a rank there are no others. -/
theorem InFront.ranked_of_mem {rest : List Move} {other : Move}
    (inFront : InFront (move :: rest)) (ranked : move.rank ≠ none) (member : other ∈ rest) :
    other.rank ≠ none := fun isNone =>
  ranked ((List.pairwise_cons.mp inFront).1 other member isNone)

/-! ## Refusals -/

/-- The target of a move has no room for its method. -/
def Refused (t : Transit) (move : Move) : Prop :=
  ∃ fault, (t.relocate move.method [move.target] move.target).1 = .error fault

/-- Whether a method finds room depends on the code alone, not on what is noted. -/
theorem result_relocate (safepoint : after.safepoint = t.safepoint)
    (cache : after.cache = t.cache) (placements : after.placements = t.placements) (m : Method)
    (order : List Partition) (requested : Partition) :
    (after.relocate m order requested).1 = (t.relocate m order requested).1 := by
  unfold relocate
  rw [safepoint, cache, placements]
  split
  · rfl
  · split
    · rfl
    · split
      · rfl
      · dsimp only
        split
        · rfl
        · split <;> rfl

theorem Refused.of_same (refused : t.Refused move) (safepoint : after.safepoint = t.safepoint)
    (cache : after.cache = t.cache) (placements : after.placements = t.placements) :
    after.Refused move := by
  rw [Refused, result_relocate safepoint cache placements]
  exact refused

theorem Stuck.refused (stuck : t.Stuck move) : t.Refused move := by
  rcases stuck with ⟨_, fault, _, failed⟩
  exact ⟨fault, congrArg Prod.fst failed⟩

/-- A last move to the fallback partition is made only where an exact one could be. -/
theorem Refused.not_attempt {result : Except Fault Nat × Transit} {size : Nat}
    (refused : t.Refused move) (aim : move.target = t.fallback)
    (attempted : t.attempt move placed = result) : result.1 ≠ .ok size := by
  rintro made
  rw [← attempted, attempt, lastOrder, aim, fallback] at made
  rcases refused with ⟨fault, failed⟩
  rw [aim, fallback] at failed
  split at made
  · contradiction
  · rename_i some
    rcases t.cache.segmentation.allocationOrder_fallback with one | none
    · rw [one] at some made
      rw [List.filter_cons] at some made
      split at made
      · rw [List.filter_nil, failed] at made
        contradiction
      · rename_i excluded
        rw [if_neg excluded] at some
        exact some rfl
    · rw [none] at some
      exact some rfl

/-! ## Ranks through a run -/

/-- Methods move for the sake of their ranks; those that have none are evicted. -/
structure Graded (grade : Method → Option Nat) (stage : Stage) : Prop where
  placements : ∀ p ∈ stage.transit.placements, p.rank = grade p.method
  moves : ∀ move ∈ stage.waiting, move.rank = grade move.method
  residents : ∀ resident ∈ stage.leaving, grade resident.1 = some resident.2
  evictions : ∀ move ∈ stage.waiting, move.rank = none → move.target = stage.transit.fallback
  inFront : InFront stage.waiting
  refused : ∀ moves t, stage = .settling moves t →
    ∀ move ∈ moves, move.rank = none → t.Refused move

namespace Graded

/-- No rank is changed by a step. -/
theorem placements_of_frame (graded : Graded grade first)
    (frame : Frame first.transit next.transit) :
    ∀ p ∈ next.transit.placements, p.rank = grade p.method := by
  intro p member
  rcases frame.exists_earlier member with ⟨q, old, same⟩
  have sameMethod : q.method = p.method := congrArg Prod.fst same
  have sameRank : q.rank = p.rank := congrArg (fun l => l.2.1) same
  rw [← sameMethod, ← sameRank]
  exact graded.placements q old

/-- Moves are struck off. -/
theorem of_sublist (graded : Graded grade first) (frame : Frame first.transit next.transit)
    (sublist : next.waiting.Sublist first.waiting) (leaving : next.leaving = [])
    (refused : ∀ moves t, next = .settling moves t →
      ∀ move ∈ moves, move.rank = none → t.Refused move) : Graded grade next := by
  have fallback : next.transit.fallback = first.transit.fallback :=
    congrArg Segmentation.fallback frame.segmentation
  constructor
  · exact graded.placements_of_frame frame
  · exact fun move member => graded.moves move (sublist.subset member)
  · rw [leaving]
    intro resident member
    contradiction
  · intro move member isNone
    rw [fallback]
    exact graded.evictions move (sublist.subset member) isNone
  · exact graded.inFront.sublist sublist
  · exact refused

/-- Pending moves are struck off, and the last moves have not begun. -/
theorem of_pending (graded : Graded grade first) (frame : Frame first.transit after)
    (sublist : after.pending.Sublist first.waiting) : Graded grade (.moving after) :=
  graded.of_sublist frame sublist rfl fun _ _ isSettling => by contradiction

/-- The moves are put in order. -/
theorem sorted {p : Partition} {residents : List (Method × Nat)}
    (graded : Graded grade (.emptying p residents t)) : Graded grade (.moving t.sorted) where
  placements := graded.placements
  moves move member := graded.moves move (List.mem_mergeSort.mp member)
  residents resident member := by contradiction
  evictions move member := graded.evictions move (List.mem_mergeSort.mp member)
  inFront := inFront_mergeSort t.pending
  refused moves t isSettling := by contradiction

end Graded

/-- A method that is parked has a rank. -/
theorem Graded.ranked_of_parkable (graded : Graded grade (.moving t))
    (parkable : t.parkable? = some m) : grade m ≠ none := by
  rcases Option.map_eq_some_iff.mp parkable with ⟨move, found, rfl⟩
  have isPending : move ∈ t.pending := List.mem_of_find?_eq_some found
  have holds := List.find?_some found
  simp only [Bool.and_eq_true, decide_eq_true_eq, ne_eq] at holds
  rw [← graded.moves move isPending]
  exact fun isNone => holds.1.1 (graded.evictions move isPending isNone)

/-- A last move that is made has a rank. -/
theorem Graded.ranked_of_attempt {rest : List Move} {size : Nat}
    (graded : Graded grade (.settling (move :: rest) t))
    (made : t.attempt move placed = (.ok size, after)) : move.rank ≠ none := by
  intro isNone
  have refused := graded.refused _ t rfl move List.mem_cons_self isNone
  have aim := graded.evictions move List.mem_cons_self isNone
  exact refused.not_attempt aim made rfl

/-- Each act keeps the ranks, and the evictions in front. -/
theorem Act.graded (act : Act first next) (held : first.transit.Held code)
    (graded : Graded grade first) : Graded grade next := by
  rcases act.steps.held held with ⟨_, frame⟩
  cases act with
  | @arrive t after kept rest move size pending elsewhere made =>
      apply graded.of_pending frame
      rw [Stage.waiting, pending]
      exact (List.sublist_cons_self move rest).append_left kept
  | @skip t kept rest move pending _ =>
      apply graded.of_pending frame
      rw [Stage.waiting, pending]
      exact (List.sublist_cons_self move rest).append_left kept
  | @empty t p _ _ =>
      constructor
      · exact graded.placements
      · exact graded.moves
      · intro resident member
        rcases mem_residents member with ⟨q, isPlacement, isMethod, isRank, _⟩
        rw [← isMethod, ← graded.placements q isPlacement]
        exact isRank
      · exact graded.evictions
      · exact graded.inFront
      · exact fun moves t isSettling => by contradiction
  | @displace t after p m rank size rest made =>
      have pending : after.pending = t.pending := pending_of_relocate made
      have fallback : (after.queued m rank p size).fallback = t.fallback :=
        congrArg Segmentation.fallback frame.segmentation
      have isRank : grade m = some rank := graded.residents _ List.mem_cons_self
      constructor
      · exact graded.placements_of_frame frame
      · intro move member
        rw [Stage.waiting, queued, pending] at member
        rcases List.mem_append.mp member with old | new
        · exact graded.moves move old
        · rw [List.mem_singleton.mp new]
          exact isRank.symm
      · exact fun resident member => graded.residents resident (List.mem_cons_of_mem _ member)
      · intro move member isNone
        rw [Stage.waiting, queued, pending] at member
        rcases List.mem_append.mp member with old | new
        · exact (graded.evictions move old isNone).trans fallback.symm
        · rw [List.mem_singleton.mp new] at isNone
          contradiction
      · rw [Stage.waiting, queued, pending]
        exact InFront.concat graded.inFront (Option.some_ne_none rank)
      · exact fun moves t isSettling => by contradiction
  | halt _ _ | emptied => exact graded.sorted
  | @park t after m size _ _ _ made =>
      have pending : after.pending = t.pending := pending_of_relocate (t := t.tried m) made
      apply graded.of_pending frame
      rw [noteMoved, pending]
      exact List.Sublist.refl _
  | leave _ _ _ _ _ => exact graded.of_pending frame (List.Sublist.refl _)
  | @last t blocked _ _ =>
      apply graded.of_sublist frame (List.Sublist.refl _) rfl
      rintro moves u equal move member _
      cases equal
      exact (blocked move member).refused.of_same rfl rfl rfl
  | @pass t move rest _ =>
      apply graded.of_sublist frame (List.sublist_cons_self _ _) rfl
      rintro moves u equal other member
      cases equal
      exact graded.refused _ t rfl other (List.mem_cons_of_mem _ member)
  | @settle t after move rest placed size found made =>
      apply graded.of_sublist frame (List.sublist_cons_self _ _) rfl
      rintro moves u equal other member isNone
      cases equal
      exact absurd isNone (graded.inFront.ranked_of_mem (graded.ranked_of_attempt made) member)
  | @giveUp t after move rest placed fault found isFull noRoom =>
      rcases attempt_eq_error held found noRoom isFull with ⟨passed, rfl, _⟩
      apply graded.of_sublist frame (List.sublist_cons_self _ _) rfl
      rintro moves u equal other member isNone
      cases equal
      have refused := graded.refused _ t rfl other (List.mem_cons_of_mem _ member) isNone
      exact refused.of_same rfl rfl rfl
  | finish _ =>
      exact graded.of_sublist frame (List.nil_sublist _) rfl fun _ _ isSettling => by contradiction
  | settled =>
      exact graded.of_sublist frame (List.Sublist.refl _) rfl fun _ _ isSettling => by
        contradiction

end Transit

end CodeLayout
