import CodeLayout.Engine.Termination

/-!
# The steps of a pass

Whatever a pass does, it only relocates one method after another and gives up
on some of them; all else is bookkeeping that neither touches the code nor what
is known and reported about it.  What these steps keep is therefore kept by a
whole run, however it ends.
-/

namespace CodeLayout.Transit

/-- The two states agree on the code, on where it is and on what is reported. -/
structure SameCode (t after : Transit) : Prop where
  safepoint : after.safepoint = t.safepoint
  cache : after.cache = t.cache
  placements : after.placements = t.placements
  forwarding : after.forwarding = t.forwarding
  unplaced : after.unplaced = t.unplaced
  events : after.events = t.events

/-- Report that a method found no room. -/
def giveUp (t : Transit) (move : Move) (placed : Placement) : Transit :=
  { t with
    unplaced := t.unplaced + 1
    events := t.events ++
      [.placementFailed move.method.display move.target placed.blob.padded] }

/-- One state is reached from another by relocations, by giving up on methods
and by bookkeeping. -/
inductive Steps (t : Transit) : Transit → Prop
  | refl : Steps t t
  | relocate {middle : Transit} (steps : Steps t middle) (m : Method) (order : List Partition)
      (requested : Partition) : Steps t (middle.relocate m order requested).2
  | giveUp {middle : Transit} (steps : Steps t middle) (move : Move) (placed : Placement) :
      Steps t (middle.giveUp move placed)
  | note {middle after : Transit} (steps : Steps t middle) (same : SameCode middle after) :
      Steps t after

namespace Steps

theorem trans {t middle after : Transit} (first : Steps t middle) (second : Steps middle after) :
    Steps t after := by
  induction second with
  | refl => exact first
  | relocate _ m order requested inductionHypothesis =>
      exact inductionHypothesis.relocate m order requested
  | giveUp _ move placed inductionHypothesis => exact inductionHypothesis.giveUp move placed
  | note _ same inductionHypothesis => exact inductionHypothesis.note same

/-- Bookkeeping alone. -/
theorem of_same {t after : Transit} (same : SameCode t after) : Steps t after :=
  refl.note same

/-- A relocation that is known by its result. -/
theorem of_relocate {t after : Transit} {m : Method} {order : List Partition}
    {requested : Partition} {result : Except Fault Nat}
    (relocated : t.relocate m order requested = (result, after)) : Steps t after := by
  have step := (refl (t := t)).relocate m order requested
  rwa [relocated] at step

end Steps

theorem noteMoved_same (t : Transit) (m : Method) (bytes : Nat) :
    SameCode t (t.noteMoved m bytes) :=
  ⟨rfl, rfl, rfl, rfl, rfl, rfl⟩

theorem noteExact_same (t : Transit) (move : Move) (bytes : Nat) :
    SameCode t (t.noteExact move bytes) :=
  ⟨rfl, rfl, rfl, rfl, rfl, rfl⟩

theorem sweep_steps (t : Transit) (moves : List Move) : Steps t (t.sweep moves).transit := by
  induction moves generalizing t with
  | nil => exact Steps.refl
  | cons move rest inductionHypothesis =>
      rw [sweep]
      split
      · exact inductionHypothesis t
      · split
        · rename_i bytes after relocated
          exact ((Steps.of_relocate relocated).note (noteExact_same after move bytes)).trans
            (inductionHypothesis _)
        · rename_i fault after relocated
          split
          · exact (Steps.of_relocate relocated).trans (inductionHypothesis after)
          · exact Steps.of_relocate relocated

theorem sweeps_steps (t : Transit) (moves : List Move) : Steps t (t.sweeps moves).transit := by
  fun_induction sweeps t moves with
  | case1 t moves s again inductionHypothesis =>
      exact (sweep_steps t moves).trans inductionHypothesis
  | case2 t moves s again => exact sweep_steps t moves

theorem makeExact_steps (t : Transit) : Steps t t.makeExact.2 :=
  (sweeps_steps t t.pending).note ⟨rfl, rfl, rfl, rfl, rfl, rfl⟩

theorem displace_steps (t : Transit) (p : Partition) (residents : List (Method × Nat)) :
    Steps t (t.displace p residents).2 := by
  induction residents generalizing t with
  | nil => exact Steps.refl
  | cons resident rest inductionHypothesis =>
      rcases resident with ⟨m, rank⟩
      rw [displace]
      split
      · rename_i bytes after relocated
        refine Steps.trans ?_ (inductionHypothesis _)
        exact (Steps.of_relocate relocated).note ⟨rfl, rfl, rfl, rfl, rfl, rfl⟩
      · rename_i fault after relocated
        split <;> exact Steps.of_relocate relocated

theorem compact_steps (t : Transit) (p : Partition) : Steps t (t.compact p).2 := by
  have displaced := displace_steps { t with compacted := p :: t.compacted } p
    (residents { t with compacted := p :: t.compacted } p)
  have marked : Steps t { t with compacted := p :: t.compacted } :=
    Steps.of_same ⟨rfl, rfl, rfl, rfl, rfl, rfl⟩
  unfold compact
  dsimp only
  split
  · rename_i after equal
    rw [equal] at displaced
    exact (marked.trans displaced).note ⟨rfl, rfl, rfl, rfl, rfl, rfl⟩
  · rename_i fault after equal
    rw [equal] at displaced
    exact marked.trans displaced

theorem park_steps (t : Transit) (m : Method) : Steps t (t.park m).2 := by
  have marked : Steps t { t with parked := m :: t.parked } :=
    Steps.of_same ⟨rfl, rfl, rfl, rfl, rfl, rfl⟩
  unfold park
  dsimp only
  split
  · rename_i bytes after relocated
    exact (marked.trans (Steps.of_relocate relocated)).note (noteMoved_same after m bytes)
  · rename_i fault after relocated
    split <;> exact marked.trans (Steps.of_relocate relocated)

/-- Where a last move may go: the partitions in which the target may be
allocated, except the one that the method is in. -/
def lastOrder (t : Transit) (move : Move) (placed : Placement) : List Partition :=
  (t.cache.segmentation.allocationOrder move.target).filter fun p => p ≠ placed.partition

/-- Try to make one of the last moves. -/
def attempt (t : Transit) (move : Move) (placed : Placement) : Except Fault Nat × Transit :=
  if (t.lastOrder move placed).isEmpty then (.error (.full move.target placed.blob.padded), t)
  else t.relocate move.method (t.lastOrder move placed) move.target

theorem settle_cons (t : Transit) (move : Move) (rest : List Move) :
    t.settle (move :: rest) =
      match t.placements.find? move.method with
      | none => t.settle rest
      | some placed =>
        match t.attempt move placed with
        | (.ok bytes, after) => (after.noteMoved move.method bytes).settle rest
        | (.error fault, after) =>
          if fault.isFull then (after.giveUp move placed).settle rest
          else (.error fault, after) := by
  rw [settle]
  cases found : t.placements.find? move.method with
  | none => rfl
  | some placed =>
      cases attempted : t.attempt move placed with
      | mk result after =>
          have unfolded := attempted
          rw [attempt, lastOrder] at unfolded
          dsimp only
          rw [unfolded, attempted]
          cases result <;> rfl

theorem attempt_steps (t : Transit) (move : Move) (placed : Placement) :
    Steps t (t.attempt move placed).2 := by
  rw [attempt]
  split
  · exact Steps.refl
  · exact Steps.refl.relocate _ _ _

theorem settle_steps (t : Transit) (moves : List Move) : Steps t (t.settle moves).2 := by
  induction moves generalizing t with
  | nil => exact Steps.refl
  | cons move rest inductionHypothesis =>
      rw [settle_cons]
      split
      · exact inductionHypothesis t
      · rename_i placed found
        have attempted := attempt_steps t move placed
        split
        · rename_i bytes after equal
          rw [equal] at attempted
          exact (attempted.note (noteMoved_same after move.method bytes)).trans
            (inductionHypothesis _)
        · rename_i fault after equal
          rw [equal] at attempted
          split
          · exact (attempted.giveUp move placed).trans (inductionHypothesis _)
          · exact attempted

/-- The state that a round leads to. -/
def Round.transit : Round → Transit
  | .again t | .finished t | .failed _ t => t

theorem remedy_steps (t : Transit) : Steps t t.remedy.transit := by
  unfold remedy
  split
  · exact Steps.refl
  · split
    · rename_i p found
      have compacted := compact_steps t p
      split <;> rename_i equal <;> rw [equal] at compacted <;> exact compacted
    · split
      · rename_i m found
        have parked := park_steps t m
        split <;> rename_i equal <;> rw [equal] at parked <;> exact parked
      · have settled := settle_steps { t with pending := [] } t.pending
        have dropped : Steps t { t with pending := [] } :=
          Steps.of_same ⟨rfl, rfl, rfl, rfl, rfl, rfl⟩
        split <;> rename_i equal <;> rw [equal] at settled <;> exact dropped.trans settled

theorem round_steps (t : Transit) : Steps t t.round.transit := by
  have exactly := makeExact_steps t
  unfold round
  split
  · rename_i after equal
    rw [equal] at exactly
    exact exactly.trans (remedy_steps after)
  · rename_i fault after equal
    rw [equal] at exactly
    exact exactly

/-- A run is a round and what it calls for. -/
theorem run_eq (t : Transit) :
    t.run =
      match t.round with
      | .again after => after.run
      | .finished after => (.ok (), after)
      | .failed fault after => (.error fault, after) := by
  rw [run]
  split <;> rename_i equal <;> simp [equal]

/-- A run is made of steps, however it ends. -/
theorem run_steps (t : Transit) : Steps t t.run.2 := by
  fun_induction run t with
  | case1 t after again inductionHypothesis =>
      have step := round_steps t
      rw [again] at step
      exact step.trans inductionHypothesis
  | case2 t after finished =>
      have step := round_steps t
      rwa [finished] at step
  | case3 t fault after failed =>
      have step := round_steps t
      rwa [failed] at step

end CodeLayout.Transit
