import CodeLayout.Proofs.Transit.Relocation
import Mathlib.Logic.Relation

/-!
# Stages of a run

The loops of a run, taken apart into single acts.  A run either makes pending
moves, or sends the residents of a partition away, or makes the last moves.
Each act says under which circumstances the run does what it does; what all
acts keep is kept by the whole run.  A run that fails does so at a stage that
it reached by acts.
-/

namespace CodeLayout.Transit

/-- Where a run stands. -/
inductive Stage where
  /-- Pending moves are made as far as they can be made exactly. -/
  | moving (t : Transit)
  /-- Residents of a partition leave it one after another. -/
  | emptying (p : Partition) (residents : List (Method × Nat)) (t : Transit)
  /-- The last moves are made wherever there is room. -/
  | settling (moves : List Move) (t : Transit)
  | done (t : Transit)

namespace Stage

def transit : Stage → Transit
  | moving t | emptying _ _ t | settling _ t | done t => t

/-- The moves that are still to be made. -/
def waiting : Stage → List Move
  | moving t | emptying _ _ t => t.pending
  | settling moves _ => moves
  | done _ => []

end Stage

/-- The method of a move is elsewhere, and its target is full. -/
def Stuck (t : Transit) (move : Move) : Prop :=
  t.partitionOf? move.method ≠ some move.target ∧
    ∃ fault, fault.isFull = true ∧
      t.relocate move.method [move.target] move.target = (.error fault, t)

/-- No pending move can be made exactly. -/
def Blocked (t : Transit) : Prop :=
  ∀ move ∈ t.pending, t.Stuck move

/-- The state in which a partition is marked as compacted. -/
def marked (t : Transit) (p : Partition) : Transit :=
  { t with compacted := p :: t.compacted }

/-- The state in which a method is marked as parked. -/
def tried (t : Transit) (m : Method) : Transit :=
  { t with parked := m :: t.parked }

/-- The state in which a resident that left queues up to come back. -/
def queued (t : Transit) (m : Method) (rank : Nat) (p : Partition) (bytes : Nat) : Transit :=
  { t.noteMoved m bytes with
    pending := t.pending ++ [⟨m, t.fallback, p, some rank⟩] }

/-- The state in which the pending moves are in order again. -/
def sorted (t : Transit) : Transit :=
  { t with pending := t.pending.mergeSort Move.before }

/-- What a run does next at a stage. -/
inductive Act : Stage → Stage → Prop
  | arrive {t after : Transit} {kept rest : List Move} {move : Move} {bytes : Nat}
      (pending : t.pending = kept ++ move :: rest)
      (elsewhere : t.partitionOf? move.method ≠ some move.target)
      (made : t.relocate move.method [move.target] move.target = (.ok bytes, after)) :
      Act (.moving t) (.moving { after.noteExact move bytes with pending := kept ++ rest })
  | skip {t : Transit} {kept rest : List Move} {move : Move}
      (pending : t.pending = kept ++ move :: rest)
      (inPlace : t.partitionOf? move.method = some move.target) :
      Act (.moving t) (.moving { t with pending := kept ++ rest })
  | empty {t : Transit} {p : Partition} (blocked : t.Blocked)
      (fragmented : t.fragmentedTarget = some p) :
      Act (.moving t) (.emptying p ((t.marked p).residents p) (t.marked p))
  | displace {t after : Transit} {p : Partition} {m : Method} {rank bytes : Nat}
      {rest : List (Method × Nat)}
      (made : t.relocate m [t.fallback] t.fallback = (.ok bytes, after)) :
      Act (.emptying p ((m, rank) :: rest) t) (.emptying p rest (after.queued m rank p bytes))
  | halt {t : Transit} {p : Partition} {m : Method} {rank : Nat} {rest : List (Method × Nat)}
      {fault : Fault} (isFull : fault.isFull = true)
      (noRoom : t.relocate m [t.fallback] t.fallback = (.error fault, t)) :
      Act (.emptying p ((m, rank) :: rest) t) (.moving t.sorted)
  | emptied {t : Transit} {p : Partition} : Act (.emptying p [] t) (.moving t.sorted)
  | park {t after : Transit} {m : Method} {bytes : Nat} (blocked : t.Blocked)
      (whole : t.fragmentedTarget = none) (parkable : t.parkable? = some m)
      (made : (t.tried m).relocate m [t.fallback] t.fallback = (.ok bytes, after)) :
      Act (.moving t) (.moving (after.noteMoved m bytes))
  | leave {t : Transit} {m : Method} {fault : Fault} (blocked : t.Blocked)
      (whole : t.fragmentedTarget = none) (parkable : t.parkable? = some m)
      (isFull : fault.isFull = true)
      (noRoom : (t.tried m).relocate m [t.fallback] t.fallback = (.error fault, t.tried m)) :
      Act (.moving t) (.moving (t.tried m))
  | last {t : Transit} (blocked : t.Blocked) (whole : t.fragmentedTarget = none)
      (parked : t.parkable? = none) :
      Act (.moving t) (.settling t.pending { t with pending := [] })
  | pass {t : Transit} {move : Move} {rest : List Move}
      (absent : t.placements.find? move.method = none) :
      Act (.settling (move :: rest) t) (.settling rest t)
  | settle {t after : Transit} {move : Move} {rest : List Move} {placed : Placement} {bytes : Nat}
      (found : t.placements.find? move.method = some placed)
      (made : t.attempt move placed = (.ok bytes, after)) :
      Act (.settling (move :: rest) t) (.settling rest (after.noteMoved move.method bytes))
  | giveUp {t after : Transit} {move : Move} {rest : List Move} {placed : Placement}
      {fault : Fault} (found : t.placements.find? move.method = some placed)
      (isFull : fault.isFull = true) (noRoom : t.attempt move placed = (.error fault, after)) :
      Act (.settling (move :: rest) t) (.settling rest (after.giveUp move placed))
  | finish {t : Transit} (nothing : t.pending = []) : Act (.moving t) (.done t)
  | settled {t : Transit} : Act (.settling [] t) (.done t)

/-- A stage is reached from another one by acts. -/
abbrev Leads : Stage → Stage → Prop :=
  Relation.ReflTransGen Act

/-- The run fails at a stage: what it relocates next ends in a fault other than
a full partition. -/
inductive Stage.Fails (fault : Fault) : Stage → Prop
  | exact {t : Transit} {move : Move} (pending : move ∈ t.pending)
      (failed : (t.relocate move.method [move.target] move.target).1 = .error fault)
      (other : fault.isFull = false) : Fails fault (.moving t)
  | displace {t : Transit} {p : Partition} {m : Method} {rank : Nat} {rest : List (Method × Nat)}
      (failed : (t.relocate m [t.fallback] t.fallback).1 = .error fault)
      (other : fault.isFull = false) : Fails fault (.emptying p ((m, rank) :: rest) t)
  | park {t : Transit} {m : Method} (blocked : t.Blocked) (parkable : t.parkable? = some m)
      (failed : ((t.tried m).relocate m [t.fallback] t.fallback).1 = .error fault)
      (other : fault.isFull = false) : Fails fault (.moving t)
  | settle {t : Transit} {move : Move} {rest : List Move} {placed : Placement}
      (found : t.placements.find? move.method = some placed)
      (failed : (t.attempt move placed).1 = .error fault)
      (other : fault.isFull = false) : Fails fault (.settling (move :: rest) t)

/-- A loop that starts at a stage ends at another one, or fails on the way. -/
def Ends (start : Stage) (fault? : Option Fault) (goal : Stage) : Prop :=
  match fault? with
  | none => Leads start goal
  | some fault => ∃ stage, Leads start stage ∧ stage.Fails fault

theorem Ends.after {start middle goal : Stage} {fault? : Option Fault}
    (first : Leads start middle) (rest : Ends middle fault? goal) : Ends start fault? goal := by
  cases fault? with
  | none => exact first.trans rest
  | some fault =>
      rcases rest with ⟨stage, reached, fails⟩
      exact ⟨stage, first.trans reached, fails⟩

/-! ## Relocations as the loops make them -/

variable {t after : Transit} {m : Method} {p requested : Partition} {order : List Partition}
  {bytes : Nat} {fault : Fault} {code : Method → Option ByteArray}

/-- What is pending does not matter to a relocation. -/
theorem relocate_pending (t : Transit) (moves : List Move) (m : Method) (order : List Partition)
    (requested : Partition) :
    ({ t with pending := moves } : Transit).relocate m order requested =
      ((t.relocate m order requested).1,
        { (t.relocate m order requested).2 with pending := moves }) := by
  unfold relocate
  dsimp only
  split
  · rfl
  · split
    · rfl
    · split
      · rfl
      · split
        · rfl
        · split <;> rfl

/-- A heap that cannot release a blob is not said to be full. -/
theorem isFull_of_release {c : Cache} {b : Blob} (failed : c.release b = .error fault) :
    fault.isFull = false := by
  unfold Cache.release at failed
  split at failed
  · cases failed
    rfl
  · rename_i heap found
    unfold Heap.release at failed
    split at failed
    · cases failed
      rfl
    · cases failed

/-- A relocation to a partition that is full changes nothing. -/
theorem relocate_eq_self (held : t.Held code)
    (failed : t.relocate m [p] requested = (.error fault, after)) (isFull : fault.isFull = true) :
    after = t := by
  unfold relocate at failed
  split at failed
  · cases failed
    rfl
  · split at failed
    · cases failed
      rfl
    · split at failed
      · cases failed
        rfl
      · rename_i bytes _
        cases attempted : t.cache.allocateExact p m bytes with
        | mk answer cache =>
            simp only [findRoom, attempted, List.append_nil] at failed
            split at failed
            · cases failed
              rw [(held.stores.valid.kept_of_allocateExact attempted).2 isFull]
            · split at failed
              · rename_i released
                cases failed
                rw [isFull_of_release released] at isFull
                contradiction
              · cases failed

/-- What is relocated is held afterwards. -/
theorem Held.of_relocate (held : t.Held code) {result : Except Fault Nat}
    (relocated : t.relocate m order requested = (result, after)) : after.Held code := by
  have step := (relocate_held held m order requested).1
  rwa [relocated] at step

/-! ## The loops -/

/-- A sweep makes some of the moves one after another; other moves may wait
before them. -/
theorem sweep_ends (held : t.Held code) (kept moves : List Move) :
    Ends (.moving { t with pending := kept ++ moves }) (t.sweep moves).fault
      (.moving { (t.sweep moves).transit with pending := kept ++ (t.sweep moves).remaining }) := by
  induction moves generalizing t kept with
  | nil => exact Relation.ReflTransGen.refl
  | cons move rest inductionHypothesis =>
      have others (t : Transit) := relocate_pending t (kept ++ move :: rest) move.method
        [move.target] move.target
      rw [sweep]
      by_cases inPlace : t.partitionOf? move.method = some move.target
      · rw [if_pos inPlace]
        exact (inductionHypothesis held kept).after (.single (.skip rfl inPlace))
      · rw [if_neg inPlace]
        cases made : t.relocate move.method [move.target] move.target with
        | mk result after =>
            have unswept := others t
            rw [made] at unswept
            cases result with
            | ok bytes =>
                have heldAfter := held.of_relocate made
                have swept := inductionHypothesis (t := after.noteExact move bytes) heldAfter kept
                exact swept.after (.single (.arrive rfl inPlace unswept))
            | error fault =>
                dsimp only
                split
                · rename_i isFull
                  rw [relocate_eq_self held made isFull]
                  have waiting := inductionHypothesis held (kept ++ [move])
                  simpa using waiting
                · rename_i other
                  have isPending : move ∈ kept ++ move :: rest :=
                    List.mem_append_right _ List.mem_cons_self
                  exact ⟨_, .refl, .exact isPending (congrArg Prod.fst unswept)
                    (by simpa using other)⟩

/-- A sweep that moves nothing leaves everything as it was, and the moves that
remain are stuck. -/
theorem sweep_stuck (held : t.Held code) (moves : List Move)
    (noFault : (t.sweep moves).fault = none) (noProgress : (t.sweep moves).progress = false) :
    (t.sweep moves).transit = t ∧ ∀ move ∈ (t.sweep moves).remaining, t.Stuck move := by
  induction moves with
  | nil => exact ⟨rfl, by simp [sweep]⟩
  | cons move rest inductionHypothesis =>
      rw [sweep] at noFault noProgress ⊢
      by_cases inPlace : t.partitionOf? move.method = some move.target
      · rw [if_pos inPlace] at noFault noProgress ⊢
        exact inductionHypothesis noFault noProgress
      · rw [if_neg inPlace] at noFault noProgress ⊢
        cases made : t.relocate move.method [move.target] move.target with
        | mk result after =>
            rw [made] at noFault noProgress
            cases result with
            | ok bytes => cases noProgress
            | error fault =>
                dsimp only at noFault noProgress ⊢
                split at noFault
                · rename_i isFull
                  rw [if_pos isFull] at noProgress ⊢
                  cases relocate_eq_self held made isFull
                  rcases inductionHypothesis noFault noProgress with ⟨same, stuck⟩
                  refine ⟨same, ?_⟩
                  intro other member
                  rcases List.mem_cons.mp member with rfl | inRest
                  · exact ⟨inPlace, fault, isFull, made⟩
                  · exact stuck other inRest
                · cases noFault

theorem Stuck.pending {move : Move} (stuck : t.Stuck move) (moves : List Move) :
    ({ t with pending := moves } : Transit).Stuck move := by
  rcases stuck with ⟨elsewhere, fault, isFull, failed⟩
  refine ⟨elsewhere, fault, isFull, ?_⟩
  rw [relocate_pending, failed]

theorem sweeps_ends (held : t.Held code) (moves : List Move) :
    Ends (.moving { t with pending := moves }) (t.sweeps moves).fault
        (.moving { (t.sweeps moves).transit with pending := (t.sweeps moves).remaining }) ∧
      ((t.sweeps moves).fault = none →
        ∀ move ∈ (t.sweeps moves).remaining, (t.sweeps moves).transit.Stuck move) := by
  fun_induction sweeps t moves with
  | case1 t moves s again inductionHypothesis =>
      have swept := sweep_ends held [] moves
      rw [again.1] at swept
      rcases inductionHypothesis ((sweep_steps t moves).held held).1 with ⟨ends, stuck⟩
      exact ⟨ends.after swept, stuck⟩
  | case2 t moves s again =>
      refine ⟨sweep_ends held [] moves, ?_⟩
      intro noFault move member
      have noProgress : s.progress = false := by
        cases progress : s.progress with
        | false => rfl
        | true => exact absurd ⟨noFault, progress, List.ne_nil_of_mem member⟩ again
      rcases sweep_stuck held moves noFault noProgress with ⟨same, stuck⟩
      rw [same]
      exact stuck move member

/-- After the exact moves, what is still pending is stuck. -/
theorem makeExact_ends (held : t.Held code) :
    Ends (.moving t) t.makeExact.1 (.moving t.makeExact.2) ∧
      (t.makeExact.1 = none → t.makeExact.2.Blocked) := by
  rcases sweeps_ends held t.pending with ⟨ends, stuck⟩
  exact ⟨ends, fun noFault move member => (stuck noFault move member).pending _⟩

/-- The fault of a result. -/
def fault? {α : Type} : Except Fault α → Option Fault
  | .ok _ => none
  | .error fault => some fault

theorem displace_ends (held : t.Held code) (p : Partition) (residents : List (Method × Nat)) :
    Ends (.emptying p residents t) (fault? (t.displace p residents).1)
      (.moving (t.displace p residents).2.sorted) := by
  induction residents generalizing t with
  | nil => exact .single .emptied
  | cons resident rest inductionHypothesis =>
      rcases resident with ⟨m, rank⟩
      rw [displace]
      cases made : t.relocate m [t.fallback] t.fallback with
      | mk result after =>
          cases result with
          | ok bytes =>
              have heldAfter := held.of_relocate made
              have displaced := inductionHypothesis (t := after.queued m rank p bytes) heldAfter
              exact displaced.after (.single (.displace made))
          | error fault =>
              dsimp only
              split
              · rename_i isFull
                cases relocate_eq_self held made isFull
                exact .single (.halt isFull made)
              · rename_i other
                exact ⟨_, .refl, .displace (congrArg Prod.fst made) (by simpa using other)⟩

theorem compact_ends (held : t.Held code) {p : Partition} (blocked : t.Blocked)
    (fragmented : t.fragmentedTarget = some p) :
    Ends (.moving t) (fault? (t.compact p).1) (.moving (t.compact p).2) := by
  have displaced := (displace_ends (t := t.marked p) held p ((t.marked p).residents p)).after
    (.single (.empty blocked fragmented))
  cases left : (t.marked p).displace p ((t.marked p).residents p) with
  | mk result after =>
      have unfolded := left
      rw [marked] at unfolded
      rw [left] at displaced
      unfold compact
      dsimp only
      rw [unfolded]
      cases result with
      | ok _ => exact displaced
      | error fault => exact displaced

theorem park_ends (held : t.Held code) (blocked : t.Blocked) (whole : t.fragmentedTarget = none)
    (parkable : t.parkable? = some m) :
    Ends (.moving t) (fault? (t.park m).1) (.moving (t.park m).2) := by
  cases made : (t.tried m).relocate m [t.fallback] t.fallback with
  | mk result after =>
      have unfolded := made
      rw [tried, fallback] at unfolded
      unfold park fallback
      dsimp only
      rw [unfolded]
      cases result with
      | ok bytes => exact .single (.park blocked whole parkable made)
      | error fault =>
          dsimp only
          by_cases isFull : fault.isFull = true
          · rw [if_pos isFull]
            cases relocate_eq_self (t := t.tried m) held made isFull
            exact .single (.leave blocked whole parkable isFull made)
          · rw [if_neg isFull]
            exact ⟨_, .refl, .park blocked parkable (congrArg Prod.fst made)
              (by simpa using isFull)⟩

/-- The rest of a run is the remaining last moves. -/
theorem settle_ends (t : Transit) (moves : List Move) :
    Ends (.settling moves t) (fault? (t.settle moves).1) (.done (t.settle moves).2) := by
  induction moves generalizing t with
  | nil => exact .single .settled
  | cons move rest inductionHypothesis =>
      rw [settle_cons]
      cases found : t.placements.find? move.method with
      | none => exact (inductionHypothesis t).after (.single (.pass found))
      | some placed =>
          dsimp only
          cases made : t.attempt move placed with
          | mk result after =>
              cases result with
              | ok bytes =>
                  exact (inductionHypothesis _).after (.single (.settle found made))
              | error fault =>
                  dsimp only
                  split
                  · rename_i isFull
                    exact (inductionHypothesis _).after (.single (.giveUp found isFull made))
                  · rename_i other
                    exact ⟨_, .refl, .settle found (congrArg Prod.fst made) (by simpa using other)⟩

/-- What a round leads to, as the end of a loop. -/
def Round.Follows (start : Stage) : Round → Prop
  | .again after => Leads start (.moving after)
  | .finished after => Leads start (.done after)
  | .failed fault _ => ∃ stage, Leads start stage ∧ stage.Fails fault

theorem remedy_follows (held : t.Held code) (blocked : t.Blocked) :
    t.remedy.Follows (.moving t) := by
  unfold remedy
  split
  · rename_i nothing
    exact .single (.finish (List.isEmpty_iff.mp nothing))
  · split
    · rename_i p fragmented
      have ends := compact_ends held blocked fragmented
      split <;> rename_i equal <;> rw [equal] at ends <;> exact ends
    · rename_i whole
      split
      · rename_i m parkable
        have ends := park_ends held blocked whole parkable
        split <;> rename_i equal <;> rw [equal] at ends <;> exact ends
      · rename_i parked
        have ends := (settle_ends { t with pending := [] } t.pending).after
          (.single (.last blocked whole parked))
        split <;> rename_i equal <;> rw [equal] at ends <;> exact ends

theorem round_follows (held : t.Held code) : t.round.Follows (.moving t) := by
  rcases makeExact_ends held with ⟨ends, blocked⟩
  have heldAfter := (t.makeExact_steps.held held).1
  unfold round
  cases made : t.makeExact with
  | mk fault? after =>
      rw [made] at ends blocked heldAfter
      cases fault? with
      | none =>
          have follows := remedy_follows heldAfter (blocked rfl)
          dsimp only
          cases remedied : after.remedy with
          | again last =>
              rw [remedied] at follows
              exact ends.trans follows
          | finished last =>
              rw [remedied] at follows
              exact ends.trans follows
          | failed fault last =>
              rw [remedied] at follows
              rcases follows with ⟨stage, reached, fails⟩
              exact ⟨stage, ends.trans reached, fails⟩
      | some fault => exact ends

/-- A run leads to its end by acts, or it fails at a stage that it reached by
acts. -/
theorem run_ends (held : t.Held code) : Ends (.moving t) (fault? t.run.1) (.done t.run.2) := by
  fun_induction run t with
  | case1 t after again inductionHypothesis =>
      have follows := round_follows held
      have heldAfter := ((round_steps t).held held).1
      rw [again] at follows heldAfter
      exact (inductionHypothesis heldAfter).after follows
  | case2 t after finished =>
      have follows := round_follows held
      rw [finished] at follows
      exact follows
  | case3 t fault after failed =>
      have follows := round_follows held
      rw [failed] at follows
      exact follows

/-! ## What acts keep -/

/-- Each act is a relocation at most, besides bookkeeping. -/
theorem Act.steps {first next : Stage} (act : Act first next) :
    Steps first.transit next.transit := by
  cases act with
  | arrive _ _ made => exact (Steps.of_relocate made).note ⟨rfl, rfl, rfl, rfl, rfl, rfl⟩
  | displace made => exact (Steps.of_relocate made).note ⟨rfl, rfl, rfl, rfl, rfl, rfl⟩
  | @park t after m bytes _ _ _ made =>
      have noted : Steps t (t.tried m) := Steps.of_same ⟨rfl, rfl, rfl, rfl, rfl, rfl⟩
      exact (noted.trans (Steps.of_relocate made)).note ⟨rfl, rfl, rfl, rfl, rfl, rfl⟩
  | @settle t after move rest placed bytes found made =>
      have attempted := attempt_steps t move placed
      rw [made] at attempted
      exact attempted.note ⟨rfl, rfl, rfl, rfl, rfl, rfl⟩
  | @giveUp t after move rest placed fault found isFull noRoom =>
      have attempted := attempt_steps t move placed
      rw [noRoom] at attempted
      exact attempted.giveUp move placed
  | skip | empty | halt | emptied | leave | last | pass | finish | settled =>
      exact Steps.of_same ⟨rfl, rfl, rfl, rfl, rfl, rfl⟩

theorem Leads.steps {first last : Stage} (leads : Leads first last) :
    Steps first.transit last.transit := by
  induction leads with
  | refl => exact Steps.refl
  | tail _ act inductionHypothesis => exact inductionHypothesis.trans act.steps

end CodeLayout.Transit
