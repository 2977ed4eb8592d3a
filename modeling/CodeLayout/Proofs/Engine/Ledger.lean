import CodeLayout.Proofs.Engine.Realisation
import CodeLayout.Proofs.Transit.Filling
import CodeLayout.Proofs.Transit.Ledger

/-!
# The ledger of a pass

The moves of a plan come to an end in every engine that is reached.  On the way no
partition is compacted twice, no method is parked twice and none waits twice, and
every move that is planned or queued leaves the list of pending moves once.
-/

namespace CodeLayout.Engine

open Transit (Act Deed Leads Stage Course)

variable {e : Engine} {code : Method → Option ByteArray}

/-- The run for a ranking ends, and its deeds account for every move. -/
structure Balances (e : Engine) (ranking : List Method) : Prop where
  ends : (e.opened ranking).run.1 = .ok ()
  /-- There is no endless sequence of acts. -/
  finite : ∀ stages : Nat → Stage, stages 0 = .moving (e.opened ranking) →
    ¬ ∀ n, Act (stages n) (stages (n + 1))
  /-- All that is entered leaves. -/
  settled : ∃ deeds, Course (.moving (e.opened ranking)) deeds (.done (e.opened ranking).run.2) ∧
    ((e.planFor ranking).moves ++ deeds.filterMap Deed.entered?).Perm (deeds.filterMap Deed.left?)
  /-- A course of deeds leads to exactly the stages that are reached by acts. -/
  charted : ∀ stage, Leads (.moving (e.opened ranking)) stage ↔
    ∃ deeds, Course (.moving (e.opened ranking)) deeds stage
  compacted : ∀ deeds stage, Course (.moving (e.opened ranking)) deeds stage →
    (deeds.filterMap Deed.compacted?).Nodup
  parked : ∀ deeds stage, Course (.moving (e.opened ranking)) deeds stage →
    (deeds.filterMap Deed.parked?).Nodup
  waiting : ∀ deeds stage, Course (.moving (e.opened ranking)) deeds stage →
    (stage.waiting.map Move.method).Nodup
  /-- At every stage, what has been entered has left once or waits once. -/
  balance : ∀ deeds stage, Course (.moving (e.opened ranking)) deeds stage →
    ((e.planFor ranking).moves ++ deeds.filterMap Deed.entered?).Perm
      (deeds.filterMap Deed.left? ++ stage.waiting)

/-- At the beginning no method of a move is at its target. -/
theorem Consistent.governed (consistent : e.Consistent code) (ranking : List Method) :
    Transit.Governed (e.destination ranking) code (.moving (e.opened ranking)) := by
  rcases (begun_same e ranking).consistent consistent with ⟨begun, _⟩
  constructor
  · exact (begun.ranked ranking).held
  · exact begun.orderly ranking (e.passes + 1)
  · exact begun.owed ranking (e.passes + 1)
  · intro move member inPlace
    rcases consistent.move_cases member with ⟨q, isPlacement, sameMethod, source, elsewhere, _⟩
    have found := blob_find?_opened e ranking q.method
    rw [consistent.held.find?_of_mem isPlacement, sameMethod] at found
    rcases Option.map_eq_some_iff.mp found with ⟨placed, isPlaced, sameBlob⟩
    change ((e.opened ranking).placements.find? move.method).map Placement.partition = _ at inPlace
    rw [isPlaced, Option.map_some, Option.some.injEq, Placement.partition, sameBlob] at inPlace
    exact elsewhere (inPlace.symm.trans source)

/-- The run for a ranking ends well, and acts lead to its end. -/
theorem Consistent.run_ends (consistent : e.Consistent code) (usable : e.cache.Usable)
    (ranking : List Method) :
    (e.opened ranking).run.1 = .ok () ∧
      Leads (.moving (e.opened ranking)) (.done (e.opened ranking).run.2) := by
  have governed := consistent.governed ranking
  by_cases nothing : (e.planFor ranking).moves = []
  · have pending : (e.opened ranking).pending = [] := nothing
    have swept : (e.opened ranking).sweep (e.opened ranking).pending =
        ⟨e.opened ranking, [], false, none⟩ := by
      rw [pending]
      rfl
    have same : { e.opened ranking with pending := [] } = e.opened ranking := by
      rw [← pending]
    rw [Transit.run_of_sweep swept, same]
    exact ⟨rfl, .single (.finish pending)⟩
  · exact Transit.run_succeeds governed.held rfl usable
      (consistent.isActive_of_moves usable nothing) governed.orderly governed.owes

/-- The moves of a plan come to an end, and each one leaves the list once. -/
theorem balances_of_reached (reached : Reached e) (ranking : List Method) :
    Balances e ranking := by
  rcases reached.consistent with ⟨code, consistent⟩
  rcases reached.ready with ⟨usable, _⟩
  have governed := consistent.governed ranking
  rcases consistent.run_ends usable ranking with ⟨ends, leads⟩
  constructor
  · exact ends
  · exact fun stages _ => Transit.not_endless stages
  · rcases leads.exists_course governed with ⟨deeds, course⟩
    have balance := course.waiting
    rw [Stage.waiting, Stage.waiting, List.append_nil] at balance
    exact ⟨deeds, course, balance⟩
  · intro stage
    constructor
    · exact fun leads => leads.exists_course governed
    · rintro ⟨_, course⟩
      exact course.leads
  · exact fun _ _ course => (course.once rfl rfl).1
  · exact fun _ _ course => (course.once rfl rfl).2
  · exact fun _ _ course => (course.governed governed).orderly.waiting_nodup
  · exact fun _ _ course => course.waiting

/-- The moves of the tangled machine come to an end, though one of them is never made
exactly. -/
theorem balances_tangled :
    Reached tangledEngine ∧ (tangledEngine.planFor tangledRanking).moves = tangledMoves ∧
      Balances tangledEngine tangledRanking := by
  refine ⟨reached_tangled, ?_, balances_of_reached reached_tangled tangledRanking⟩
  rw [stocked_tangled.planFor_eq]
  decide +kernel

end CodeLayout.Engine
