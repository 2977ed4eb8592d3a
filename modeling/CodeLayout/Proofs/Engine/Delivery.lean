import CodeLayout.Proofs.Engine.Consistency
import CodeLayout.Proofs.Placement.Planning
import CodeLayout.Proofs.Transit.Outcome

/-!
# Delivery of a plan

A pass that ends well leaves no method silently where it should not be.  Each
one is where the plan wants it, or it is reported and counted, or it is in an
unmanaged partition that its target may overflow into.  If nothing is reported,
all methods without a rank have left the managed partitions.
-/

namespace CodeLayout.Engine

variable {e : Engine} {code : Method → Option ByteArray}

/-- Where the plan for a ranking wants an installed method: where its move leads,
or where it is. -/
def destination? (e : Engine) (ranking : List Method) (m : Method) : Option Partition :=
  ((e.planFor ranking).targetOf m).or ((e.placements.find? m).map Placement.partition)

/-- The destination of a method; those that are not installed may be anywhere. -/
def destination (e : Engine) (ranking : List Method) (m : Method) : Partition :=
  (e.destination? ranking m).getD .nonProfiled

theorem destination?_of_mem (nodup : (e.placements.map Placement.method).Nodup)
    (ranking : List Method) {p : Placement} (member : p ∈ e.placements) :
    e.destination? ranking p.method = some ((e.planFor ranking).destination p) := by
  rw [destination?, Placements.find?_of_mem nodup member, Plan.destination]
  cases (e.planFor ranking).targetOf p.method <;> rfl

theorem destination_of_mem (nodup : (e.placements.map Placement.method).Nodup)
    (ranking : List Method) {p : Placement} (member : p ∈ e.placements) :
    e.destination ranking p.method = (e.planFor ranking).destination p := by
  rw [destination, destination?_of_mem nodup ranking member, Option.getD_some]

theorem destination_of_move (nodup : (e.placements.map Placement.method).Nodup)
    (ranking : List Method) {move : Move} (member : move ∈ (e.planFor ranking).moves) :
    e.destination ranking move.method = move.target := by
  have planned := Plan.targetOf_of_mem (Plan.moves_nodup nodup _ ranking) member
  rw [destination, destination?, planFor, planned]
  rfl

/-- At the beginning of a pass every method is in its destination or has a
move. -/
theorem Consistent.owed (consistent : e.Consistent code) (ranking : List Method) (pass : Nat) :
    Transit.Owed (e.destination ranking)
      ((e.ranked ranking).opening pass (e.planFor ranking).moves) (e.planFor ranking).moves := by
  have nodup := consistent.held.methods
  constructor
  · intro move member
    exact (destination_of_move nodup ranking member).symm
  · intro p member
    rcases List.mem_map.mp member with ⟨q, isPlacement, rfl⟩
    cases planned : (e.planFor ranking).targetOf q.method with
    | none =>
        apply Or.inl
        have stays := destination_of_mem nodup ranking isPlacement
        rw [Plan.destination, planned] at stays
        exact stays.symm
    | some target => exact Or.inr (Plan.exists_move_of_targetOf planned)

/-- Reordering delivers the plan, and counts what it reports. -/
theorem Consistent.reorder_accounted (consistent : e.Consistent code) (ranking : List Method)
    {report done : PassReport} (unused : report.unplaced = 0)
    (endsWell : (e.reorder ranking report).1 = .ok done) :
    ∃ logged, (e.reorder ranking report).2.events = e.events ++ logged ∧
      done.unplaced = logged.countP Event.isPlacementFailure ∧
      ∀ p ∈ (e.reorder ranking report).2.placements,
        Transit.AccountedFor (e.destination ranking) logged p := by
  obtain ⟨quiet, _⟩ :=
    Event.countP_quiet (shortage_quiet e.cache.segmentation (e.planFor ranking))
  have owed := consistent.owed ranking report.pass
  rw [reorder_eq] at endsWell ⊢
  split
  · rename_i nothing
    rw [if_pos nothing] at endsWell
    cases endsWell
    refine ⟨shortage e.cache.segmentation (e.planFor ranking), rfl, ?_, ?_⟩
    · rw [quiet]
      exact unused
    · intro p member
      rcases owed.placed p member with inPlace | ⟨move, isMove, _⟩
      · exact Or.inl inPlace
      · rw [List.isEmpty_iff.mp nothing] at isMove
        contradiction
  · rename_i some
    rw [if_neg some] at endsWell
    have held : ((e.ranked ranking).opening report.pass (e.planFor ranking).moves).Held code :=
      (consistent.ranked ranking).held
    have accounted := Transit.run_accounted held owed
    rcases (Transit.run_steps _).log held with ⟨more, logged, counted⟩
    cases ran : ((e.ranked ranking).opening report.pass (e.planFor ranking).moves).run with
    | mk result t =>
        rw [ran] at endsWell accounted logged counted
        cases result with
        | error fault => contradiction
        | ok done =>
            cases endsWell
            change t.events = [] ++ more at logged
            change t.unplaced = 0 + _ at counted
            refine ⟨shortage e.cache.segmentation (e.planFor ranking) ++ t.events, ?_, ?_, ?_⟩
            · rw [← List.append_assoc]
              rfl
            · rw [List.countP_append, quiet, logged, List.nil_append]
              exact counted
            · intro p member
              exact (accounted rfl p member).mono (List.subset_append_right _ _)

/-- Reordering keeps what is installed. -/
theorem Consistent.reorder_methods (consistent : e.Consistent code) (ranking : List Method)
    (report : PassReport) :
    (e.reorder ranking report).2.placements.map Placement.method =
      e.placements.map Placement.method := by
  have ranked : (e.ranked ranking).placements.map Placement.method =
      e.placements.map Placement.method := by
    rw [Engine.ranked, applyRanks, List.map_map]
    rfl
  rw [reorder_eq]
  split
  · exact ranked
  · have held : ((e.ranked ranking).opening report.pass (e.planFor ranking).moves).Held code :=
      (consistent.ranked ranking).held
    rcases (Transit.run_steps _).held held with ⟨_, frame⟩
    have same := congrArg (List.map Prod.fst) frame.placed
    rw [List.map_map, List.map_map] at same
    exact Eq.trans same ranked

/-- A pass that ends well delivers its plan to the methods that were installed
before it. -/
theorem Consistent.runPass_accounted (consistent : e.Consistent code)
    (moving : e.recording = false) (files : FileTree) (ranking : List Method) (elapsed : Nat)
    {report : PassReport} (endsWell : (e.runPass files ranking elapsed).result = .ok report) :
    ∃ logged, (e.runPass files ranking elapsed).engine.events = e.events ++ logged ∧
      report.unplaced = logged.countP Event.isPlacementFailure ∧
      (e.runPass files ranking elapsed).engine.placements.map Placement.method =
        e.placements.map Placement.method ∧
      ∀ p ∈ (e.runPass files ranking elapsed).engine.placements,
        Transit.AccountedFor (e.destination ranking) logged p := by
  rcases (begun_same e ranking).consistent consistent with ⟨begun, _⟩
  rcases runPass_moving moving files ranking elapsed with ⟨same, result⟩
  rw [endsWell] at result
  cases reordered : ((e.begun ranking).reorder ranking (PassReport.start (e.passes + 1))).1 with
  | error fault =>
      rw [reordered] at result
      contradiction
  | ok done =>
      rw [reordered] at result
      cases result
      obtain ⟨logged, eventsBefore, counted, accounted⟩ :=
        begun.reorder_accounted ranking rfl reordered
      obtain ⟨all, events, kept, sameCount, _⟩ :=
        runPass_log moving files ranking elapsed eventsBefore
      refine ⟨all, events, counted.trans sameCount.symm, ?_, ?_⟩
      · rw [same.placements]
        exact begun.reorder_methods ranking _
      · intro p member
        rw [same.placements] at member
        exact (accounted p member).mono kept

/-- After a pass that ends well, every method is where the plan wants it, or the
pass has reported that it found no room, or it is in an unmanaged partition
that its destination may overflow into; the reports are counted.  If there are
none, the managed partitions hold ranked methods only. -/
theorem delivered_runPass (reached : Reached e) (moving : e.recording = false)
    (files : FileTree) (ranking : List Method) (elapsed : Nat) {report : PassReport}
    (endsWell : (e.runPass files ranking elapsed).result = .ok report) :
    ∃ logged, (e.runPass files ranking elapsed).engine.events = e.events ++ logged ∧
      report.unplaced = logged.countP Event.isPlacementFailure ∧
      (e.runPass files ranking elapsed).engine.placements.map Placement.method =
        e.placements.map Placement.method ∧
      (∀ p ∈ (e.runPass files ranking elapsed).engine.placements,
        ∃ target, e.destination? ranking p.method = some target ∧
          (p.partition = target ∨
            .placementFailed p.method.display target p.blob.padded ∈ logged ∨
            p.partition.isManaged = false ∧ target.mayOverflowInto p.partition = true)) ∧
      (report.unplaced = 0 → ∀ p ∈ (e.runPass files ranking elapsed).engine.placements,
        p.method ∉ ranking → p.partition.isManaged = false) := by
  rcases reached.consistent with ⟨code, consistent⟩
  have nodup := consistent.held.methods
  obtain ⟨logged, events, counted, methods, delivered⟩ :=
    consistent.runPass_accounted moving files ranking elapsed endsWell
  have earlier {p : Placement}
      (member : p ∈ (e.runPass files ranking elapsed).engine.placements) :
      ∃ q ∈ e.placements, q.method = p.method := by
    have isPlaced := List.mem_map_of_mem (f := Placement.method) member
    rw [methods] at isPlaced
    exact List.mem_map.mp isPlaced
  refine ⟨logged, events, counted, methods, ?_, ?_⟩
  · intro p member
    rcases earlier member with ⟨q, isPlacement, sameMethod⟩
    have known := destination?_of_mem nodup ranking isPlacement
    have accounted := delivered p member
    rw [sameMethod] at known
    rw [Transit.AccountedFor, destination, known, Option.getD_some] at accounted
    exact ⟨_, known, accounted⟩
  · intro nothing p member unlisted
    rcases earlier member with ⟨q, isPlacement, sameMethod⟩
    have unmanaged := Plan.destination_of_unranked (s := e.cache.segmentation) nodup isPlacement
      (sameMethod ▸ unlisted)
    have wanted := destination_of_mem nodup ranking isPlacement
    rw [sameMethod] at wanted
    rcases delivered p member with inPlace | reported | ⟨outside, _⟩
    · rw [inPlace, wanted]
      exact unmanaged
    · rw [counted, List.countP_eq_zero] at nothing
      have notReported := nothing _ reported
      simp [Event.isPlacementFailure] at notReported
    · exact outside

/-- The exchange delivers its plan: the method without a rank has left the hot
partition. -/
theorem delivered_small :
    Reached smallEngine ∧ smallEngine.recording = false ∧
      ∃ report, (smallEngine.runPass FileTree.empty [secondMethod] 0).result = .ok report ∧
        report.unplaced = 0 ∧
        ∀ p ∈ (smallEngine.runPass FileTree.empty [secondMethod] 0).engine.placements,
          p.method ∉ [secondMethod] → p.partition.isManaged = false := by
  rcases perform_exchange with ⟨_, report, endsWell, nothing⟩
  obtain ⟨_, _, _, _, _, unranked⟩ :=
    delivered_runPass reached_small rfl FileTree.empty [secondMethod] 0 endsWell
  exact ⟨reached_small, rfl, report, endsWell, nothing, unranked nothing⟩

end CodeLayout.Engine
