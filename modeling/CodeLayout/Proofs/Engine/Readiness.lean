import CodeLayout.Proofs.Engine.Delivery
import CodeLayout.Proofs.Placement.Assignment
import CodeLayout.Proofs.Transit.Errands

/-!
# Readiness for a pass

The cache of an engine that is reached has the heaps that reordering relies on,
and they are tidy.  A pass of a moving engine therefore ends well.  Either its
plan moves nothing, or the managed partitions exist and all moves are made by
the acts of a run.
-/

namespace CodeLayout.Engine

variable {e : Engine} {code : Method → Option ByteArray}

/-! ## Reached engines -/

theorem Fresh.ready (fresh : Fresh e) : e.cache.Usable ∧ e.cache.Tidy := by
  induction fresh with
  | start recording segmented reserved =>
      exact ⟨Cache.usable_of_reserve segmented reserved, (Cache.tidy_of_reserve reserved).1⟩
  | dumpTo _ _ inductionHypothesis => exact inductionHypothesis
  | withSeed _ _ inductionHypothesis => exact inductionHypothesis

theorem unload_evolves (e : Engine) (m : Method) : e.cache.Evolves (e.unload m).2.cache := by
  unfold unload
  split
  · exact .refl
  · dsimp only
    split
    · exact .refl
    · rename_i released
      exact Cache.Evolves.refl.release released

namespace Consistent

theorem install_evolves (consistent : e.Consistent code) (m : Method) {bytes : ByteArray}
    (requested : Partition) (short : bytes.size ≤ Size.largest) :
    e.cache.Evolves (e.install m bytes requested).2.cache := by
  have valid := consistent.held.stores.valid
  have evolves := (valid.searched_allocate (e.preferred m requested) m bytes).evolves
    (Size.short_of_le_largest short)
  have made := installs e m bytes requested
  generalize e.install m bytes requested = result at made ⊢
  cases made with
  | refused failed =>
      rw [failed] at evolves
      exact evolves
  | added allocated _ =>
      rw [allocated] at evolves
      exact evolves
  | replaced allocated _ released =>
      rw [allocated] at evolves
      exact evolves.release released
  | stuck allocated _ _ =>
      rw [allocated] at evolves
      exact evolves

theorem reorder_evolves (consistent : e.Consistent code) (ranking : List Method)
    (report : PassReport) : e.cache.Evolves (e.reorder ranking report).2.cache := by
  rw [reorder_eq]
  split
  · exact .refl
  · have held : ((e.ranked ranking).opening report.pass (e.planFor ranking).moves).Held code :=
      (consistent.ranked ranking).held
    exact (Transit.run_steps _).evolves held

theorem runPass_evolves (consistent : e.Consistent code) (files : FileTree)
    (ranking : List Method) (elapsed : Nat) :
    e.cache.Evolves (e.runPass files ranking elapsed).engine.cache := by
  cases mode : e.recording with
  | true =>
      rw [(runPass_recording mode files ranking elapsed).cache]
      exact .refl
  | false =>
      rcases (begun_same e ranking).consistent consistent with ⟨begun, _⟩
      rw [(runPass_moving mode files ranking elapsed).1.cache]
      exact begun.reorder_evolves ranking _

theorem perform_evolves (consistent : e.Consistent code) (call : Call) :
    e.cache.Evolves (e.perform call).cache := by
  cases call with
  | install m bytes requested short => exact consistent.install_evolves m requested short
  | unload m => exact unload_evolves e m
  | runPass files ranking elapsed => exact consistent.runPass_evolves files ranking elapsed
  | runWith files ranking elapsed =>
      rw [Engine.perform, Engine.runWith]
      split
      · split
        · exact consistent.runPass_evolves files ranking elapsed
        · have marked : Consistent { e with seedUsed := true } code :=
            ⟨consistent.held, consistent.numbered⟩
          exact marked.runPass_evolves files _ elapsed
      · exact consistent.runPass_evolves files ranking elapsed

theorem performAll_evolves (consistent : e.Consistent code) (calls : List Call) :
    e.cache.Evolves (e.performAll calls).cache := by
  induction calls generalizing e code with
  | nil => exact .refl
  | cons call rest inductionHypothesis =>
      exact (consistent.perform_evolves call).trans
        (inductionHypothesis (consistent.perform call).1)

end Consistent

/-- The heaps of a reached engine are those that reordering relies on. -/
theorem Reached.ready (reached : Reached e) : e.cache.Usable ∧ e.cache.Tidy := by
  rcases reached with ⟨start, calls, fresh, rfl⟩
  rcases fresh.ready with ⟨usable, tidy⟩
  have consistent := fresh.consistent fun _ => none
  rcases consistent.performAll calls with ⟨_, frame⟩
  have evolved := (consistent.performAll_evolves calls).tidy consistent.held.stores.valid tidy
  exact ⟨usable.of_sites frame.segmentation frame.sites, evolved.2⟩

/-! ## The moves of a pass -/

/-- A method moves into a managed partition that is active, or out of one. -/
theorem Consistent.move_cases (consistent : e.Consistent code) {ranking : List Method}
    {move : Move} (member : move ∈ (e.planFor ranking).moves) :
    ∃ p ∈ e.placements, p.method = move.method ∧ p.partition = move.source ∧
      move.target ≠ move.source ∧
      (move.target.isManaged = true ∧ e.cache.segmentation.isActive move.target = true ∨
        move.source.isManaged = true ∧ move.target = e.cache.segmentation.fallback) := by
  have held := consistent.held
  rcases Plan.exists_built e.cache.segmentation e.placements ranking with ⟨assigned, built⟩
  rcases Plan.mem_moves_ofRanking built member with ⟨p, isPlacement, elsewhere, rank, rfl⟩
  refine ⟨p, isPlacement, rfl, rfl, elsewhere, ?_⟩
  rcases Plan.wanted_cases built held.methods isPlacement with ⟨managed, fits⟩ | outside
  · refine Or.inl ⟨managed, ?_⟩
    have positive := held.stores.valid.padded_pos (held.live isPlacement)
    unfold Plan.budget at fits
    split at fits
    · rename_i active
      exact active
    · omega
  · simp only [outside] at elsewhere ⊢
    unfold Plan.outside at elsewhere ⊢
    split at elsewhere
    · rename_i managed
      rw [if_pos managed]
      exact Or.inr ⟨managed, rfl⟩
    · contradiction

/-- Without the managed partitions there is nothing to move. -/
theorem Consistent.isActive_of_moves (consistent : e.Consistent code) (usable : e.cache.Usable)
    {ranking : List Method} (some : (e.planFor ranking).moves ≠ []) :
    e.cache.segmentation.isActive .hot = true := by
  rcases List.exists_mem_of_ne_nil _ some with ⟨move, member⟩
  rcases consistent.move_cases member with ⟨p, isPlacement, _, source, _, into | outOf⟩
  · rcases into with ⟨managed, active⟩
    revert managed active
    cases move.target <;> simp [Partition.isManaged, usable.together]
  · cases active : e.cache.segmentation.isActive .hot with
    | true => rfl
    | false =>
        have live := consistent.held.live isPlacement
        have unmanaged := usable.isManaged_eq_false consistent.held.stores.valid active live
        rw [← source] at outOf
        exact absurd outOf.1 (by rw [Placement.partition, unmanaged]; decide)

/-- At the beginning of a pass the errands are the moves of its plan. -/
theorem Consistent.orderly (consistent : e.Consistent code) (ranking : List Method) (pass : Nat) :
    Transit.Orderly (e.destination ranking)
      (.moving ((e.ranked ranking).opening pass (e.planFor ranking).moves)) := by
  have nodup := consistent.held.methods
  have errand (m : Method)
      (member : m ∈ (Transit.Stage.moving
        ((e.ranked ranking).opening pass (e.planFor ranking).moves)).errands) :
      ∃ move ∈ (e.planFor ranking).moves, move.method = m := by
    rcases List.mem_append.mp member with waits | leaves
    · exact List.mem_map.mp waits
    · contradiction
  constructor
  · intro move member
    exact (destination_of_move nodup ranking member).symm
  · change ((e.planFor ranking).moves.map Move.method ++ []).Nodup
    rw [List.append_nil]
    exact Plan.moves_nodup nodup _ ranking
  · intro m member
    rcases errand m member with ⟨move, isMove, rfl⟩
    rcases consistent.move_cases isMove with ⟨p, isPlacement, sameMethod, _⟩
    exact ⟨_, List.mem_map_of_mem isPlacement, sameMethod⟩
  · intro m member
    rcases errand m member with ⟨move, isMove, rfl⟩
    rw [destination_of_move nodup ranking isMove]
    rcases consistent.move_cases isMove with ⟨_, _, _, _, _, ⟨managed, _⟩ | ⟨_, fallback⟩⟩
    · exact Or.inl managed
    · exact Or.inr fallback
  · intro p residents t equal
    contradiction

/-! ## The end of a pass -/

/-- The state of the moves of a pass before the first one is made. -/
def opened (e : Engine) (ranking : List Method) : Transit :=
  ((e.begun ranking).ranked ranking).opening (e.passes + 1) (e.planFor ranking).moves

theorem loads_opened (e : Engine) (ranking : List Method) :
    (e.opened ranking).placements.loads = e.placements.loads :=
  List.map_map

/-- The code of a method is where it was before the ranks were noted. -/
theorem blob_find?_opened (e : Engine) (ranking : List Method) (m : Method) :
    ((e.opened ranking).placements.find? m).map Placement.blob =
      (e.placements.find? m).map Placement.blob := by
  change ((applyRanks _ _).find? m).map Placement.blob = _
  rw [applyRanks, Placements.find?, List.find?_map, Option.map_map]
  rfl

theorem reorder_of_still {ranking : List Method} (nothing : (e.planFor ranking).moves = [])
    (report : PassReport) :
    e.reorder ranking report =
      (.ok { report with ranked := (e.planFor ranking).ranks.length },
        { e.ranked ranking with forwarding := (Forwarding.empty report.pass).close }) := by
  rw [reorder_eq, if_pos (List.isEmpty_iff.mpr nothing)]

theorem reorder_of_moves {ranking : List Method} (some : (e.planFor ranking).moves ≠ [])
    (report : PassReport)
    (endsWell : ((e.ranked ranking).opening report.pass (e.planFor ranking).moves).run.1 = .ok ()) :
    e.reorder ranking report =
      (.ok (summary report (e.planFor ranking)
        ((e.ranked ranking).opening report.pass (e.planFor ranking).moves).run.2),
        (e.ranked ranking).moved
          ((e.ranked ranking).opening report.pass (e.planFor ranking).moves).run.2) := by
  rw [reorder_eq, if_neg (fun isEmpty => some (List.isEmpty_iff.mp isEmpty))]
  dsimp only
  rw [endsWell]
  rfl

/-- A pass ends well and leaves all code where it is; it only notes the ranks. -/
structure Undisturbed (e : Engine) (ranking : List Method) (outcome : Outcome PassReport) :
    Prop where
  result : ∃ report, outcome.result = .ok report ∧ report.relocated = 0 ∧ report.evicted = 0 ∧
    report.bytesMoved = 0 ∧ report.unplaced = 0
  cache : outcome.engine.cache = e.cache
  placements : outcome.engine.placements = applyRanks (e.planFor ranking) e.placements
  safepoint : outcome.engine.safepoint = e.safepoint

theorem undisturbed_of_still (moving : e.recording = false) {ranking : List Method}
    (nothing : (e.planFor ranking).moves = []) (files : FileTree) (elapsed : Nat) :
    Undisturbed e ranking (e.runPass files ranking elapsed) := by
  have still := reorder_of_still (e := e.begun ranking) nothing (PassReport.start (e.passes + 1))
  rw [runPass_eq moving, still]
  exact ⟨⟨_, rfl, rfl, rfl, rfl, rfl⟩, rfl, rfl, rfl⟩

/-- What a pass logs before its moves, besides what they log. -/
theorem opening_quiet (e : Engine) (ranking : List Method) :
    ∃ before, ((e.begun ranking).ranked ranking).events = e.events ++ before ∧
      ∀ event ∈ before, event.isQuiet = true := by
  refine ⟨.passStart (e.passes + 1) ranking.length ::
    shortage e.cache.segmentation (e.planFor ranking), ?_, ?_⟩
  · change e.events ++ [_] ++ _ = _
    rw [List.append_assoc]
    rfl
  · intro event member
    rcases List.mem_cons.mp member with rfl | warned
    · rfl
    · exact shortage_quiet _ _ event warned

/-- What a pass that ends well has done.  Its moves lead to a state `t`; if there are
none, this is the state that they would be begun in. -/
structure Completes (e : Engine) (ranking : List Method) (elapsed : Nat)
    (outcome : Outcome PassReport) (report : PassReport) (t : Transit) : Prop where
  result : outcome.result = .ok report
  leads : Transit.Leads (.moving (e.opened ranking)) (.done t)
  cache : outcome.engine.cache = t.cache
  placements : outcome.engine.placements = t.placements
  forwarding : outcome.engine.forwarding = t.forwarding.close
  safepoint : outcome.engine.safepoint =
    if (e.planFor ranking).moves = [] then e.safepoint else e.safepoint.synchronize.release
  events : ∃ before behind, outcome.engine.events = e.events ++ before ++ t.events ++ behind ∧
    (∀ event ∈ before, event.isQuiet = true) ∧ ∀ event ∈ behind, event.isQuiet = true
  isReport : report =
    { summary (PassReport.start (e.passes + 1)) (e.planFor ranking) t with elapsed }

/-- A moving pass ends well. -/
theorem Consistent.completes (consistent : e.Consistent code) (usable : e.cache.Usable)
    (moving : e.recording = false) (files : FileTree) (ranking : List Method) (elapsed : Nat) :
    ∃ report t, Completes e ranking elapsed (e.runPass files ranking elapsed) report t := by
  rcases (begun_same e ranking).consistent consistent with ⟨begun, _⟩
  rcases opening_quiet e ranking with ⟨before, opening, quietBefore⟩
  rcases runPass_ending moving files ranking elapsed with ⟨behind, quietBehind, events⟩
  rcases runPass_moving moving files ranking elapsed with ⟨same, result⟩
  by_cases nothing : (e.planFor ranking).moves = []
  · have still := reorder_of_still (e := e.begun ranking) nothing (PassReport.start (e.passes + 1))
    rw [still] at same result events
    refine ⟨_, e.opened ranking, result, .single (.finish nothing), same.cache, same.placements,
      same.forwarding, ?_, ⟨before, behind, ?_, quietBefore, quietBehind⟩, rfl⟩
    · rw [runPass_eq moving, still, if_pos nothing]
      rfl
    · rw [events, ← opening]
      change _ = _ ++ [] ++ _
      rw [List.append_nil]
  · have active := consistent.isActive_of_moves usable nothing
    have held : (e.opened ranking).Held code := (begun.ranked ranking).held
    obtain ⟨endsWell, leads⟩ := Transit.run_succeeds held rfl usable active
      (begun.orderly ranking (e.passes + 1)) (begun.owed ranking (e.passes + 1))
    have made := reorder_of_moves (e := e.begun ranking) nothing (PassReport.start (e.passes + 1))
      endsWell
    rw [made] at same result events
    refine ⟨_, _, result, leads, same.cache, same.placements, same.forwarding, ?_,
      ⟨before, behind, ?_, quietBefore, quietBehind⟩, rfl⟩
    · rw [runPass_eq moving, made, if_neg nothing]
      exact congrArg Safepoint.release (leads.steps.held held).2.safepoint
    · rw [events, ← opening]
      rfl

end CodeLayout.Engine
