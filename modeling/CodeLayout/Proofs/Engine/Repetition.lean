import CodeLayout.Proofs.Engine.Outline
import CodeLayout.Proofs.Transit.Whereabouts

/-!
# Repeated passes

A pass that is repeated with the same ranking makes the same assignments, for
they depend on the lengths of the methods only.  It leaves everything as it is
exactly if the first pass has brought every method to its destination.
-/

namespace CodeLayout

namespace Plan

variable {s : Segmentation} {p q : Partition}

/-- Where an assignment does not lead elsewhere, it has led from any partition that
a method leaves for the fallback partition only. -/
theorem aim_eq_of_stays {assignment : Option Partition} (stays : aim s assignment p = p)
    (from? : p = q ∨ s.Routable (aim s assignment q) ∧ (p = aim s assignment q ∨ p = s.fallback)) :
    p = aim s assignment q := by
  rcases from? with rfl | ⟨routable, there | fallback⟩
  · exact stays.symm
  · exact there
  · cases assignment with
    | some _ => exact stays.symm
    | none =>
        rcases routable with managed | isFallback
        · have unmanaged := isManaged_outside s q
          rw [aim, Option.getD_none, unmanaged] at managed
          contradiction
        · rw [fallback, isFallback]

end Plan

namespace Engine

variable {e : Engine} {code : Method → Option ByteArray}

/-- A pass ends well and leaves everything as it is. -/
structure Idle (e : Engine) (outcome : Outcome PassReport) : Prop where
  result : ∃ report, outcome.result = .ok report ∧ report.relocated = 0 ∧ report.evicted = 0 ∧
    report.bytesMoved = 0 ∧ report.unplaced = 0
  cache : outcome.engine.cache = e.cache
  placements : outcome.engine.placements = e.placements
  safepoint : outcome.engine.safepoint = e.safepoint

/-- A pass that has nothing to move only notes the ranks. -/
theorem idle_of_still (moving : e.recording = false) {ranking : List Method}
    (nothing : (e.planFor ranking).moves = [])
    (ranks : applyRanks (e.planFor ranking) e.placements = e.placements) (files : FileTree)
    (elapsed : Nat) : Idle e (e.runPass files ranking elapsed) := by
  rcases undisturbed_of_still moving nothing files elapsed with
    ⟨result, cache, placements, safepoint⟩
  exact ⟨result, cache, placements.trans ranks, safepoint⟩

theorem Reached.perform (reached : Reached e) (call : Call) : Reached (e.perform call) := by
  rcases reached with ⟨start, calls, fresh, rfl⟩
  refine ⟨start, calls ++ [call], fresh, ?_⟩
  clear fresh
  induction calls generalizing start with
  | nil => rfl
  | cons first rest inductionHypothesis => exact inductionHypothesis (start.perform first)

/-- What a pass leaves for the next one: the methods with their ranks and sizes,
each where it was or where its errand led. -/
structure Leaves (e after : Engine) (ranking : List Method) : Prop where
  segmentation : after.cache.segmentation = e.cache.segmentation
  lasting : after.placements.map Placement.lasting =
    (applyRanks (e.planFor ranking) e.placements).map Placement.lasting
  sizes : Plan.SameSizes e.placements after.placements
  roamed : ∀ p ∈ after.placements, ∃ q ∈ e.placements, q.method = p.method ∧
    (p.partition = q.partition ∨
      e.cache.segmentation.Routable (e.destination ranking q.method) ∧
        (p.partition = e.destination ranking q.method ∨
          p.partition = e.cache.segmentation.fallback))

theorem Consistent.leaves (consistent : e.Consistent code) (usable : e.cache.Usable)
    (moving : e.recording = false) (files : FileTree) (ranking : List Method) (elapsed : Nat) :
    Leaves e (e.runPass files ranking elapsed).engine ranking := by
  rcases (begun_same e ranking).consistent consistent with ⟨begun, _⟩
  have held : (e.opened ranking).Held code := (begun.ranked ranking).held
  rcases consistent.completes usable moving files ranking elapsed with ⟨report, t, completes⟩
  have steps : Transit.Steps (e.opened ranking) t := completes.leads.steps
  rcases steps.held held with ⟨heldAfter, frame⟩
  have roamed : Transit.Roamed (e.destination ranking) (e.opened ranking).placements t :=
    completes.leads.roamed held (begun.orderly ranking (e.passes + 1))
      (begun.owed ranking (e.passes + 1)) fun p member => Or.inl member
  have segmentation : t.cache.segmentation = e.cache.segmentation := frame.segmentation
  constructor
  · rw [completes.cache]
    exact segmentation
  · rw [completes.placements]
    exact frame.placed
  · rw [completes.placements]
    exact (frame.loads_eq held heldAfter).trans (loads_opened e ranking)
  · intro p member
    rw [completes.placements] at member
    rcases frame.exists_earlier member with ⟨r, isOld, same⟩
    rcases List.mem_map.mp isOld with ⟨q, isPlacement, rfl⟩
    have sameMethod : q.method = p.method := congrArg Prod.fst same
    refine ⟨q, isPlacement, sameMethod, ?_⟩
    rcases roamed p member with kept | errand
    · have isSame := List.inj_on_of_nodup_map held.methods kept isOld sameMethod.symm
      rw [isSame]
      exact Or.inl rfl
    · rw [Transit.fallback, segmentation, ← sameMethod] at errand
      exact Or.inr errand

/-- The next plan has the same ranks, and it moves nothing exactly if the methods are
in their destinations. -/
theorem Leaves.moves_eq_nil_iff {after : Engine} {ranking : List Method}
    (leaves : Leaves e after ranking) (nodup : (e.placements.map Placement.method).Nodup)
    (nodupAfter : (after.placements.map Placement.method).Nodup) :
    applyRanks (after.planFor ranking) after.placements = after.placements ∧
      ((after.planFor ranking).moves = [] ↔
        ∀ p ∈ after.placements, p.partition = e.destination ranking p.method) := by
  rcases Plan.built_ofRanks (s := e.cache.segmentation) leaves.sizes ranking with
    ⟨assigned, assignedAfter, built, builtAfter, ranks, keys⟩
  have wanted {p q : Placement} (isPlacement : q ∈ e.placements)
      (sameMethod : q.method = p.method) :
      e.destination ranking p.method = Plan.aim e.cache.segmentation
        ((Plan.keys assigned).lookup p.method).join q.partition := by
    rw [← sameMethod, destination_of_mem nodup ranking isPlacement]
    exact Plan.destination_eq nodup built isPlacement
  have wantedAfter (p : Placement) : Plan.wanted e.cache.segmentation assignedAfter p =
      Plan.aim e.cache.segmentation ((Plan.keys assigned).lookup p.method).join p.partition := by
    rw [Plan.wanted, keys]
  rw [← leaves.segmentation] at builtAfter wantedAfter
  constructor
  · have sameRank (m : Method) :
        (after.planFor ranking).rankOf m = (e.planFor ranking).rankOf m := by
      change (Plan.ofRanks after.cache.segmentation after.placements ranking).ranks.lookup m = _
      rw [leaves.segmentation, ranks]
      rfl
    refine (List.map_congr_left fun p member => ?_).trans (List.map_id _)
    have isLasting := List.mem_map_of_mem (f := Placement.lasting) member
    rw [leaves.lasting] at isLasting
    rcases List.mem_map.mp isLasting with ⟨r, isOld, same⟩
    rcases List.mem_map.mp isOld with ⟨q, _, rfl⟩
    have sameMethod : q.method = p.method := congrArg Prod.fst same
    have rank : (e.planFor ranking).rankOf q.method = p.rank := congrArg (fun l => l.2.1) same
    have isRank : (after.planFor ranking).rankOf p.method = p.rank := by
      rw [sameRank, ← sameMethod, rank]
    rw [isRank]
    rfl
  · constructor
    · intro nothing p member
      rcases leaves.roamed p member with ⟨q, isPlacement, sameMethod, whereabouts⟩
      have stays : Plan.wanted after.cache.segmentation assignedAfter p = p.partition := by
        apply Decidable.byContradiction
        intro elsewhere
        rcases Plan.exists_move_ofRanking nodupAfter builtAfter member elsewhere with
          ⟨rank, isMove⟩
        rw [planFor] at nothing
        rw [nothing] at isMove
        contradiction
      rw [wantedAfter, leaves.segmentation] at stays
      rw [sameMethod, wanted isPlacement sameMethod] at whereabouts
      rw [wanted isPlacement sameMethod]
      exact Plan.aim_eq_of_stays stays whereabouts
    · intro delivered
      apply List.eq_nil_iff_forall_not_mem.mpr
      intro move isMove
      rcases Plan.mem_moves_ofRanking builtAfter isMove with ⟨p, member, elsewhere, _⟩
      rcases leaves.roamed p member with ⟨q, isPlacement, sameMethod, _⟩
      apply elsewhere
      rw [wantedAfter, leaves.segmentation, delivered p member, wanted isPlacement sameMethod]
      exact Plan.aim_aim _ _ _

/-- A pass that is repeated leaves everything as it is if the first one has brought
every method to its destination; otherwise it stops the machine again. -/
theorem repeated_runPass (reached : Reached e) (moving : e.recording = false)
    (files again : FileTree) (ranking : List Method) (elapsed elapsedAgain : Nat) :
    (Idle (e.perform (.runPass files ranking elapsed))
        ((e.perform (.runPass files ranking elapsed)).runPass again ranking elapsedAgain) ↔
      ∀ p ∈ (e.perform (.runPass files ranking elapsed)).placements,
        p.partition = e.destination ranking p.method) ∧
    (¬ Idle (e.perform (.runPass files ranking elapsed))
        ((e.perform (.runPass files ranking elapsed)).runPass again ranking elapsedAgain) →
      ((e.perform (.runPass files ranking elapsed)).runPass again ranking
          elapsedAgain).engine.safepoint.epoch =
        (e.perform (.runPass files ranking elapsed)).safepoint.epoch + 1) := by
  rcases reached.consistent with ⟨code, consistent⟩
  have leaves : Leaves e (e.perform (.runPass files ranking elapsed)) ranking :=
    consistent.leaves reached.ready.1 moving files ranking elapsed
  have reachedAfter := reached.perform (.runPass files ranking elapsed)
  rcases consistent.perform (.runPass files ranking elapsed) with ⟨consistentAfter, frame⟩
  have movingAfter := frame.recording.trans moving
  generalize e.perform (.runPass files ranking elapsed) = after at *
  rcases leaves.moves_eq_nil_iff consistent.held.methods consistentAfter.held.methods with
    ⟨ranks, nothing⟩
  rcases consistentAfter.completes reachedAfter.ready.1 movingAfter again ranking elapsedAgain with
    ⟨report, t, completes⟩
  have busy (some : (after.planFor ranking).moves ≠ []) :
      (after.runPass again ranking elapsedAgain).engine.safepoint.epoch =
        after.safepoint.epoch + 1 := by
    rw [completes.safepoint, if_neg some]
    rfl
  have idle (none : (after.planFor ranking).moves = []) :
      Idle after (after.runPass again ranking elapsedAgain) :=
    idle_of_still movingAfter none ranks again elapsedAgain
  constructor
  · rw [← nothing]
    constructor
    · intro still
      apply Decidable.byContradiction
      intro some
      have grows := busy some
      rw [still.safepoint] at grows
      omega
    · exact idle
  · intro notIdle
    exact busy fun none => notIdle (idle none)

/-! ## A machine that tries again -/

/-- The hot partition has room for the fourth method, but in two pieces, and the
third one between them is too long for the fallback partition. -/
def wedgedEngine : Engine :=
  (Engine.start false narrowCache).performAll
    ([.add firstMethod 4096 .hot, .add secondMethod 25904 .hot, .add thirdMethod 70000 .hot,
      .drop secondMethod, .add fourthMethod 50000 .profiled].map Load.call)

theorem reached_wedged : Reached wedgedEngine :=
  ⟨_, _, fresh_narrow, rfl⟩

/-- The order in which the hot partition is to be filled. -/
def wedgedRanking : List Method :=
  [firstMethod, thirdMethod, fourthMethod]

/-- The ranked methods, of which the third one never moves. -/
def wedgedPlacements (first fourth : Partition × Nat) : Placements :=
  [⟨firstMethod, ⟨firstMethod, first.1, first.2, 4096, 4096⟩, some 0, 1⟩,
    ⟨thirdMethod, ⟨thirdMethod, .hot, 0x3007540, 70000, 70016⟩, some 1, 3⟩,
    ⟨fourthMethod, ⟨fourthMethod, fourth.1, fourth.2, 50000, 50048⟩, some 2, 4⟩]

/-- What is free; the tmp partition stays empty. -/
def wedgedOutline (nonProfiled profiled hot : List Extent) : Outline :=
  [⟨.nonProfiled, 0x1000000, nonProfiled⟩, ⟨.profiled, 0x2000000, profiled⟩,
    ⟨.hot, 0x3000000, hot⟩, ⟨.tmp, 0x4000000, [⟨0, 131072⟩]⟩,
    ⟨.nonMethod, 0x5000000, [⟨0, 65536⟩]⟩]

/-- The pieces of the hot partition beside the first and the third method. -/
def wedgedPieces : List Extent :=
  [⟨4096, 25920⟩, ⟨100032, 31040⟩]

def wedgedStock : Stock where
  placements :=
    [⟨firstMethod, ⟨firstMethod, .hot, 0x3000000, 4096, 4096⟩, none, 1⟩,
      ⟨thirdMethod, ⟨thirdMethod, .hot, 0x3007540, 70000, 70016⟩, none, 3⟩,
      ⟨fourthMethod, ⟨fourthMethod, .profiled, 0x2000000, 50000, 50048⟩, none, 4⟩]
  count := 4
  outline := wedgedOutline [⟨0, 65536⟩] [⟨50048, 998528⟩] wedgedPieces

theorem stocked_wedged : Stocked wedgedEngine narrowSegmentation wedgedStock :=
  stocked_narrow.performAll (by decide)

/-- The fourth method waits for the hot partition: where it is, what else is free,
where the first method finds room in the fallback partition, and what is free
there then. -/
structure Wedge where
  fourth : Partition × Nat
  nonProfiled : List Extent
  profiled : List Extent
  refuge : Nat
  remainder : List Extent

namespace Wedge

variable (w : Wedge)

def scene : Scene where
  placements := wedgedPlacements (.hot, 0x3000000) w.fourth
  outline := wedgedOutline w.nonProfiled w.profiled wedgedPieces
  pending := [⟨fourthMethod, w.fourth.1, .hot, some 2⟩]
  parked := []
  compacted := []
  moved := []
  failures := []

/-- The first method has been displaced, the third one could not be. -/
def emptied : Scene where
  placements := wedgedPlacements (.nonProfiled, w.refuge) w.fourth
  outline := wedgedOutline w.remainder w.profiled [⟨0, 30016⟩, ⟨100032, 31040⟩]
  pending :=
    [⟨fourthMethod, w.fourth.1, .hot, some 2⟩, ⟨firstMethod, .nonProfiled, .hot, some 0⟩]
  parked := []
  compacted := [.hot]
  moved := [firstMethod]
  failures := []

def queue : List Move :=
  [⟨firstMethod, .nonProfiled, .hot, some 0⟩, ⟨fourthMethod, w.fourth.1, .hot, some 2⟩]

/-- The first method is back, and the pieces are the same as before. -/
def returned : Scene :=
  { w.scene with
    pending := w.queue
    compacted := [.hot]
    moved := [firstMethod] }

/-- In the first pass the fourth method comes from the profiled partition. -/
def first : Wedge where
  fourth := (.profiled, 0x2000000)
  nonProfiled := [⟨0, 65536⟩]
  profiled := [⟨50048, 998528⟩]
  refuge := 0x1000000
  remainder := [⟨4096, 61440⟩]

/-- In the second pass it comes from the fallback partition. -/
def second : Wedge where
  fourth := (.nonProfiled, 0x1000000)
  nonProfiled := [⟨50048, 15488⟩]
  profiled := [⟨0, 1048576⟩]
  refuge := 0x100C380
  remainder := [⟨54144, 11392⟩]

/-- In both passes the last moves are all that is left for the fourth method. -/
theorem plays {w : Wedge} (either : w = first ∨ w = second) {last : Scene}
    (settled : (w.returned.waitingFor []).settle? narrowSegmentation w.scene.pending = some last) :
    Scene.Plays narrowSegmentation w.scene last := by
  have stuck : Scene.Swept narrowSegmentation w.scene w.scene.pending w.scene w.scene.pending :=
    .still (by rcases either with rfl | rfl <;> decide)
  have residents : w.scene.residents .hot = [(firstMethod, 0), (thirdMethod, 1)] := by
    rcases either with rfl | rfl <;> cbv
  have displaced : Scene.displace? narrowSegmentation { w.scene with compacted := [.hot] } .hot
      [(firstMethod, 0), (thirdMethod, 1)] = some w.emptied := by
    rcases either with rfl | rfl <;> decide
  have sorted : w.emptied.pending.mergeSort Transit.Move.before = w.queue := by
    rcases either with rfl | rfl <;> cbv
  have swept : Scene.sweep? narrowSegmentation (w.emptied.waitingFor w.queue) w.queue =
      some (w.returned, w.scene.pending, true) := by
    rcases either with rfl | rfl <;> decide
  have back : Scene.Swept narrowSegmentation (w.emptied.waitingFor w.queue) w.queue w.returned
      w.scene.pending := by
    refine .again swept (List.cons_ne_nil _ _) (.still ?_)
    rcases either with rfl | rfl <;> decide
  refine .compact stuck (p := .hot) ?_ residents displaced sorted
    (.settle back (List.cons_ne_nil _ _) ?_ ?_ settled)
    <;> rcases either with rfl | rfl <;> decide

end Wedge

/-- After the first pass the fourth method is in the fallback partition. -/
def wedgedEnding : Scene :=
  { Wedge.second.scene with
    pending := []
    compacted := [.hot]
    moved := [firstMethod, fourthMethod] }

theorem opening_wedged :
    wedgedStock.opening narrowSegmentation wedgedRanking = Wedge.first.scene := by
  decide +kernel

theorem plays_wedged : Scene.Plays narrowSegmentation Wedge.first.scene wedgedEnding :=
  Wedge.plays (Or.inl rfl) (by decide)

/-- In the second pass the fourth method finds no room any more. -/
def wedgedAgain : Scene :=
  { Wedge.second.scene with
    pending := []
    compacted := [.hot]
    moved := [firstMethod]
    failures := [(fourthMethod, .hot, 50048)] }

theorem opening_wedged_again :
    (wedgedStock.after wedgedEnding).opening narrowSegmentation wedgedRanking =
      Wedge.second.scene := by
  decide +kernel

theorem plays_wedged_again : Scene.Plays narrowSegmentation Wedge.second.scene wedgedAgain :=
  Wedge.plays (Or.inr rfl) (by decide)

/-- The first pass places everything, and the second one relocates a method. -/
theorem runPass_wedged :
    ∃ report repeated,
      (wedgedEngine.runPass FileTree.empty wedgedRanking 0).result = .ok report ∧
      report.unplaced = 0 ∧
      ((wedgedEngine.runPass FileTree.empty wedgedRanking 0).engine.runPass FileTree.empty
        wedgedRanking 0).result = .ok repeated ∧ repeated.relocated = 1 := by
  have some : (wedgedStock.opening narrowSegmentation wedgedRanking).pending ≠ [] := by
    rw [opening_wedged]
    decide
  have someAgain : ((wedgedStock.after wedgedEnding).opening narrowSegmentation
      wedgedRanking).pending ≠ [] := by
    rw [opening_wedged_again]
    decide
  rcases stocked_wedged.runPass rfl rfl some (opening_wedged ▸ plays_wedged)
    FileTree.empty 0 with ⟨stocked, report, _, endsWell, placed, _⟩
  rcases stocked.runPass rfl rfl someAgain (opening_wedged_again ▸ plays_wedged_again)
    FileTree.empty 0 with ⟨_, repeated, _, endsWellAgain, _, relocated, _⟩
  exact ⟨report, repeated, endsWell, placed, endsWellAgain, relocated⟩

/-- The pass that the wedged machine repeats stops it again. -/
theorem repeated_wedged :
    Reached wedgedEngine ∧ wedgedEngine.recording = false ∧
      ((wedgedEngine.perform (.runPass FileTree.empty wedgedRanking 0)).runPass FileTree.empty
          wedgedRanking 0).engine.safepoint.epoch =
        (wedgedEngine.perform (.runPass FileTree.empty wedgedRanking 0)).safepoint.epoch + 1 := by
  have moving := stocked_wedged.recording
  refine ⟨reached_wedged, moving, ?_⟩
  apply (repeated_runPass reached_wedged moving FileTree.empty FileTree.empty wedgedRanking 0 0).2
  intro idle
  rcases runPass_wedged with ⟨_, repeated, _, _, endsWell, relocated⟩
  rcases idle.result with ⟨report, endsWell', none, _⟩
  rw [perform] at endsWell'
  have same : repeated = report := Except.ok.inj (endsWell.symm.trans endsWell')
  exact Nat.zero_ne_one (none.symm.trans (same ▸ relocated))

/-- The first pass of the wedged machine places everything, but the second one is not
idle. -/
theorem not_idle_again :
    ¬ ∀ (e : Engine) (files again : FileTree) (ranking : List Method) (elapsed elapsedAgain : Nat),
      Reached e → e.recording = false →
      ∀ report, (e.runPass files ranking elapsed).result = .ok report → report.unplaced = 0 →
        let after := (e.runPass files ranking elapsed).engine
        let outcome := after.runPass again ranking elapsedAgain
        (∃ repeated, outcome.result = .ok repeated ∧ repeated.relocated = 0 ∧
          repeated.bytesMoved = 0) ∧
        outcome.engine.placements = after.placements ∧ outcome.engine.cache = after.cache ∧
        outcome.engine.safepoint.epoch = after.safepoint.epoch := by
  intro idles
  rcases runPass_wedged with ⟨report, repeated, endsWell, placed, endsWellAgain, relocated⟩
  rcases (idles wedgedEngine FileTree.empty FileTree.empty wedgedRanking 0 0 reached_wedged
    stocked_wedged.recording report endsWell placed).1 with ⟨again, endsWell', none, _⟩
  have same : repeated = again := Except.ok.inj (endsWellAgain.symm.trans endsWell')
  exact Nat.zero_ne_one (none.symm.trans (same ▸ relocated))

end Engine

end CodeLayout
