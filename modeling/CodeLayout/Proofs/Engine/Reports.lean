import CodeLayout.Proofs.Engine.Outline

/-!
# Reports of a pass

A pass reports the methods for which it found no room.  Such a method is left
where it was before the pass, unless the pass sent it to the fallback partition
on the way: then it is still there, and that relocation is reported too.
-/

namespace CodeLayout.Engine

variable {e : Engine} {code : Method → Option ByteArray}

/-- At the beginning of a pass nothing is reported, and all methods are where
they were. -/
theorem reported_opened (e : Engine) (ranking : List Method) :
    Transit.Reported (e.destination ranking) (e.opened ranking).placements
      (.moving (e.opened ranking)) [] where
  events := rfl
  early _ := rfl
  nodup := List.nodup_nil
  apart := by simp
  failed := by simp
  waiting _ member _ := Or.inl member

/-- The methods reported by a pass are where they were before it, or strayed to the
fallback partition. -/
theorem reported_runPass (reached : Reached e) (moving : e.recording = false)
    (files : FileTree) (ranking : List Method) (elapsed : Nat) :
    ∃ (logged : List Event) (failed : List Placement),
      (e.runPass files ranking elapsed).engine.events = e.events ++ logged ∧
      logged.filter Event.isPlacementFailure =
        failed.map (fun p => .placementFailed p.method.display (e.destination ranking p.method)
          p.blob.padded) ∧
      (failed.map Placement.method).Nodup ∧
      ∀ p ∈ failed, p ∈ (e.runPass files ranking elapsed).engine.placements ∧
        ∃ q ∈ e.placements, q.method = p.method ∧
          (p.blob = q.blob ∨
            p.partition = e.cache.segmentation.fallback ∧
              ∃ source, .methodRelocated p.method.display source p.partition p.size ∈ logged) := by
  rcases reached.consistent with ⟨code, consistent⟩
  rcases (begun_same e ranking).consistent consistent with ⟨begun, _⟩
  have held : (e.opened ranking).Held code := (begun.ranked ranking).held
  rcases consistent.completes reached.ready.1 moving files ranking elapsed with
    ⟨report, t, completes⟩
  have steps : Transit.Steps (e.opened ranking) t := completes.leads.steps
  rcases steps.held held with ⟨_, frame⟩
  rcases completes.events with ⟨before, behind, events, quietBefore, quietBehind⟩
  obtain ⟨failed, reported⟩ := completes.leads.reported held
    (begun.orderly ranking (e.passes + 1)) (begun.owed ranking (e.passes + 1))
    (reported_opened e ranking)
  refine ⟨before ++ t.events ++ behind, failed, ?_, ?_, reported.nodup, ?_⟩
  · rw [events, List.append_assoc, List.append_assoc, List.append_assoc]
  · rw [List.filter_append, List.filter_append, (Event.filter_quiet quietBefore).1,
      (Event.filter_quiet quietBehind).1, List.nil_append, List.append_nil]
    exact reported.events
  · intro p isFailed
    rcases reported.failed p isFailed with ⟨member, left⟩
    rw [completes.placements]
    refine ⟨member, ?_⟩
    rcases left with kept | ⟨isThere, source, relocated⟩
    · rcases List.mem_map.mp kept with ⟨q, isPlacement, rfl⟩
      exact ⟨q, isPlacement, rfl, Or.inl rfl⟩
    · rcases frame.exists_earlier member with ⟨r, isOld, same⟩
      rcases List.mem_map.mp isOld with ⟨q, isPlacement, rfl⟩
      refine ⟨q, isPlacement, congrArg Prod.fst same, Or.inr ⟨?_, source, ?_⟩⟩
      · rw [isThere]
        exact congrArg Segmentation.fallback frame.segmentation
      · exact List.mem_append_left _ (List.mem_append_right _ relocated)

/-! ## A crowded machine -/

/-- The fallback partition can take the second method, but not the first one. -/
def crowdedEngine : Engine :=
  (Engine.start false narrowCache).performAll
    ([.add firstMethod 100000 .hot, .add secondMethod 40000 .tmp].map Load.call)

theorem reached_crowded : Reached crowdedEngine :=
  ⟨_, _, fresh_narrow, rfl⟩

def crowdedStock : Stock where
  placements :=
    [⟨firstMethod, ⟨firstMethod, .hot, 0x3000000, 100000, 100032⟩, none, 1⟩,
      ⟨secondMethod, ⟨secondMethod, .tmp, 0x4000000, 40000, 40000⟩, none, 2⟩]
  count := 2
  outline :=
    [⟨.nonProfiled, 0x1000000, [⟨0, 65536⟩]⟩, ⟨.profiled, 0x2000000, [⟨0, 1048576⟩]⟩,
      ⟨.hot, 0x3000000, [⟨100032, 31040⟩]⟩, ⟨.tmp, 0x4000000, [⟨40000, 91072⟩]⟩,
      ⟨.nonMethod, 0x5000000, [⟨0, 65536⟩]⟩]

theorem stocked_crowded : Stocked crowdedEngine narrowSegmentation crowdedStock :=
  stocked_narrow.performAll (by decide)

/-- The first method is to leave the hot partition for the second one. -/
def crowdedScene : Scene where
  placements :=
    [⟨firstMethod, ⟨firstMethod, .hot, 0x3000000, 100000, 100032⟩, none, 1⟩,
      ⟨secondMethod, ⟨secondMethod, .tmp, 0x4000000, 40000, 40000⟩, some 0, 2⟩]
  outline := crowdedStock.outline
  pending := [⟨firstMethod, .hot, .nonProfiled, none⟩, ⟨secondMethod, .tmp, .hot, some 0⟩]
  parked := []
  compacted := []
  moved := []
  failures := []

theorem opening_crowded :
    crowdedStock.opening narrowSegmentation [secondMethod] = crowdedScene := by
  decide +kernel

/-- The second method is parked in the fallback partition. -/
def crowdedParking : Scene :=
  { crowdedScene with
    placements :=
      [⟨firstMethod, ⟨firstMethod, .hot, 0x3000000, 100000, 100032⟩, none, 1⟩,
        ⟨secondMethod, ⟨secondMethod, .nonProfiled, 0x1000000, 40000, 40000⟩, some 0, 2⟩]
    outline :=
      [⟨.nonProfiled, 0x1000000, [⟨40000, 25536⟩]⟩, ⟨.profiled, 0x2000000, [⟨0, 1048576⟩]⟩,
        ⟨.hot, 0x3000000, [⟨100032, 31040⟩]⟩, ⟨.tmp, 0x4000000, [⟨0, 131072⟩]⟩,
        ⟨.nonMethod, 0x5000000, [⟨0, 65536⟩]⟩]
    parked := [secondMethod] }

/-- The pass has given up on both methods. -/
def crowdedEnding : Scene :=
  { crowdedParking with
    pending := []
    moved := [secondMethod]
    failures := [(firstMethod, .nonProfiled, 100032), (secondMethod, .hot, 40000)] }

theorem plays_crowded : Scene.Plays narrowSegmentation crowdedScene crowdedEnding := by
  have stuck : Scene.Swept narrowSegmentation crowdedScene crowdedScene.pending crowdedScene
      crowdedScene.pending := .still (by decide)
  have parked : Scene.send? narrowSegmentation { crowdedScene with parked := [secondMethod] }
      secondMethod [.nonProfiled] = some (some crowdedParking) := by decide
  have stillStuck : Scene.Swept narrowSegmentation (crowdedParking.note secondMethod)
      crowdedScene.pending (crowdedParking.note secondMethod) crowdedScene.pending :=
    .still (by decide)
  have settled : Scene.settle? narrowSegmentation
      ((crowdedParking.note secondMethod).waitingFor []) crowdedScene.pending =
        some crowdedEnding := by
    decide
  apply Scene.Plays.park stuck (by decide) (by decide) parked
  exact Scene.Plays.settle stillStuck (by decide) (by decide) (by decide) settled

theorem runPass_crowded :
    ∃ report logged,
      Stocked (crowdedEngine.runPass FileTree.empty [secondMethod] 0).engine narrowSegmentation
        (crowdedStock.after crowdedEnding) ∧
      (crowdedEngine.runPass FileTree.empty [secondMethod] 0).result = .ok report ∧
      (crowdedEngine.runPass FileTree.empty [secondMethod] 0).engine.events =
        crowdedEngine.events ++ logged ∧
      logged.filter Event.isPlacementFailure = crowdedEnding.failures.map Transit.failed := by
  have some : (crowdedStock.opening narrowSegmentation [secondMethod]).pending ≠ [] := by
    rw [opening_crowded]
    decide
  rcases stocked_crowded.runPass rfl rfl some (opening_crowded ▸ plays_crowded)
    FileTree.empty 0 with ⟨stocked, report, logged, endsWell, _, _, events, failures⟩
  exact ⟨report, logged, stocked, endsWell, events, failures⟩

/-- The pass of the crowded machine reports two methods. -/
theorem reported_crowded :
    Reached crowdedEngine ∧ crowdedEngine.recording = false ∧
      ∃ (logged : List Event) (failed : List Placement), failed.length = 2 ∧
        (crowdedEngine.runPass FileTree.empty [secondMethod] 0).engine.events =
          crowdedEngine.events ++ logged ∧
        ∀ p ∈ failed, ∃ q ∈ crowdedEngine.placements, q.method = p.method ∧
          (p.blob = q.blob ∨ p.partition = crowdedEngine.cache.segmentation.fallback) := by
  have moving := stocked_crowded.recording
  obtain ⟨logged, failed, events, failures, _, left⟩ :=
    reported_runPass reached_crowded moving FileTree.empty [secondMethod] 0
  rcases runPass_crowded with ⟨_, logged', _, _, events', failures'⟩
  have sameLog := List.append_cancel_left (events.symm.trans events')
  rw [sameLog, failures'] at failures
  refine ⟨reached_crowded, moving, logged, failed, ?_, events, ?_⟩
  · simpa [crowdedEnding] using (congrArg List.length failures).symm
  · intro p isFailed
    rcases left p isFailed with ⟨_, q, isPlacement, sameMethod, kept | ⟨isThere, _⟩⟩
    · exact ⟨q, isPlacement, sameMethod, Or.inl kept⟩
    · exact ⟨q, isPlacement, sameMethod, Or.inr isThere⟩

/-- The second method is reported, but it is left where it was parked. -/
theorem not_left_in_place :
    ¬ ∀ (e : Engine) (files : FileTree) (ranking : List Method) (elapsed : Nat),
      Reached e → e.recording = false →
      ∀ logged, (e.runPass files ranking elapsed).engine.events = e.events ++ logged →
      ∀ p ∈ e.placements, ∀ q ∈ (e.runPass files ranking elapsed).engine.placements,
        q.method = p.method → ∀ target padded,
          .placementFailed p.method.display target padded ∈ logged → q.blob = p.blob := by
  intro inPlace
  rcases runPass_crowded with ⟨_, logged, after, _, events, failures⟩
  have reported : Event.placementFailed secondMethod.display .hot 40000 ∈ logged := by
    apply List.mem_of_mem_filter
    rw [failures]
    exact List.mem_cons_of_mem _ List.mem_cons_self
  have moved := inPlace crowdedEngine FileTree.empty [secondMethod] 0 reached_crowded
    stocked_crowded.recording logged events
    ⟨secondMethod, ⟨secondMethod, .tmp, 0x4000000, 40000, 40000⟩, none, 2⟩
    (by rw [stocked_crowded.placements]; decide)
    ⟨secondMethod, ⟨secondMethod, .nonProfiled, 0x1000000, 40000, 40000⟩, some 0, 2⟩
    (by rw [after.placements]; decide) rfl .hot 40000 reported
  revert moved
  decide

end CodeLayout.Engine
