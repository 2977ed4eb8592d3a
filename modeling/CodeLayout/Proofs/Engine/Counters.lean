import CodeLayout.Proofs.Engine.Consistency

/-!
# Counters

An engine counts its passes and its installations, and its safepoint counts epochs.  A pass
counts one pass and at most one epoch, a successful installation counts itself, and nothing
counts down.  So no counter leaves the words before as many calls were made.
-/

namespace CodeLayout

theorem Transit.Steps.safepoint {t after : Transit} (steps : Transit.Steps t after) :
    after.safepoint = t.safepoint := by
  induction steps with
  | refl => rfl
  | @relocate middle _ m order requested inductionHypothesis =>
      have same : (middle.relocate m order requested).2.safepoint = middle.safepoint := by
        unfold Transit.relocate
        split
        · rfl
        · split
          · rfl
          · split
            · rfl
            · dsimp only
              split
              · rfl
              · split <;> rfl
      exact same.trans inductionHypothesis
  | giveUp _ _ _ inductionHypothesis => exact inductionHypothesis
  | note _ same inductionHypothesis => exact same.safepoint.trans inductionHypothesis

namespace Engine

variable {e middle after start : Engine} {calls more : List Call}

/-- The call is an installation. -/
def Call.isInstall : Call → Bool
  | .install .. => true
  | .unload _ | .runPass .. | .runWith .. => false

/-- How far calls have moved the counters on. -/
structure Counts (e after : Engine) (calls : List Call) : Prop where
  passes : after.passes = e.passes + calls.countP Call.isPass
  compilations : e.compilations ≤ after.compilations
  installations : after.compilations ≤ e.compilations + calls.countP Call.isInstall
  epochs : e.safepoint.epoch ≤ after.safepoint.epoch
  releases : after.safepoint.epoch ≤ e.safepoint.epoch + calls.countP Call.isPass

theorem Counts.refl (e : Engine) : Counts e e [] :=
  ⟨rfl, Nat.le_refl _, Nat.le_refl _, Nat.le_refl _, Nat.le_refl _⟩

theorem Counts.append (first : Counts e middle calls) (second : Counts middle after more) :
    Counts e after (calls ++ more) := by
  constructor
  · rw [second.passes, first.passes, List.countP_append, Nat.add_assoc]
  · exact Nat.le_trans first.compilations second.compilations
  · have sum := Nat.le_trans second.installations (Nat.add_le_add_right first.installations _)
    rwa [List.countP_append, ← Nat.add_assoc]
  · exact Nat.le_trans first.epochs second.epochs
  · have sum := Nat.le_trans second.releases (Nat.add_le_add_right first.releases _)
    rwa [List.countP_append, ← Nat.add_assoc]

/-- What a pass counts. -/
structure PassCounts (e after : Engine) : Prop where
  passes : after.passes = e.passes + 1
  compilations : after.compilations = e.compilations
  epochs : e.safepoint.epoch ≤ after.safepoint.epoch
  releases : after.safepoint.epoch ≤ e.safepoint.epoch + 1

theorem passCounts_begun (e : Engine) (ranking : List Method) : PassCounts e (e.begun ranking) :=
  ⟨rfl, rfl, Nat.le_refl _, Nat.le_succ _⟩

/-- A recording pass begins no epoch. -/
theorem passCounts_recordOrder (counted : PassCounts e middle) (files : FileTree)
    (ranking : List Method) (report : PassReport) :
    PassCounts e (middle.recordOrder files ranking report).engine := by
  unfold recordOrder
  dsimp only
  split
  · exact ⟨counted.passes, counted.compilations, counted.epochs, counted.releases⟩
  · split <;>
      exact ⟨counted.passes, counted.compilations, counted.epochs, counted.releases⟩

/-- A moving pass begins one when it lets the threads go on, if it stopped them. -/
theorem passCounts_reorder (ranking : List Method) (report : PassReport) :
    PassCounts e ((e.begun ranking).reorder ranking report).2 := by
  rw [reorder_eq]
  split
  · exact ⟨rfl, rfl, Nat.le_refl _, Nat.le_succ _⟩
  · have safepoint := (Transit.run_steps (((e.begun ranking).ranked ranking).opening report.pass
      ((e.begun ranking).planFor ranking).moves)).safepoint
    have epoch := congrArg (fun s : Safepoint => s.release.epoch) safepoint
    refine ⟨rfl, rfl, ?_, ?_⟩
    · exact Nat.le_trans (Nat.le_succ _) (Nat.le_of_eq epoch.symm)
    · exact Nat.le_of_eq epoch

theorem passCounts_runPass (e : Engine) (files : FileTree) (ranking : List Method)
    (elapsed : Nat) : PassCounts e (e.runPass files ranking elapsed).engine := by
  cases mode : e.recording with
  | true =>
      have counted := passCounts_recordOrder (passCounts_begun e ranking) files ranking
        (PassReport.start (e.passes + 1))
      rw [runPass_eq_of_recording mode]
      split
      · rename_i ended
        rw [ended] at counted
        exact ⟨counted.passes, counted.compilations, counted.epochs, counted.releases⟩
      · rename_i stopped
        rw [stopped] at counted
        exact counted
  | false =>
      have counted := passCounts_reorder (e := e) ranking (PassReport.start (e.passes + 1))
      rw [runPass_eq mode]
      generalize (e.begun ranking).reorder ranking (PassReport.start (e.passes + 1)) = reordered
        at counted ⊢
      rcases reordered with ⟨fault | report, after⟩
      · exact counted
      · exact ⟨counted.passes, counted.compilations, counted.epochs, counted.releases⟩

theorem PassCounts.counts (counted : PassCounts e after) {call : Call}
    (isPass : call.isPass = true) : Counts e after [call] := by
  have one : [call].countP Call.isPass = 1 := by simp [isPass]
  refine ⟨?_, counted.compilations.ge, Nat.le_add_right_of_le counted.compilations.le,
    counted.epochs, ?_⟩
  · rw [one]
    exact counted.passes
  · rw [one]
    exact counted.releases

theorem counts_perform (e : Engine) (call : Call) : Counts e (e.perform call) [call] := by
  cases call with
  | install m bytes requested _ =>
      have made := installs e m bytes requested
      rw [perform]
      generalize e.install m bytes requested = result at made ⊢
      cases made with
      | refused _ => exact ⟨rfl, Nat.le_refl _, Nat.le_succ _, Nat.le_refl _, Nat.le_refl _⟩
      | added _ _ => exact ⟨rfl, Nat.le_succ _, Nat.le_refl _, Nat.le_refl _, Nat.le_refl _⟩
      | replaced _ _ _ => exact ⟨rfl, Nat.le_succ _, Nat.le_refl _, Nat.le_refl _, Nat.le_refl _⟩
      | stuck _ _ _ => exact ⟨rfl, Nat.le_refl _, Nat.le_succ _, Nat.le_refl _, Nat.le_refl _⟩
  | unload m =>
      rw [perform, unload]
      split
      · exact ⟨rfl, Nat.le_refl _, Nat.le_refl _, Nat.le_refl _, Nat.le_refl _⟩
      · dsimp only
        split <;> exact ⟨rfl, Nat.le_refl _, Nat.le_refl _, Nat.le_refl _, Nat.le_refl _⟩
  | runPass files ranking elapsed => exact (passCounts_runPass e files ranking elapsed).counts rfl
  | runWith files ranking elapsed =>
      rw [perform, runWith]
      split
      · split
        · exact (passCounts_runPass e files ranking elapsed).counts rfl
        · rename_i order _ _
          have counted := passCounts_runPass { e with seedUsed := true } files order.ranking elapsed
          have unmarked : PassCounts e _ :=
            ⟨counted.passes, counted.compilations, counted.epochs, counted.releases⟩
          exact unmarked.counts rfl
      · exact (passCounts_runPass e files ranking elapsed).counts rfl

theorem counts_performAll (e : Engine) (calls : List Call) :
    Counts e (e.performAll calls) calls := by
  induction calls generalizing e with
  | nil => exact Counts.refl e
  | cons call rest inductionHypothesis =>
      exact (counts_perform e call).append (inductionHypothesis (e.perform call))

/-- The counters of an engine that was new are words as long as the number of calls is. -/
theorem Fresh.counters_lt (fresh : Fresh start) (few : calls.length < Size.wordLimit) :
    let e := start.performAll calls
    e.passes < Size.wordLimit ∧ e.compilations < Size.wordLimit ∧
      e.safepoint.epoch < Size.wordLimit := by
  have unused : start.passes = 0 ∧ start.compilations = 0 ∧ start.safepoint.epoch = 0 := by
    induction fresh with
    | start _ _ _ => exact ⟨rfl, rfl, rfl⟩
    | dumpTo _ _ inductionHypothesis => exact inductionHypothesis
    | withSeed _ _ inductionHypothesis => exact inductionHypothesis
  rcases unused with ⟨noPasses, noCompilations, noEpochs⟩
  have counted := counts_performAll start calls
  have passes := counted.passes
  have installations := counted.installations
  have releases := counted.releases
  have passCalls := calls.countP_le_length (p := Call.isPass)
  have installCalls := calls.countP_le_length (p := Call.isInstall)
  dsimp only
  omega

end Engine

end CodeLayout
