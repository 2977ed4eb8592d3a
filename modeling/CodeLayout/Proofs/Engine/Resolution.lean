import CodeLayout.Proofs.Engine.Consistency
import CodeLayout.Proofs.Transit.Hops

/-!
# Resolution of outdated addresses

After a pass an address from before it is resolved through the table of the
pass.  The table keeps one hop for each address that was left, so an address
that was left and taken again within the pass leads on to where the method went
that left it.  Resolution is right where the last hops lead to the method, and
it is right for every method if the pass takes no address again.
-/

namespace CodeLayout

theorem Placements.lookup_map (ps : Placements) (m : Method) (f : Placement → Nat) :
    (ps.map fun p => (p.method, f p)).lookup m = (ps.find? m).map f := by
  induction ps with
  | nil => rfl
  | cons p rest inductionHypothesis =>
      rw [List.map_cons, List.lookup_cons, find?, List.find?_cons]
      by_cases same : p.method = m
      · simp [same]
      · have differs : (m == p.method) = false := by simpa using Ne.symm same
        simp only [differs, same, decide_false]
        exact inductionHypothesis

namespace Engine

variable {e : Engine} {code : Method → Option ByteArray}

/-- The hops of a pass, and what they mean for the addresses from before it. -/
structure Resolution (e after : Engine) (hops : List (Nat × Nat)) : Prop where
  /-- There is a hop for each relocation that the pass reports. -/
  made : ∃ logged, after.events = e.events ++ logged ∧
    logged.countP Event.isRelocation = hops.length
  /-- The table holds the last hop out of each address. -/
  table : after.forwarding.Records hops
  /-- The hops lead from where a method was to where it is. -/
  entries : ∀ m a, entry? e m = some a → entry? after m = some (replay hops a)
  /-- An outdated address is resolved exactly where the last hops lead. -/
  exact : ∀ m a b, entry? e m = some a → entry? after m = some b →
    (after.resolve a = b ↔ LeadsTo hops a b)
  /-- If no address is taken again, all are resolved. -/
  direct : NoReuse hops → ∀ m a b, entry? e m = some a → entry? after m = some b →
    after.resolve a = b

/-- The hops of a pass: one for each relocation, in its order. -/
structure Trace (e after : Engine) (hops : List (Nat × Nat)) : Prop where
  made : ∃ logged, after.events = e.events ++ logged ∧
    logged.countP Event.isRelocation = hops.length
  table : after.forwarding.Records hops
  addresses : after.placements.map (fun p => (p.method, p.address)) =
    e.placements.map fun p => (p.method, replay hops p.address)
  /-- If no address is taken again, chains end where the methods are. -/
  direct : NoReuse hops → ∀ p ∈ e.placements, ∃ k,
    walk (lastHop hops) k p.address = some (replay hops p.address) ∧
      lastHop hops (replay hops p.address) = none

/-- The last hops lead to every method. -/
theorem Trace.resolution {after : Engine} {hops : List (Nat × Nat)} (trace : Trace e after hops) :
    Resolution e after hops := by
  have entries (m : Method) (a : Nat) (was : entry? e m = some a) :
      entry? after m = some (replay hops a) := by
    rcases Option.map_eq_some_iff.mp was with ⟨p, found, rfl⟩
    have looked := congrArg (List.lookup m) trace.addresses
    rw [Placements.lookup_map, Placements.lookup_map, found] at looked
    exact looked
  have exactly (a b : Nat) : after.resolve a = b ↔ LeadsTo hops a b := trace.table.forward_eq_iff
  refine ⟨trace.made, trace.table, entries, fun _ a b _ _ => exactly a b, ?_⟩
  intro noReuse m a b was is
  cases (entries m a was).symm.trans is
  rcases Option.map_eq_some_iff.mp was with ⟨p, found, rfl⟩
  apply (exactly _ _).mpr
  exact Or.inl (trace.direct noReuse p (Placements.mem_of_find? found).1)

theorem Consistent.reorder_trace (consistent : e.Consistent code) (separate : e.cache.Separate)
    (ranking : List Method) (report : PassReport) :
    ∃ hops, Trace e (e.reorder ranking report).2 hops := by
  have rankedConsistent := consistent.ranked ranking
  have sameAddresses (f : Nat → Nat) :
      (e.ranked ranking).placements.map (fun p => (p.method, f p.address)) =
        e.placements.map fun p => (p.method, f p.address) := by
    rw [Engine.ranked, applyRanks, List.map_map]
    rfl
  obtain ⟨_, quiet⟩ :=
    Event.countP_quiet (shortage_quiet e.cache.segmentation (e.planFor ranking))
  rw [reorder_eq]
  split
  · refine ⟨[], ⟨_, rfl, quiet⟩, (Forwarding.Records.empty _).close, sameAddresses id, ?_⟩
    intro _ p _
    exact ⟨0, rfl, rfl⟩
  · have steps := Transit.run_steps
      ((e.ranked ranking).opening report.pass (e.planFor ranking).moves)
    rcases steps.tracked rankedConsistent.held separate rfl rfl with ⟨hops, tracked⟩
    refine ⟨hops, ?_, tracked.records.close, ?_, ?_⟩
    · refine ⟨_, List.append_assoc _ _ _, ?_⟩
      rw [List.countP_append, quiet, Nat.zero_add]
      exact tracked.made
    · rw [← sameAddresses]
      exact tracked.addresses
    · intro noReuse p member
      have isRanked : { p with rank := (e.planFor ranking).rankOf p.method } ∈
          (e.ranked ranking).placements := List.mem_map_of_mem member
      have chain := tracked.direct noReuse _ isRanked
      exact chain

theorem Consistent.runPass_trace (consistent : e.Consistent code) (separate : e.cache.Separate)
    (moving : e.recording = false) (files : FileTree) (ranking : List Method) (elapsed : Nat) :
    ∃ hops, Trace e (e.runPass files ranking elapsed).engine hops := by
  rcases (begun_same e ranking).consistent consistent with ⟨begun, _⟩
  rcases runPass_moving moving files ranking elapsed with ⟨same, _⟩
  obtain ⟨hops, ⟨logged, eventsBefore, made⟩, table, addresses, direct⟩ :=
    begun.reorder_trace separate ranking (PassReport.start (e.passes + 1))
  rcases runPass_log moving files ranking elapsed eventsBefore with ⟨all, events, _, _, counted⟩
  refine ⟨hops, ⟨all, events, counted.trans made⟩, ?_, ?_, direct⟩
  · rw [same.forwarding]
    exact table
  · rw [same.placements]
    exact addresses

/-- What a pass of a moving engine does to addresses from before it. -/
theorem resolution_runPass (reached : Reached e) (separate : e.cache.Separate)
    (moving : e.recording = false) (files : FileTree) (ranking : List Method) (elapsed : Nat) :
    ∃ hops, Resolution e (e.runPass files ranking elapsed).engine hops := by
  rcases reached.consistent with ⟨code, consistent⟩
  rcases consistent.runPass_trace separate moving files ranking elapsed with ⟨hops, trace⟩
  exact ⟨hops, trace.resolution⟩

theorem resolution_small :
    Reached smallEngine ∧ smallEngine.cache.Separate ∧ smallEngine.recording = false ∧
      ∃ hops, Resolution smallEngine (smallEngine.perform exchange) hops :=
  ⟨reached_small, separate_smallEngine, rfl,
    resolution_runPass reached_small separate_smallEngine rfl FileTree.empty [secondMethod] 0⟩

/-- The second method comes to the address that the first one left, and its old
address is resolved to where the first one went. -/
theorem not_resolved_in_exchange :
    ¬ ∀ (e : Engine) (files : FileTree) (ranking : List Method) (elapsed : Nat)
        (report : PassReport), Reached e → e.cache.Separate → e.recording = false →
      (e.runPass files ranking elapsed).result = .ok report →
      ∀ m a b, entry? e m = some a → entry? (e.runPass files ranking elapsed).engine m = some b →
        (e.runPass files ranking elapsed).engine.resolve a = b := by
  intro resolved
  rcases perform_exchange with ⟨same, report, endsWell, _⟩
  rcases run_exchange with ⟨_, placements, entries, _⟩
  have was : entry? smallEngine secondMethod = some 0x1000000 := by decide
  have is : entry? (smallEngine.perform exchange) secondMethod = some 0x3000000 := by
    unfold entry?
    rw [same.placements]
    change (exchangeOpening.run.2.placements.find? secondMethod).map _ = _
    rw [placements]
    decide
  have forwarded : (smallEngine.perform exchange).resolve 0x1000000 = 0x1000040 := by
    rw [resolve, same.forwarding]
    change exchangeOpening.run.2.forwarding.close.forward 0x1000000 = _
    simp [Forwarding.forward, Forwarding.follow, Forwarding.lookup, Forwarding.close, entries,
      List.lookup_cons]
  have wrong := resolved smallEngine FileTree.empty [secondMethod] 0 report reached_small
    separate_smallEngine rfl endsWell secondMethod 0x1000000 0x3000000 was is
  exact absurd (forwarded.symm.trans wrong) (by decide)

end Engine

end CodeLayout
