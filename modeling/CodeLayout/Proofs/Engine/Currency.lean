import CodeLayout.Proofs.Engine.Outline
import CodeLayout.Proofs.Engine.Resolution

/-!
# Resolution of current addresses

The forwarding table is that of the last pass, however long ago this was, and
code goes on being installed at the addresses that the pass left.  So the
address at which a method is may be resolved to another one: exactly where a hop
of the last pass left it.
-/

namespace CodeLayout.Engine

variable {e : Engine} {code : Method → Option ByteArray} {call : Call}

/-- Some calls end with a pass that made these hops, or are none and made none; the
calls after them run no pass. -/
structure LastPass (start : Engine) (earlier later : List Call) (hops : List (Nat × Nat)) :
    Prop where
  quiet : ∀ call ∈ later, call.isPass = false
  origin : (earlier = [] ∧ hops = []) ∨
    ∃ before pass, earlier = before ++ [pass] ∧ pass.isPass = true ∧
      Trace (start.performAll before) (start.performAll earlier) hops

/-- The table of a new engine is empty. -/
theorem Fresh.table (fresh : Fresh e) : e.forwarding.Records [] := by
  induction fresh with
  | start _ _ _ => exact Forwarding.Records.empty 0
  | dumpTo _ _ inductionHypothesis => exact inductionHypothesis
  | withSeed _ _ inductionHypothesis => exact inductionHypothesis

/-- Only passes write the table. -/
theorem Consistent.perform_forwarding (consistent : e.Consistent code)
    (quiet : call.isPass = false) : (e.perform call).forwarding = e.forwarding := by
  cases call with
  | install m bytes requested =>
      rw [Engine.perform]
      rcases consistent.install_cases m bytes requested with
        ⟨_, _, _, equal, _⟩ | ⟨_, _, _, equal, _⟩ <;> rw [equal] <;> rfl
  | unload m =>
      rw [Engine.perform]
      rcases consistent.unload_cases m with equal | ⟨_, equal, _⟩ <;> rw [equal]
  | runPass _ _ _ => contradiction
  | runWith _ _ _ => contradiction

/-- Each pass leaves the table of its hops. -/
theorem Consistent.perform_trace (consistent : e.Consistent code) (separate : e.cache.Separate)
    (moving : e.recording = false) (isPass : call.isPass = true) :
    ∃ hops, Trace e (e.perform call) hops := by
  cases call with
  | install _ _ _ => contradiction
  | unload _ => contradiction
  | runPass files ranking elapsed =>
      exact consistent.runPass_trace separate moving files ranking elapsed
  | runWith files ranking elapsed =>
      rw [Engine.perform, Engine.runWith]
      split
      · rename_i order _
        split
        · exact consistent.runPass_trace separate moving files ranking elapsed
        · have marked : Consistent { e with seedUsed := true } code :=
            ⟨consistent.held, consistent.numbered⟩
          rcases marked.runPass_trace separate moving files order.ranking elapsed with ⟨hops, trace⟩
          exact ⟨hops, trace.made, trace.table, trace.addresses, trace.direct⟩
      · exact consistent.runPass_trace separate moving files ranking elapsed

/-- After some calls the table holds the hops of their last pass. -/
theorem exists_lastPass (fresh : Fresh e) (separate : e.cache.Separate)
    (moving : e.recording = false) (calls : List Call) :
    ∃ earlier later hops, calls = earlier ++ later ∧ LastPass e earlier later hops ∧
      (e.performAll calls).forwarding.Records hops := by
  induction calls using List.reverseRecOn with
  | nil => exact ⟨[], [], [], rfl, ⟨by simp, Or.inl ⟨rfl, rfl⟩⟩, fresh.table⟩
  | append_singleton calls call inductionHypothesis =>
      rcases (fresh.consistent fun _ => none).performAll calls with ⟨consistent, frame⟩
      rw [performAll_concat]
      cases isPass : call.isPass with
      | true =>
          rcases consistent.perform_trace (separate.of_sites frame.sites)
            (frame.recording.trans moving) isPass with ⟨hops, trace⟩
          refine ⟨calls ++ [call], [], hops, (List.append_nil _).symm, ⟨by simp, Or.inr ?_⟩,
            trace.table⟩
          exact ⟨calls, call, rfl, isPass, performAll_concat e calls call ▸ trace⟩
      | false =>
          rcases inductionHypothesis with ⟨earlier, later, hops, rfl, ⟨quiet, origin⟩, table⟩
          refine ⟨earlier, later ++ [call], hops, List.append_assoc _ _ _, ⟨?_, origin⟩, ?_⟩
          · intro other member
            rcases List.mem_append.mp member with old | new
            · exact quiet other old
            · exact List.mem_singleton.mp new ▸ isPass
          · rw [consistent.perform_forwarding isPass]
            exact table

/-- If the last pass took no address again, no hop leaves an address at which it
left a method. -/
theorem LastPass.unleft {earlier later : List Call} {hops : List (Nat × Nat)}
    (last : LastPass e earlier later hops) (noReuse : NoReuse hops) {m : Method} {a : Nat}
    (left : entry? (e.performAll earlier) m = some a) : ∀ hop ∈ hops, hop.1 ≠ a := by
  rcases last.origin with ⟨_, rfl⟩ | ⟨before, pass, _, _, trace⟩
  · simp
  · rcases Option.map_eq_some_iff.mp left with ⟨p, found, rfl⟩
    have isThere : (p.method, p.address) ∈
        (e.performAll before).placements.map fun q => (q.method, replay hops q.address) := by
      rw [← trace.addresses]
      exact List.mem_map_of_mem (Placements.mem_of_find? found).1
    rcases List.mem_map.mp isThere with ⟨q, member, same⟩
    rcases trace.direct noReuse q member with ⟨_, _, ends⟩
    rw [(Prod.mk.inj same).2] at ends
    exact lastHop_eq_none_iff.mp ends

/-- What the hops of the last pass say about the addresses at which the methods are.
The pass left the engine `left`. -/
structure Current (left after : Engine) (hops : List (Nat × Nat)) : Prop where
  /-- An address is resolved to itself exactly if no hop left it, or the last hops run
  in a circle that is cut off there. -/
  exact : ∀ m a, entry? after m = some a →
    (after.resolve a = a ↔ (∀ hop ∈ hops, hop.1 ≠ a) ∨
      walk (lastHop hops) ((hops.map Prod.fst).dedup.length + 1) a = some a)
  /-- If no address was taken again, that of a method is resolved to itself where the
  pass left it. -/
  kept : NoReuse hops → ∀ m a, entry? after m = some a → entry? left m = some a →
    after.resolve a = a

/-- After any calls the address of a method is resolved as the hops of their last
pass say. -/
theorem current_performAll (fresh : Fresh e) (separate : e.cache.Separate)
    (moving : e.recording = false) (calls : List Call) :
    ∃ earlier later hops, calls = earlier ++ later ∧ LastPass e earlier later hops ∧
      Current (e.performAll earlier) (e.performAll calls) hops := by
  rcases exists_lastPass fresh separate moving calls with
    ⟨earlier, later, hops, split, last, table⟩
  have itself (a : Nat) : (e.performAll calls).resolve a = a ↔ (∀ hop ∈ hops, hop.1 ≠ a) ∨
      walk (lastHop hops) ((hops.map Prod.fst).dedup.length + 1) a = some a :=
    table.forward_eq_iff.trans leadsTo_self_iff
  refine ⟨earlier, later, hops, split, last, fun _ a _ => itself a, ?_⟩
  intro noReuse m a _ left
  exact (itself a).mpr (Or.inl (last.unleft noReuse left))

/-! ## A place that is taken again -/

/-- A small machine with one method outside the managed partitions. -/
def loneEngine : Engine :=
  (Engine.start false smallCache).perform
    (.install firstMethod ⟨#[1, 2, 3]⟩ .nonProfiled short_first)

/-- A pass that brings the method into the hot partition. -/
def promotion : Call :=
  .runPass FileTree.empty [firstMethod] 0

/-- Another method is compiled after the pass. -/
def succession : List Call :=
  [.install firstMethod ⟨#[1, 2, 3]⟩ .nonProfiled short_first, promotion,
    .install secondMethod ⟨#[4, 5]⟩ .nonProfiled short_second]

theorem current_small :
    Fresh (Engine.start false smallCache) ∧ (Engine.start false smallCache).cache.Separate ∧
      (Engine.start false smallCache).recording = false ∧
      ∃ earlier later hops, succession = earlier ++ later ∧
        LastPass (Engine.start false smallCache) earlier later hops ∧
        Current ((Engine.start false smallCache).performAll earlier)
          ((Engine.start false smallCache).performAll succession) hops :=
  ⟨fresh_small false, separate_small, rfl,
    current_performAll (fresh_small false) separate_small rfl succession⟩

/-- What is free beside the two partitions that the method knows. -/
def loneOutline (nonProfiled hot : List Extent) : Outline :=
  [⟨.nonProfiled, 0x1000000, nonProfiled⟩, ⟨.profiled, 0x2000000, [⟨0, 1048576⟩]⟩,
    ⟨.hot, 0x3000000, hot⟩, ⟨.tmp, 0x4000000, [⟨0, 65536⟩]⟩, ⟨.nonMethod, 0x5000000, [⟨0, 65536⟩]⟩]

def loneStock : Stock where
  placements := [⟨firstMethod, ⟨firstMethod, .nonProfiled, 0x1000000, 3, 64⟩, none, 1⟩]
  count := 1
  outline := loneOutline [⟨64, 917440⟩] [⟨0, 65536⟩]

def promotedStock : Stock where
  placements := [⟨firstMethod, ⟨firstMethod, .hot, 0x3000000, 3, 64⟩, some 0, 1⟩]
  count := 1
  outline := loneOutline [⟨0, 917504⟩] [⟨64, 65472⟩]

theorem stocked_lone : Stocked loneEngine smallSegmentation loneStock :=
  stocked_small.install rfl rfl rfl (by decide) (by decide)

theorem stocked_promoted :
    Stocked (loneEngine.perform promotion) smallSegmentation promotedStock := by
  have swept : Scene.sweep? smallSegmentation (loneStock.opening smallSegmentation [firstMethod])
      [⟨firstMethod, .nonProfiled, .hot, some 0⟩] =
      some ({ loneStock.opening smallSegmentation [firstMethod] with
        placements := promotedStock.placements
        outline := promotedStock.outline
        moved := [firstMethod] }, [], true) := by decide
  have plays : Scene.Plays smallSegmentation
      (loneStock.opening smallSegmentation [firstMethod]) _ := .finish (.through swept)
  exact (stocked_lone.runPass rfl rfl (by decide) plays FileTree.empty 0).1

def promotionOpening : Transit :=
  ((loneEngine.begun [firstMethod]).ranked [firstMethod]).opening 1
    ((loneEngine.begun [firstMethod]).planFor [firstMethod]).moves

theorem run_promotion :
    promotionOpening.run.2.forwarding.entries = [(0x1000000, 0x3000000)] := by
  rw [Transit.run_eq]
  cbv

/-- The table leads from where the method was to where it is. -/
theorem forwarding_promoted :
    (loneEngine.perform promotion).forwarding = promotionOpening.run.2.forwarding.close := by
  rcases runPass_moving (e := loneEngine) stocked_lone.recording FileTree.empty [firstMethod] 0
    with ⟨same, _⟩
  have moves : ¬ ((loneEngine.begun [firstMethod]).planFor [firstMethod]).moves.isEmpty := by
    decide
  rw [reorder_eq, if_neg moves] at same
  exact same.forwarding

/-- The second method is compiled where the first one was, and its address is
resolved to the first one. -/
theorem not_current :
    ¬ ∀ (e : Engine) (calls : List Call), Fresh e → e.cache.Separate → e.recording = false →
      ∀ m a, entry? (e.performAll calls) m = some a → (e.performAll calls).resolve a = a := by
  intro current
  have placed : Stocked ((loneEngine.perform promotion).perform
      (.install secondMethod ⟨#[4, 5]⟩ .nonProfiled short_second)) smallSegmentation
      ⟨promotedStock.placements ++
          [⟨secondMethod, ⟨secondMethod, .nonProfiled, 0x1000000, 2, 64⟩, none, 2⟩],
        2, loneOutline [⟨64, 917440⟩] [⟨64, 65472⟩]⟩ :=
    stocked_promoted.install rfl rfl rfl (by decide) (by decide)
  have is : entry? ((Engine.start false smallCache).performAll succession) secondMethod =
      some 0x1000000 := by
    change Option.map _ (((loneEngine.perform promotion).perform _).placements.find? _) = _
    rw [placed.placements]
    rfl
  have forwarded : ((Engine.start false smallCache).performAll succession).resolve 0x1000000 =
      0x3000000 := by
    rcases stocked_promoted.consistent with ⟨_, consistent⟩
    have kept : ((loneEngine.perform promotion).perform
        (.install secondMethod ⟨#[4, 5]⟩ .nonProfiled short_second)).forwarding =
        (loneEngine.perform promotion).forwarding := consistent.perform_forwarding rfl
    change ((loneEngine.perform promotion).perform _).forwarding.forward 0x1000000 = _
    rw [kept, forwarding_promoted]
    simp [Forwarding.forward, Forwarding.follow, Forwarding.lookup, Forwarding.close,
      run_promotion, List.lookup_cons]
  have wrong := current (Engine.start false smallCache) succession (fresh_small false)
    separate_small rfl secondMethod 0x1000000 is
  exact absurd (forwarded.symm.trans wrong) (by decide)

end CodeLayout.Engine
