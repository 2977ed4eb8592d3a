import CodeLayout.Proofs.Engine.Seeding

/-!
# Gathering

A hot partition that has room for all methods of a seed gathers them.  Whichever of them
are compiled, in whatever order and with whatever other methods between them, each lands
in the hot partition, if its code is no longer than listed.  For nobody else is let in,
and what is installed there leaves the rest of the methods their room.
-/

namespace CodeLayout

/-- The bytes that all listed methods need in a heap, however many these are. -/
def Order.bytes (order : Order) : Nat :=
  (order.methods.map fun entry => Size.padded entry.2).sum

namespace Engine

/-- If the method is listed, its code is no longer than listed; if not, it is not meant
for a managed partition. -/
structure Compilation.Fits (order : Order) (c : Compilation) : Prop where
  size : ∀ entry ∈ order.methods, entry.1 = c.method → c.code.size ≤ entry.2
  unmanaged : c.method ∉ order.ranking → c.requested.isManaged = false

/-- The compilations take no more than an order lists: no listed method is compiled
twice, nor is its code longer than listed.  Other methods may be compiled again. -/
structure Sparing (order : Order) (compilations : List Compilation) : Prop where
  once : ((compilations.map Compilation.method).filter (· ∈ order.ranking)).Nodup
  fits : ∀ c ∈ compilations, c.Fits order

/-- The hot partition is kept for the methods of an order, has room for all of them,
and has no gaps. -/
structure Gathers (order : Order) (e : Engine) : Prop extends Grounded e where
  targets : ∀ m, e.seedTargets.lookup m = if m ∈ order.ranking then some .hot else none
  ample : order.bytes ≤ e.cache.segmentation.capacity .hot
  whole : e.cache.pieces .hot ≤ 1
  residents : ∀ p ∈ e.placements, p.partition = .hot →
    ∃ size, (p.method, size) ∈ order.methods ∧ p.blob.padded ≤ Size.padded size

variable {e : Engine} {order : Order} {compilations : List Compilation} {c : Compilation}
  {m : Method} {code : ByteArray} {requested : Partition} {b : Blob} {cache : Cache}
  {events : List Event}

theorem Sparing.of_append {others : List Compilation}
    (sparing : Sparing order (compilations ++ others)) : Sparing order compilations := by
  rcases sparing with ⟨once, fits⟩
  rw [List.map_append, List.filter_append] at once
  exact ⟨once.of_append_left, fun c member => fits c (List.mem_append_left others member)⟩

/-- A listed method that is compiled was not compiled before. -/
theorem Sparing.new_of_concat (sparing : Sparing order (compilations ++ [c]))
    (listed : c.method ∈ order.ranking) : c.method ∉ compilations.map Compilation.method := by
  have once := sparing.once
  rw [List.map_append, List.filter_append, List.map_singleton, List.filter_singleton,
    decide_eq_true listed, cond_true, ← List.concat_eq_append, List.nodup_concat] at once
  intro early
  exact once.1 (List.mem_filter.mpr ⟨early, decide_eq_true listed⟩)

/-! ## Installations -/

theorem find?_installed (e : Engine) (m : Method) (b : Blob) (cache : Cache)
    (events : List Event) (n : Method) :
    (e.installed m b cache events).placements.find? n =
      if n = m then some ⟨m, b, none, e.compilations + 1⟩ else e.placements.find? n := by
  have erased := Placements.find?_erase e.placements m n
  rw [Placements.find?] at erased
  rw [installed, Placements.find?, List.find?_append, erased]
  by_cases same : n = m
  · simp [same]
  · simp [same, Ne.symm same, Placements.find?]

/-- An installation leaves the placements of other methods alone. -/
theorem Consistent.find?_perform {codes : Method → Option ByteArray}
    (consistent : e.Consistent codes) (other : m ≠ c.method) :
    (e.perform c.call).placements.find? m = e.placements.find? m := by
  rcases consistent.install_cases c.method c.code c.requested with
    ⟨fault, cache, events, made, _⟩ | ⟨b, cache, events, made, _⟩
  · rw [show e.perform c.call = _ from congrArg Prod.snd made]
    rfl
  · rw [show e.perform c.call = _ from congrArg Prod.snd made, find?_installed, if_neg other]

theorem compileAll_concat (e : Engine) (compilations : List Compilation) (c : Compilation) :
    e.compileAll (compilations ++ [c]) = (e.compileAll compilations).perform c.call := by
  rw [Engine.compileAll, List.map_append, List.map_singleton, performAll_concat]
  rfl

namespace Gathers

/-- If the hot partition has room for all methods of a seed, it is kept for them. -/
theorem of_seed (wellFormed : order.WellFormed) (grounded : Grounded e)
    (seeded : e.seedTargets = seedTargetsOf e.cache.segmentation order)
    (ample : order.bytes ≤ e.cache.segmentation.capacity .hot) (nothing : e.placements = []) :
    Gathers order e := by
  rcases grounded.consistent with ⟨_, consistent⟩
  refine ⟨grounded, ?_, ample,
    consistent.pieces_le_one grounded.usable grounded.tidy nothing rfl, by simp [nothing]⟩
  rcases exists_spent e.cache.segmentation order with ⟨shares, budget, spent, targets, listed⟩
  have ranking := ranking_of_listed listed
  have bytes : (shares.map Share.padded).sum = order.bytes := by
    rw [Order.bytes, ← listed, List.map_map]
    rfl
  have budgeted : Plan.budget e.cache.segmentation .hot = e.cache.segmentation.capacity .hot :=
    if_pos grounded.active
  rcases spent.target_eq_hot (by rw [bytes, budgeted]; exact ample) with ⟨_, hot⟩
  intro m
  rw [seeded, ← targets, ← ranking]
  split
  · rename_i isListed
    rcases List.mem_map.mp isListed with ⟨share, member, rfl⟩
    rw [spent.lookup (ranking ▸ wellFormed.distinct) member]
    exact hot share member
  · rename_i unlisted
    cases target : budget.targets.lookup m with
    | none => rfl
    | some q =>
        rcases spent.exists_share target with ⟨share, member, rfl, _⟩
        exact absurd (List.mem_map_of_mem member) unlisted

/-- A failed compilation that leaves the hot partition alone leaves it to the order. -/
theorem refused (gathers : Gathers order e) (performed : e.perform c.call = e.refused cache events)
    (same : cache.heap? .hot = e.cache.heap? .hot) : Gathers order (e.perform c.call) := by
  rcases gathers.consistent with ⟨_, consistent⟩
  rcases consistent.perform c.call with ⟨_, frame⟩
  refine ⟨gathers.toGrounded.perform c.call, ?_, ?_, ?_, ?_⟩
  · rw [performed]
    exact gathers.targets
  · rw [frame.segmentation]
    exact gathers.ample
  · rw [performed, Cache.pieces]
    exact same ▸ gathers.whole
  · rw [performed]
    exact gathers.residents

/-- Events change nothing. -/
theorem report (gathers : Gathers order e) (events : List Event) :
    Gathers order (e.report events) := by
  rcases gathers.consistent with ⟨code, consistent⟩
  exact ⟨⟨⟨code, consistent.held, consistent.numbered⟩, gathers.usable, gathers.tidy,
    gathers.active⟩, gathers.targets, gathers.ample, gathers.whole, gathers.residents⟩

theorem preferred_eq (gathers : Gathers order e) (listed : m ∈ order.ranking)
    (requested : Partition) : e.preferred m requested = .hot := by
  rw [preferred, gathers.targets, if_pos listed, Option.getD_some]

/-- A listed method that is not placed finds room for its listed code. -/
theorem room (gathers : Gathers order e) {size : Nat} (listed : (m, size) ∈ order.methods)
    (new : e.placements.find? m = none) : Size.padded size ≤ e.cache.largestFree .hot := by
  rcases gathers.consistent with ⟨_, consistent⟩
  have methods : (m :: (e.placements.filter fun p => p.partition = .hot).map
      Placement.method).Nodup := by
    refine List.nodup_cons.mpr ⟨fun old => ?_,
      consistent.held.methods.sublist (List.filter_sublist.map _)⟩
    rcases List.mem_map.mp old with ⟨p, kept, sameMethod⟩
    exact Placements.find?_eq_none_iff.mp new p (List.mem_of_mem_filter kept) sameMethod
  have covered : ∀ load ∈ (m, Size.padded size) ::
      (e.placements.filter fun p => p.partition = .hot).map (fun p => (p.method, p.blob.padded)),
      ∃ entry ∈ order.methods.map fun entry => (entry.1, Size.padded entry.2),
        entry.1 = load.1 ∧ load.2 ≤ entry.2 := by
    intro load isLoad
    rcases List.mem_cons.mp isLoad with rfl | old
    · exact ⟨_, List.mem_map_of_mem listed, rfl, Nat.le_refl _⟩
    · rcases List.mem_map.mp old with ⟨p, kept, rfl⟩
      rcases List.mem_filter.mp kept with ⟨isPlacement, here⟩
      rcases gathers.residents p isPlacement (of_decide_eq_true here) with
        ⟨bound, isEntry, within⟩
      exact ⟨_, List.mem_map_of_mem isEntry, rfl, within⟩
  have sums := sum_snd_le_of_covered (by rw [List.map_cons, List.map_map]; exact methods) covered
  rw [List.map_cons, List.sum_cons, List.map_map, List.map_map] at sums
  change Size.padded size + ((e.placements.filter fun p => p.partition = .hot).map
    fun p => p.blob.padded).sum ≤ order.bytes at sums
  have ample := gathers.ample
  rw [gathers.largestFree_of_whole rfl gathers.whole]
  omega

/-- An installation that does not split the hot partition, and puts only listed code
there, leaves it to the methods of the order. -/
theorem installed (gathers : Gathers order e)
    (performed : e.perform c.call = e.installed c.method b cache events)
    (whole : cache.pieces .hot ≤ 1)
    (resident : b.partition = .hot →
      ∃ size, (c.method, size) ∈ order.methods ∧ b.padded ≤ Size.padded size) :
    Gathers order (e.perform c.call) := by
  rcases gathers.consistent with ⟨_, consistent⟩
  rcases consistent.perform c.call with ⟨_, frame⟩
  refine ⟨gathers.toGrounded.perform c.call, ?_, ?_, ?_, ?_⟩
  · rw [performed]
    exact gathers.targets
  · rw [frame.segmentation]
    exact gathers.ample
  · rw [performed]
    exact whole
  · intro placed member here
    rw [performed] at member
    rcases List.mem_append.mp member with old | last
    · exact gathers.residents placed (List.mem_of_mem_filter old) here
    · rw [List.mem_singleton.mp last] at here ⊢
      exact resident here

/-- A listed method that is compiled for the first time lands in the hot partition. -/
theorem perform_listed (gathers : Gathers order e) (wellFormed : order.WellFormed)
    (fits : c.Fits order) (listed : c.method ∈ order.ranking)
    (new : e.placements.find? c.method = none) :
    Gathers order (e.perform c.call) ∧ Lands e c .hot ∧
      ∃ p, (e.perform c.call).placements.find? c.method = some p ∧ p.partition = .hot := by
  rcases gathers.consistent with ⟨_, ⟨held, _⟩⟩
  rcases List.mem_map.mp listed with ⟨⟨m, size⟩, isEntry, rfl⟩
  have short : size + Size.segment ≤ Size.wordLimit :=
    Size.short_of_le_largest (wellFormed.sizes _ isEntry)
  have within := fits.size _ isEntry rfl
  have paddedWithin := Size.padded_le_padded within short
  rcases gathers.allocate_of_room ((gathers.targets c.method).trans (if_pos listed)) rfl
    (Nat.le_trans (Nat.add_le_add_right within Size.segment) short)
    (Nat.le_trans paddedWithin (gathers.room isEntry new)) c.requested with
    ⟨b, cache, inOrder, allocated⟩
  rcases held.stores.valid.gained_of_allocateExact allocated with ⟨gained, isHere⟩
  have made := install_of_new new inOrder
  have performed : e.perform c.call = _ := congrArg Prod.snd made
  have padded : b.padded = Size.padded c.code.size := by
    rw [gained.valid.padded_eq (gained.blobs.mem_iff.mpr List.mem_cons_self), gained.size]
  refine ⟨gathers.installed performed ?_ ?_, ⟨⟨b, congrArg Prod.fst made, isHere⟩, ?_⟩, ?_⟩
  · exact Nat.le_trans (Cache.pieces_of_allocateExact allocated .hot) gathers.whole
  · exact fun _ => ⟨size, isEntry, padded ▸ paddedWithin⟩
  · rw [performed]
    exact List.append_nil _
  · rw [performed, find?_installed, if_pos rfl]
    exact ⟨_, rfl, isHere⟩

/-- Code that is allocated elsewhere leaves the hot partition to the order, if what is
released then is elsewhere as well. -/
theorem installed_elsewhere (gathers : Gathers order e) {p : Partition} {gained : Cache}
    (elsewhere : Partition.hot ≠ p)
    (allocated : e.cache.allocateExact p c.method c.code = (.ok b, gained))
    (same : cache.heap? .hot = gained.heap? .hot)
    (performed : e.perform c.call = e.installed c.method b cache events) :
    Gathers order (e.perform c.call) := by
  rcases gathers.consistent with ⟨_, ⟨held, _⟩⟩
  refine gathers.installed performed ?_ fun here => ?_
  · rw [Cache.pieces, same, Cache.heap?_of_allocateExact allocated elsewhere]
    exact gathers.whole
  · rw [(held.stores.valid.gained_of_allocateExact allocated).2] at here
    exact absurd here.symm elsewhere

/-- A method that is not listed stays out of the hot partition, also if its code is
replaced. -/
theorem perform_other (gathers : Gathers order e) (fits : c.Fits order)
    (unlisted : c.method ∉ order.ranking) : Gathers order (e.perform c.call) := by
  have outside : Partition.hot ∉
      e.cache.segmentation.allocationOrder (e.preferred c.method c.requested) := by
    intro tried
    rw [preferred, gathers.targets, if_neg unlisted, Option.getD_none] at tried
    have unmanaged := Segmentation.isManaged_of_allocationOrder (fits.unmanaged unlisted) tried
    contradiction
  rcases gathers.consistent with ⟨_, consistent⟩
  have searched := consistent.held.stores.valid.searched_allocate
    (e.preferred c.method c.requested) c.method c.code
  have made := installs e c.method c.code c.requested
  generalize result : e.install c.method c.code c.requested = outcome at made
  have performed : e.perform c.call = outcome.2 := congrArg Prod.snd result
  cases made with
  | refused failed =>
      rw [failed] at searched
      exact gathers.refused performed (searched.heap?_eq outside)
  | stuck allocated found failed =>
      rw [allocated] at searched
      -- Code that is placed is released without fail.
      have live := consistent.held.live (Placements.mem_of_find? found).1
      rcases (searched.gained consistent.held.stores.valid rfl).1.release_of_mem live with
        ⟨after, released, _⟩
      cases released.symm.trans failed
  | added allocated _ =>
      rw [allocated] at searched
      rcases searched.found _ rfl with ⟨p, tried, exactly⟩
      exact gathers.installed_elsewhere (fun here => outside (here ▸ tried)) exactly rfl performed
  | replaced allocated found released =>
      rw [allocated] at searched
      rcases searched.found _ rfl with ⟨p, tried, exactly⟩
      refine gathers.installed_elsewhere (fun here => outside (here ▸ tried)) exactly
        (Cache.heap?_of_release released fun here => ?_) performed
      rcases Placements.mem_of_find? found with ⟨isPlacement, sameMethod⟩
      rcases gathers.residents _ isPlacement here.symm with ⟨size, isEntry, _⟩
      exact unlisted (sameMethod ▸ List.mem_map_of_mem (f := Prod.fst) isEntry)

/-- After some compilations the hot partition is still kept for the order, and the listed
methods that are compiled are there. -/
theorem compileAll (gathers : Gathers order e) (wellFormed : order.WellFormed)
    (new : ∀ m ∈ order.ranking, e.placements.find? m = none)
    (sparing : Sparing order compilations) :
    Gathers order (e.compileAll compilations) ∧
      ∀ m ∈ order.ranking,
        (m ∉ compilations.map Compilation.method →
          (e.compileAll compilations).placements.find? m = none) ∧
        (m ∈ compilations.map Compilation.method →
          ∃ p, (e.compileAll compilations).placements.find? m = some p ∧ p.partition = .hot) := by
  induction compilations using List.reverseRecOn with
  | nil => exact ⟨gathers, fun m listed => ⟨fun _ => new m listed, by simp⟩⟩
  | append_singleton compilations c inductionHypothesis =>
      rcases inductionHypothesis sparing.of_append with ⟨gathersMiddle, settled⟩
      rcases gathersMiddle.consistent with ⟨_, consistent⟩
      have fits := sparing.fits c (List.mem_append_right _ List.mem_cons_self)
      have others (m : Method) (other : m ≠ c.method) :
          (m ∈ (compilations ++ [c]).map Compilation.method ↔
            m ∈ compilations.map Compilation.method) ∧
          ((e.compileAll compilations).perform c.call).placements.find? m =
            (e.compileAll compilations).placements.find? m :=
        ⟨by simp [other], consistent.find?_perform other⟩
      rw [compileAll_concat]
      by_cases listed : c.method ∈ order.ranking
      · have stillNew := (settled c.method listed).1 (sparing.new_of_concat listed)
        rcases gathersMiddle.perform_listed wellFormed fits listed stillNew with
          ⟨gathersAfter, _, placed⟩
        refine ⟨gathersAfter, fun m isListed => ?_⟩
        by_cases same : m = c.method
        · cases same
          exact ⟨by simp, fun _ => placed⟩
        · rw [(others m same).1, (others m same).2]
          exact settled m isListed
      · refine ⟨gathersMiddle.perform_other fits listed, fun m isListed => ?_⟩
        have other : m ≠ c.method := fun same => listed (same ▸ isListed)
        rw [(others m other).1, (others m other).2]
        exact settled m isListed

/-- Whenever a listed method is compiled, it lands in the hot partition. -/
theorem lands (gathers : Gathers order e) (wellFormed : order.WellFormed)
    (new : ∀ m ∈ order.ranking, e.placements.find? m = none)
    (sparing : Sparing order (compilations ++ [c])) (listed : c.method ∈ order.ranking) :
    Lands (e.compileAll compilations) c .hot := by
  rcases gathers.compileAll wellFormed new sparing.of_append with ⟨gathersMiddle, settled⟩
  have fits := sparing.fits c (List.mem_append_right _ List.mem_cons_self)
  have stillNew := (settled c.method listed).1 (sparing.new_of_concat listed)
  exact (gathersMiddle.perform_listed wellFormed fits listed stillNew).2.1

end Gathers

end Engine

end CodeLayout
