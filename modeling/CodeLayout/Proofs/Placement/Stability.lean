import CodeLayout.Proofs.Placement.Greedy

/-!
# Applied plans

Planning has come to rest once a plan is applied: from the placements that it asks
for, the same ranking makes the same assignments, and nobody is to move.  The
budgets depend on the padded sizes only, and where an assignment has led, it leads
again.
-/

namespace CodeLayout.Plan

variable {s : Segmentation} {ps others : Placements} {ranking : List Method} {plan : Plan}

/-- Each method of a plan is where the plan wants it.  Addresses, ranks and the order
are free. -/
def Applied (plan : Plan) (ps others : Placements) : Prop :=
  (others.map fun q => (q.method, q.blob.padded, q.partition)).Perm
    (ps.map fun p => (p.method, p.blob.padded, plan.destination p))

instance (plan : Plan) (ps others : Placements) : Decidable (plan.Applied ps others) :=
  inferInstanceAs (Decidable (List.Perm _ _))

namespace Applied

theorem methods (applied : plan.Applied ps others) :
    (others.map Placement.method).Perm (ps.map Placement.method) := by
  have methods := applied.map Prod.fst
  rw [List.map_map, List.map_map] at methods
  exact methods

theorem nodup (applied : plan.Applied ps others) (nodup : (ps.map Placement.method).Nodup) :
    (others.map Placement.method).Nodup :=
  applied.methods.nodup_iff.mpr nodup

/-- What is placed now has come from a placement of the same method. -/
theorem origin (applied : plan.Applied ps others) {q : Placement} (member : q ∈ others) :
    ∃ p ∈ ps, p.method = q.method ∧ p.blob.padded = q.blob.padded ∧
      plan.destination p = q.partition := by
  have placed := applied.subset (List.mem_map_of_mem member)
  rcases List.mem_map.mp placed with ⟨p, isPlacement, same⟩
  have sameRest := congrArg Prod.snd same
  exact ⟨p, isPlacement, congrArg Prod.fst same, congrArg Prod.fst sameRest,
    congrArg Prod.snd sameRest⟩

theorem find? (applied : plan.Applied ps others) (nodup : (ps.map Placement.method).Nodup)
    (m : Method) :
    (others.find? m).map (fun q => q.blob.padded) = (ps.find? m).map fun p => p.blob.padded := by
  cases found : others.find? m with
  | none =>
      have absent : ps.find? m = none := by
        rw [Placements.find?_eq_none_iff]
        rintro p member rfl
        rcases List.mem_map.mp (applied.methods.symm.subset (List.mem_map_of_mem member)) with
          ⟨q, isPlacement, sameMethod⟩
        exact Placements.find?_eq_none_iff.mp found q isPlacement sameMethod
      rw [absent]
  | some q =>
      rcases Placements.mem_of_find? found with ⟨member, rfl⟩
      rcases applied.origin member with ⟨p, isPlacement, sameMethod, padded, _⟩
      rw [← sameMethod, Placements.find?_of_mem nodup isPlacement, Option.map_some,
        Option.map_some, padded]

end Applied

/-- The bytes of placements that are found under the same methods. -/
theorem bytes_filterMap (ps : Placements) (methods : List Method) :
    bytes (methods.filterMap ps.find?) =
      (methods.filterMap fun m => (ps.find? m).map fun p => p.blob.padded).sum := by
  rw [bytes, List.map_filterMap]

/-- A plan that is applied stays as it is, without its moves. -/
theorem ofRanking_of_applied (nodup : (ps.map Placement.method).Nodup)
    (applied : (ofRanking s ps ranking).Applied ps others) :
    ofRanking s others ranking = { ofRanking s ps ranking with moves := [] } := by
  have sizes := applied.find? nodup
  have nodupOther := applied.nodup nodup
  rcases built_ofSizes (s := s) sizes ranking with
    ⟨assigned, assignedOther, built, builtOther, agrees, sameKeys⟩
  have moves : (ofRanking s others ranking).moves = [] := by
    apply List.eq_nil_iff_forall_not_mem.mpr
    intro move member
    rcases mem_moves_ofRanking builtOther member with ⟨q, isPlacement, elsewhere, _⟩
    rcases applied.origin isPlacement with ⟨p, wasPlacement, sameMethod, _, arrived⟩
    apply elsewhere
    rw [← arrived, destination_eq nodup built wasPlacement, wanted, wanted, sameKeys, sameMethod,
      ← arrived, destination_eq nodup built wasPlacement, wanted, sameMethod, aim_aim]
  have needed : (ofRanking s others ranking).needed = (ofRanking s ps ranking).needed := by
    have sameMethods : (ofRanks s others ranking).rankedMethods =
        (ofRanks s ps ranking).rankedMethods := congrArg (List.map Prod.fst) agrees.ranks
    have total := builtOther.needed_eq
    rw [builtOther.placements_eq nodupOther, bytes_filterMap, sameMethods] at total
    simp only [sizes] at total
    rw [← bytes_filterMap, ← built.placements_eq nodup, ← built.needed_eq] at total
    exact total
  change Plan.mk _ _ _ _ _ = Plan.mk _ _ _ _ _
  rw [Plan.mk.injEq]
  exact ⟨moves, agrees.ranks, needed, agrees.hotUsed, agrees.tmpUsed⟩

/-- The methods of the crowded partitions where the plan wants them, placed anew and in
another order. -/
def spreadPlacements : Placements :=
  [placedAt "first" .hot 0 96, placedAt "filler" .hot 96 32, placedAt "second" .tmp 0 64,
    placedAt "large" .nonProfiled 0 96, placedAt "stale" .nonProfiled 96 32]

theorem ofRanking_of_applied_spread :
    (crowdedPlacements.map Placement.method).Nodup ∧
      (ofRanking crowdedSegmentation crowdedPlacements crowdedRanking).Applied crowdedPlacements
        spreadPlacements ∧
      ofRanking crowdedSegmentation spreadPlacements crowdedRanking =
        { ofRanking crowdedSegmentation crowdedPlacements crowdedRanking with moves := [] } := by
  have nodup : (crowdedPlacements.map Placement.method).Nodup := by decide
  have applied : (ofRanking crowdedSegmentation crowdedPlacements crowdedRanking).Applied
      crowdedPlacements spreadPlacements := by decide
  exact ⟨nodup, applied, ofRanking_of_applied nodup applied⟩

end CodeLayout.Plan
