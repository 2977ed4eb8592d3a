import CodeLayout.Proofs.Placement.Lookup

/-!
# Plans

A plan moves every method at most once.  A method without a rank is planned to
leave the managed partitions, if it is in one, and to stay where it is
otherwise.
-/

namespace CodeLayout

namespace Plan

variable {s : Segmentation} {ps : Placements} {ranking : List Method} {plan : Plan}
  {m : Method}

/-- The methods that have a rank. -/
def rankedMethods (p : Plan) : List Method :=
  p.ranks.map Prod.fst

theorem lookup_eq_none_iff_keys {α : Type} {entries : List (Method × α)} :
    entries.lookup m = none ↔ m ∉ entries.map Prod.fst := by
  rw [List.lookup_eq_none_iff]
  constructor
  · intro absent member
    rcases List.mem_map.mp member with ⟨entry, isEntry, rfl⟩
    have differs := absent entry isEntry
    simp at differs
  · intro absent entry isEntry
    have differs : m ≠ entry.1 := by
      rintro rfl
      exact absent (List.mem_map_of_mem isEntry)
    simpa using differs

theorem rankOf_eq_none_iff : plan.rankOf m = none ↔ m ∉ plan.rankedMethods :=
  lookup_eq_none_iff_keys

/-- Each method of a ranking gets one rank at most, and moves for its rank
only. -/
structure Ranked (ranking : List Method) (plan : Plan) : Prop where
  nodup : plan.rankedMethods.Nodup
  fromRanking : ∀ m ∈ plan.rankedMethods, m ∈ ranking
  moves : (plan.moves.map Move.method).Sublist plan.rankedMethods

theorem ranked_empty (ranking : List Method) : Ranked ranking empty where
  nodup := List.nodup_nil
  fromRanking m member := by contradiction
  moves := List.Sublist.refl _

theorem rankedMethods_rankNext (s : Segmentation) (plan : Plan) (placed : Placement) :
    (rankNext s plan placed).rankedMethods = plan.rankedMethods ++ [placed.method] := by
  simp [rankedMethods, rankNext]

theorem Ranked.rankNext (ranked : Ranked ranking plan) {placed : Placement}
    (unranked : placed.method ∉ plan.rankedMethods) (listed : placed.method ∈ ranking) :
    Ranked ranking (rankNext s plan placed) := by
  constructor
  · rw [rankedMethods_rankNext, ← List.concat_eq_append]
    exact ranked.nodup.concat unranked
  · intro m member
    rw [rankedMethods_rankNext] at member
    rcases List.mem_append.mp member with old | new
    · exact ranked.fromRanking m old
    · rw [List.mem_singleton.mp new]
      exact listed
  · rw [rankedMethods_rankNext]
    simp only [Plan.rankNext]
    split
    · exact ranked.moves.trans (List.sublist_append_left _ _)
    · rw [List.map_append]
      exact ranked.moves.append (List.Sublist.refl _)

theorem Ranked.rankMethod (ranked : Ranked ranking plan) (listed : m ∈ ranking) :
    Ranked ranking (rankMethod s ps plan m) := by
  rw [Plan.rankMethod]
  split
  · exact ranked
  · rename_i unranked
    have noRank : m ∉ plan.rankedMethods := by
      rw [← rankOf_eq_none_iff]
      simpa using unranked
    split
    · rename_i placed found
      rcases Placements.mem_of_find? found with ⟨_, rfl⟩
      exact ranked.rankNext noRank listed
    · exact ranked

theorem ranked_foldl (methods : List Method) (listed : ∀ m ∈ methods, m ∈ ranking)
    (ranked : Ranked ranking plan) : Ranked ranking (methods.foldl (rankMethod s ps) plan) := by
  induction methods generalizing plan with
  | nil => exact ranked
  | cons m rest inductionHypothesis =>
      apply inductionHypothesis
      · intro n member
        exact listed n (List.mem_cons_of_mem m member)
      · exact ranked.rankMethod (listed m List.mem_cons_self)

/-- What the ranking alone asks for, before the evictions. -/
def ofRanks (s : Segmentation) (ps : Placements) (ranking : List Method) : Plan :=
  ranking.foldl (rankMethod s ps) empty

theorem ranked_ofRanks (s : Segmentation) (ps : Placements) (ranking : List Method) :
    Ranked ranking (ofRanks s ps ranking) :=
  ranked_foldl ranking (fun _ member => member) (ranked_empty ranking)

theorem moves_ofRanking (s : Segmentation) (ps : Placements) (ranking : List Method) :
    (ofRanking s ps ranking).moves =
      evictions s ps (ofRanks s ps ranking) ++ (ofRanks s ps ranking).moves :=
  rfl

/-- The methods evicted are placed in a managed partition and have no rank. -/
theorem mem_evictions {move : Move} :
    move ∈ evictions s ps plan ↔
      ∃ p ∈ ps, p.partition.isManaged = true ∧ p.method ∉ plan.rankedMethods ∧
        move = ⟨p.method, p.partition, s.fallback, none⟩ := by
  constructor
  · intro member
    rcases List.mem_map.mp member with ⟨p, kept, rfl⟩
    rcases List.mem_filter.mp kept with ⟨isPlacement, holds⟩
    rw [Bool.and_eq_true, Option.isNone_iff_eq_none, rankOf_eq_none_iff] at holds
    exact ⟨p, isPlacement, holds.1, holds.2, rfl⟩
  · rintro ⟨p, isPlacement, managed, unranked, rfl⟩
    have kept : (p.partition.isManaged && (plan.rankOf p.method).isNone) = true := by
      rw [Bool.and_eq_true, Option.isNone_iff_eq_none, rankOf_eq_none_iff]
      exact ⟨managed, unranked⟩
    exact List.mem_map.mpr ⟨p, List.mem_filter.mpr ⟨isPlacement, kept⟩, rfl⟩

/-- No method is to be moved twice. -/
theorem moves_nodup (nodup : (ps.map Placement.method).Nodup) (s : Segmentation)
    (ranking : List Method) : ((ofRanking s ps ranking).moves.map Move.method).Nodup := by
  have ranked := ranked_ofRanks s ps ranking
  have evicted : ((evictions s ps (ofRanks s ps ranking)).map Move.method).Nodup := by
    rw [evictions, List.map_map]
    exact nodup.sublist (List.filter_sublist.map _)
  rw [moves_ofRanking, List.map_append]
  apply evicted.append (ranked.nodup.sublist ranked.moves)
  intro m isEvicted isRanked
  rcases List.mem_map.mp isEvicted with ⟨move, isEviction, rfl⟩
  rcases mem_evictions.mp isEviction with ⟨p, _, _, unranked, rfl⟩
  exact unranked (ranked.moves.subset isRanked)

theorem targetOf_of_mem (nodup : (plan.moves.map Move.method).Nodup) {move : Move}
    (member : move ∈ plan.moves) : plan.targetOf move.method = some move.target := by
  cases found : plan.moves.find? fun other => other.method = move.method with
  | none =>
      have differs := List.find?_eq_none.mp found move member
      simp at differs
  | some other =>
      have sameMethod : other.method = move.method := by simpa using List.find?_some found
      have same := List.inj_on_of_nodup_map nodup (List.mem_of_find?_eq_some found) member
        sameMethod
      rw [targetOf, found, same, Option.map_some]

theorem exists_move_of_targetOf {p : Partition} (planned : plan.targetOf m = some p) :
    ∃ move ∈ plan.moves, move.method = m := by
  rcases Option.map_eq_some_iff.mp planned with ⟨move, found, _⟩
  exact ⟨move, List.mem_of_find?_eq_some found, by simpa using List.find?_some found⟩

/-- Where a method is to be: where its move leads, or where it is. -/
def destination (plan : Plan) (p : Placement) : Partition :=
  (plan.targetOf p.method).getD p.partition

theorem isManaged_fallback (s : Segmentation) : s.fallback.isManaged = false := by
  unfold Segmentation.fallback
  split <;> rfl

/-- A method without a rank is to be outside the managed partitions. -/
theorem destination_of_unranked (nodup : (ps.map Placement.method).Nodup) {p : Placement}
    (member : p ∈ ps) (unlisted : p.method ∉ ranking) :
    ((ofRanking s ps ranking).destination p).isManaged = false := by
  have ranked := ranked_ofRanks s ps ranking
  have unranked : p.method ∉ (ofRanks s ps ranking).rankedMethods := fun isRanked =>
    unlisted (ranked.fromRanking _ isRanked)
  by_cases managed : p.partition.isManaged = true
  · have evicted : ⟨p.method, p.partition, s.fallback, none⟩ ∈ (ofRanking s ps ranking).moves := by
      rw [moves_ofRanking]
      exact List.mem_append_left _ (mem_evictions.mpr ⟨p, member, managed, unranked, rfl⟩)
    have planned := targetOf_of_mem (moves_nodup nodup s ranking) evicted
    rw [destination, planned]
    exact isManaged_fallback s
  · have stays : (ofRanking s ps ranking).targetOf p.method = none := by
      cases planned : (ofRanking s ps ranking).targetOf p.method with
      | none => rfl
      | some q =>
          rcases exists_move_of_targetOf planned with ⟨move, isMove, sameMethod⟩
          rw [moves_ofRanking] at isMove
          rcases List.mem_append.mp isMove with evicted | isRanked
          · rcases mem_evictions.mp evicted with ⟨other, isPlacement, otherManaged, _, rfl⟩
            rw [List.inj_on_of_nodup_map nodup isPlacement member sameMethod] at otherManaged
            exact absurd otherManaged managed
          · have hasRank := ranked.moves.subset (List.mem_map_of_mem isRanked)
            rw [sameMethod] at hasRank
            exact absurd hasRank unranked
    rw [destination, stays]
    simpa using managed

end Plan

end CodeLayout
