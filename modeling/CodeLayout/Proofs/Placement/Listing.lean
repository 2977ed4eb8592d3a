import CodeLayout.Proofs.Placement.Greedy

/-!
# Listed rankings

A ranking may name methods that are not installed, and it may repeat itself.  The plan
depends on the listed methods only: listing them makes no difference to it, and the
rank of a method is its index among them.  The moves of a plan carry these ranks, those
without one in front.
-/

namespace CodeLayout.Plan

variable {s : Segmentation} {ps : Placements} {plan : Plan} {m : Method}

theorem mem_listed {ranking : List Method} :
    m ∈ listed ps ranking ↔ m ∈ ranking ∧ ps.contains m = true := by
  rw [listed, List.mem_eraseDups, List.mem_filter]

theorem nodup_listed (ps : Placements) (ranking : List Method) : (listed ps ranking).Nodup :=
  Distinct.nodup_eraseDups _

/-- What is listed is installed and not repeated, so that listing it changes nothing. -/
theorem listed_listed (ps : Placements) (ranking : List Method) :
    listed ps (listed ps ranking) = listed ps ranking := by
  have installed : (listed ps ranking).filter ps.contains = listed ps ranking :=
    List.filter_eq_self.mpr fun _ member => (mem_listed.mp member).2
  rw [listed, installed, Distinct.eraseDups_eq_self (nodup_listed ps ranking)]

theorem hottest_listed (ps : Placements) (ranking : List Method) :
    hottest ps (listed ps ranking) = hottest ps ranking := by
  rw [hottest, listed_listed, hottest]

theorem hottest_concat (ps : Placements) (before : List Method) (m : Method) :
    hottest ps (before ++ [m]) =
      if m ∈ listed ps before then hottest ps before
      else hottest ps before ++ (ps.find? m).toList := by
  rw [hottest, listed_concat, hottest]
  by_cases old : m ∈ listed ps before
  · rw [if_pos old, if_neg (fun holds => holds.2 old)]
  · rw [if_neg old]
    cases found : ps.find? m with
    | none => simp [Placements.contains, found]
    | some placed => simp [Placements.contains, found, old, List.filterMap_append]

/-! ## The plan -/

/-- A method is passed over unless it is new and installed. -/
theorem rankMethod_of_idle (idle : ¬ (ps.contains m = true ∧ m ∉ plan.rankedMethods)) :
    rankMethod s ps plan m = plan := by
  rw [rankMethod]
  by_cases ranked : m ∈ plan.rankedMethods
  · have hasRank : (plan.rankOf m).isSome = true := by
      rw [Option.isSome_iff_ne_none, Ne, rankOf_eq_none_iff]
      exact not_not_intro ranked
    rw [if_pos hasRank]
  · rw [rankOf_eq_none_iff.mpr ranked]
    cases found : ps.find? m with
    | none => rfl
    | some placed => exact absurd ⟨by rw [Placements.contains, found]; rfl, ranked⟩ idle

theorem ofRanks_concat (s : Segmentation) (ps : Placements) (before : List Method) (m : Method) :
    ofRanks s ps (before ++ [m]) = rankMethod s ps (ofRanks s ps before) m := by
  rw [ofRanks, List.foldl_append]
  rfl

theorem ofRanks_listed (s : Segmentation) (ps : Placements) (ranking : List Method) :
    ofRanks s ps (listed ps ranking) = ofRanks s ps ranking := by
  induction ranking using List.reverseRecOn with
  | nil => rfl
  | append_singleton before m inductionHypothesis =>
      rw [listed_concat]
      by_cases new : ps.contains m = true ∧ m ∉ listed ps before
      · rw [if_pos new, ofRanks_concat, ofRanks_concat, inductionHypothesis]
      · rw [if_neg new, inductionHypothesis, ofRanks_concat, rankMethod_of_idle]
        rw [rankedMethods_ofRanks]
        exact new

/-- The plan for a ranking is the plan for the methods listed in it. -/
theorem ofRanking_listed (s : Segmentation) (ps : Placements) (ranking : List Method) :
    ofRanking s ps (listed ps ranking) = ofRanking s ps ranking := by
  have same := ofRanks_listed s ps ranking
  rw [ofRanks, ofRanks] at same
  rw [ofRanking, ofRanking, same]

/-! ## The ranks -/

/-- Looking a key up among numbered keys finds its index. -/
theorem lookup_zipIdx (keys : List Method) (m : Method) (start : Nat) :
    (keys.zipIdx start).lookup m = (keys.idxOf? m).map (· + start) := by
  induction keys generalizing start with
  | nil => rfl
  | cons key rest inductionHypothesis =>
      rw [List.zipIdx_cons, List.lookup_cons, List.idxOf?_cons]
      by_cases same : m = key
      · simp [same]
      · simp only [beq_eq_false_iff_ne.mpr same, beq_eq_false_iff_ne.mpr (Ne.symm same),
          Bool.false_eq_true, if_false, inductionHypothesis, Option.map_map]
        congr 1
        funext index
        simp only [Function.comp_apply]
        omega

theorem ranks_ofRanking (s : Segmentation) (ps : Placements) (ranking : List Method) :
    (ofRanking s ps ranking).ranks = (listed ps ranking).zipIdx := by
  rcases exists_built s ps ranking with ⟨assigned, built⟩
  rw [← rankedMethods_ofRanks s]
  exact built.ranks_eq

/-- The rank of a method is its index among the listed ones. -/
theorem rankOf_ofRanking (s : Segmentation) (ps : Placements) (ranking : List Method)
    (m : Method) : (ofRanking s ps ranking).rankOf m = (listed ps ranking).idxOf? m := by
  rw [rankOf, ranks_ofRanking, lookup_zipIdx]
  simp

/-! ## The ranks of the moves -/

theorem Built.rank_of_move {assigned : List (Placement × Option Partition)}
    (built : Built s ps assigned plan) {move : Move} (member : move ∈ plan.moves) :
    ∃ rank, move.rank = some rank ∧ plan.rankOf move.method = some rank := by
  induction built with
  | empty => contradiction
  | @next assigned plan placed built _ unranked inductionHypothesis =>
      have earlier (old : move ∈ plan.moves) : ∃ rank, move.rank = some rank ∧
          (rankNext s plan placed).rankOf move.method = some rank := by
        rcases inductionHypothesis old with ⟨rank, isRank, ranked⟩
        refine ⟨rank, isRank, ?_⟩
        rw [rankOf] at ranked ⊢
        rw [rankNext, List.lookup_append, ranked, Option.some_or]
      simp only [rankNext] at member
      split at member
      · exact earlier member
      · rcases List.mem_append.mp member with old | new
        · exact earlier old
        · rw [List.mem_singleton.mp new]
          refine ⟨plan.ranks.length, rfl, ?_⟩
          rw [rankOf, rankNext, List.lookup_append, ← rankOf, rankOf_eq_none_iff.mpr unranked,
            Option.none_or]
          simp

/-- Moves without a rank are evictions, the others carry the ranks of their methods. -/
theorem move_cases (s : Segmentation) (ps : Placements) (ranking : List Method) {move : Move}
    (member : move ∈ (ofRanking s ps ranking).moves) :
    ((ofRanking s ps ranking).rankOf move.method = none ∧ ∃ p ∈ ps,
        p.partition.isManaged = true ∧ move = ⟨p.method, p.partition, s.fallback, none⟩) ∨
      ∃ rank, move.rank = some rank ∧
        (ofRanking s ps ranking).rankOf move.method = some rank := by
  rw [moves_ofRanking] at member
  rcases List.mem_append.mp member with evicted | isRanked
  · rcases mem_evictions.mp evicted with ⟨p, isPlacement, managed, unranked, rfl⟩
    exact Or.inl ⟨rankOf_eq_none_iff.mpr unranked, p, isPlacement, managed, rfl⟩
  · rcases exists_built s ps ranking with ⟨assigned, built⟩
    exact Or.inr (built.rank_of_move isRanked)

theorem evictions_inFront (s : Segmentation) (ps : Placements) (ranking : List Method) :
    (ofRanking s ps ranking).moves.Pairwise fun a b => b.rank = none → a.rank = none := by
  have unranked : ∀ move ∈ evictions s ps (ofRanks s ps ranking), move.rank = none := by
    intro move evicted
    rcases mem_evictions.mp evicted with ⟨p, _, _, _, rfl⟩
    rfl
  have ranked : ∀ move ∈ (ofRanks s ps ranking).moves, move.rank ≠ none := by
    intro move isRanked
    rcases exists_built s ps ranking with ⟨assigned, built⟩
    rcases built.rank_of_move isRanked with ⟨rank, isRank, _⟩
    simp [isRank]
  rw [moves_ofRanking, List.pairwise_append]
  refine ⟨?_, ?_, ?_⟩
  · exact List.pairwise_of_forall_mem_list fun a first _ _ _ => unranked a first
  · exact List.pairwise_of_forall_mem_list fun _ _ b second isNone =>
      absurd isNone (ranked b second)
  · exact fun a first _ _ _ => unranked a first

end CodeLayout.Plan
