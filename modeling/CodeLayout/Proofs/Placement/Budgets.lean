import CodeLayout.Proofs.Placement.Greedy
import CodeLayout.Proofs.Size.Checked

/-!
# Planning in words

A plan adds up the bytes of the ranked methods, of those in the hot partition and of those
in the tmp one.  All three are sums over different placements, so that none of them leaves
the word if the bytes of all placements together do not.
-/

namespace CodeLayout.Plan

variable {s : Segmentation} {ps : Placements} {plan : Plan} {placed : Placement}
  {assigned : List (Placement × Option Partition)}

/-- Give the next rank to a method that is wanted in a partition. -/
def rank (p : Plan) (placed : Placement) (target : Partition) (needed hotUsed tmpUsed : Nat) :
    Plan where
  moves :=
    if target = placed.partition then p.moves
    else p.moves ++ [⟨placed.method, placed.partition, target, some p.ranks.length⟩]
  ranks := p.ranks ++ [(placed.method, p.ranks.length)]
  needed := needed
  hotUsed := hotUsed
  tmpUsed := tmpUsed

/-- Give the next rank to an installed method, adding up in words. -/
def rankNext? (s : Segmentation) (p : Plan) (placed : Placement) : Option Plan := do
  let needed ← Size.add? p.needed placed.blob.padded
  let hot ← Size.add? p.hotUsed placed.blob.padded
  if hot ≤ budget s .hot then return p.rank placed .hot needed hot p.tmpUsed
  let tmp ← Size.add? p.tmpUsed placed.blob.padded
  if tmp ≤ budget s .tmp then return p.rank placed .tmp needed p.hotUsed tmp
  return p.rank placed (if placed.partition.isManaged then s.fallback else placed.partition)
    needed p.hotUsed p.tmpUsed

/-- Go on with the next method of a ranking, adding up in words. -/
def rankMethod? (s : Segmentation) (placements : Placements) (p : Plan) (m : Method) :
    Option Plan :=
  if (p.rankOf m).isSome then some p
  else match placements.find? m with
    | some placed => rankNext? s p placed
    | none => some p

/-- The plan for a ranking, adding up in words. -/
def ofRanking? (s : Segmentation) (placements : Placements) (ranking : List Method) :
    Option Plan :=
  (ranking.foldlM (rankMethod? s placements) empty).map fun p =>
    { p with moves := evictions s placements p ++ p.moves }

/-- The budgets are used for methods that are needed. -/
theorem Built.used_le_needed (built : Built s ps assigned plan) :
    plan.hotUsed ≤ plan.needed ∧ plan.tmpUsed ≤ plan.needed := by
  induction built with
  | empty => exact ⟨Nat.le_refl _, Nat.le_refl _⟩
  | next _ _ _ inductionHypothesis =>
      rcases inductionHypothesis with ⟨hot, tmp⟩
      constructor
      · simp only [rankNext]
        split <;> omega
      · simp only [rankNext]
        split
        · omega
        · split <;> omega

/-- Different placements need no more than all of them. -/
theorem Built.needed_le (built : Built s ps assigned plan) : plan.needed ≤ bytes ps := by
  rw [built.needed_eq]
  refine bytes_le_of_subset built.nodup fun p member => ?_
  rcases List.mem_map.mp member with ⟨a, isAssigned, rfl⟩
  exact built.installed a isAssigned

theorem rankNext?_eq (used : plan.hotUsed ≤ plan.needed ∧ plan.tmpUsed ≤ plan.needed)
    (word : plan.needed + placed.blob.padded < Size.wordLimit) :
    rankNext? s plan placed = some (rankNext s plan placed) := by
  have hot : plan.hotUsed + placed.blob.padded < Size.wordLimit := by omega
  have tmp : plan.tmpUsed + placed.blob.padded < Size.wordLimit := by omega
  rw [rankNext?, Size.add?_eq word, Size.add?_eq hot, Size.add?_eq tmp]
  simp only [Option.bind_eq_bind, Option.bind_some, rankNext, choose]
  split
  · rfl
  · split <;> rfl

/-- The next sum is one of different placements again. -/
theorem rankMethod?_eq (built : Built s ps assigned plan) (word : bytes ps < Size.wordLimit)
    (m : Method) :
    rankMethod? s ps plan m = some (rankMethod s ps plan m) ∧
      ∃ assigned, Built s ps assigned (rankMethod s ps plan m) := by
  rw [rankMethod?, rankMethod]
  split
  · exact ⟨rfl, assigned, built⟩
  · rename_i unranked
    cases found : ps.find? m with
    | none => exact ⟨rfl, assigned, built⟩
    | some placed =>
        rcases Placements.mem_of_find? found with ⟨member, rfl⟩
        have noRank : placed.method ∉ plan.rankedMethods := by
          rw [← rankOf_eq_none_iff]
          simpa using unranked
        have next := built.next member noRank
        have sum : plan.needed + placed.blob.padded < Size.wordLimit :=
          Nat.lt_of_le_of_lt next.needed_le word
        exact ⟨rankNext?_eq built.used_le_needed sum, _, next⟩

/-- No sum of a plan leaves the word if the bytes of all placements do not. -/
theorem ofRanking?_eq (word : bytes ps < Size.wordLimit) (ranking : List Method) :
    ofRanking? s ps ranking = some (ofRanking s ps ranking) := by
  have ranked : ranking.foldlM (rankMethod? s ps) empty =
      some (ranking.foldl (rankMethod s ps) empty) := by
    refine Size.foldlM_eq_some (fun plan => ∃ assigned, Built s ps assigned plan)
      ⟨[], .empty⟩ ?_
    rintro plan m _ ⟨assigned, built⟩
    exact rankMethod?_eq built word m
  rw [ofRanking?, ranked]
  rfl

end CodeLayout.Plan
