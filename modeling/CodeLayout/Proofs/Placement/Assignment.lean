import CodeLayout.Proofs.Placement.Planning
import CodeLayout.Proofs.Cache.Usable
import Mathlib.Algebra.Ring.Nat

/-!
# Assignments of a plan

A plan goes through the ranking and assigns each method to a managed partition
as long as the budgets last.  The assignments depend on the order and on the
padded sizes only, not on where the methods are; they say together with the
present partitions where each method is to be.
-/

namespace CodeLayout.Plan

variable {s : Segmentation} {ps others : Placements} {ranking : List Method} {plan : Plan}
  {m : Method} {assigned : List (Placement × Option Partition)}

/-- The managed partition whose budget a padded size still fits. -/
def assign (s : Segmentation) (plan : Plan) (size : Nat) : Option Partition :=
  if plan.hotUsed + size ≤ budget s .hot then some .hot
  else if plan.tmpUsed + size ≤ budget s .tmp then some .tmp
  else none

theorem budget_le_capacity (s : Segmentation) (p : Partition) : budget s p ≤ s.capacity p := by
  rw [budget]
  split
  · exact Nat.le_refl _
  · exact Nat.zero_le _

/-- Where a method goes that is assigned to no managed partition. -/
def outside (s : Segmentation) (current : Partition) : Partition :=
  if current.isManaged then s.fallback else current

/-- Where an assignment leads from a partition. -/
def aim (s : Segmentation) (assignment : Option Partition) (current : Partition) : Partition :=
  assignment.getD (outside s current)

theorem choose_eq (s : Segmentation) (plan : Plan) (current : Partition) (size : Nat) :
    plan.choose s current size = aim s (plan.assign s size) current := by
  unfold choose aim assign outside
  split
  · rfl
  · split <;> rfl

theorem isManaged_outside (s : Segmentation) (current : Partition) :
    (outside s current).isManaged = false := by
  unfold outside
  split
  · exact isManaged_fallback s
  · rename_i unmanaged
    simpa using unmanaged

/-- Outside the managed partitions nobody is sent away. -/
theorem outside_of_unmanaged {p : Partition} (unmanaged : p.isManaged = false) :
    outside s p = p := by
  rw [outside, unmanaged]
  rfl

/-- Where an assignment has led, it leads again. -/
theorem aim_aim (s : Segmentation) (assignment : Option Partition) (p : Partition) :
    aim s assignment (aim s assignment p) = aim s assignment p := by
  cases assignment with
  | none => exact outside_of_unmanaged (isManaged_outside s p)
  | some _ => rfl

theorem isManaged_of_assign {size : Nat} {p : Partition} (assigns : plan.assign s size = some p) :
    p.isManaged = true ∧ size ≤ budget s p := by
  unfold assign at assigns
  split at assigns
  · rename_i fits
    cases assigns
    exact ⟨rfl, Nat.le_trans (Nat.le_add_left _ _) fits⟩
  · split at assigns
    · rename_i fits
      cases assigns
      exact ⟨rfl, Nat.le_trans (Nat.le_add_left _ _) fits⟩
    · contradiction

/-! ## Plans built from assignments -/

/-- How the ranked part of a plan is built, one assignment after another. -/
inductive Built (s : Segmentation) (ps : Placements) :
    List (Placement × Option Partition) → Plan → Prop
  | empty : Built s ps [] empty
  | next {assigned : List (Placement × Option Partition)} {plan : Plan} {placed : Placement}
      (built : Built s ps assigned plan) (member : placed ∈ ps)
      (unranked : placed.method ∉ plan.rankedMethods) :
      Built s ps (assigned ++ [(placed, plan.assign s placed.blob.padded)])
        (rankNext s plan placed)

/-- What an assignment says without regard to where its method is. -/
def keys (assigned : List (Placement × Option Partition)) : List (Method × Option Partition) :=
  assigned.map fun a => (a.1.method, a.2)

/-- The placements are for the same methods with the same padded sizes. -/
def SameSizes (ps others : Placements) : Prop :=
  others.map (fun p => (p.method, p.blob.padded)) = ps.map fun p => (p.method, p.blob.padded)

theorem SameSizes.find? (same : SameSizes ps others) (m : Method) :
    (others.find? m).map (fun p => p.blob.padded) = (ps.find? m).map fun p => p.blob.padded := by
  induction ps generalizing others with
  | nil =>
      rw [List.map_eq_nil_iff.mp same]
  | cons p rest inductionHypothesis =>
      cases others with
      | nil => contradiction
      | cons q rest' =>
          rcases List.cons.inj same with ⟨head, tail⟩
          have sameMethod : q.method = p.method := congrArg Prod.fst head
          have samePadded : q.blob.padded = p.blob.padded := congrArg Prod.snd head
          have later := inductionHypothesis tail
          simp only [Placements.find?, List.find?_cons, sameMethod] at later ⊢
          split
          · simp [samePadded]
          · exact later

/-- Two plans that have assigned the same budgets so far. -/
structure Agrees (p q : Plan) : Prop where
  ranks : q.ranks = p.ranks
  hotUsed : q.hotUsed = p.hotUsed
  tmpUsed : q.tmpUsed = p.tmpUsed

/-- Going through a ranking builds plans; if the same methods are found with the same
sizes, they agree, and the assignments are the same. -/
theorem built_foldl {others : Placements}
    (sizes : ∀ m, (others.find? m).map (fun p => p.blob.padded) =
      (ps.find? m).map fun p => p.blob.padded) (methods : List Method)
    {p q : Plan} {first second : List (Placement × Option Partition)}
    (built : Built s ps first p) (builtOther : Built s others second q) (agrees : Agrees p q)
    (sameKeys : keys second = keys first) :
    ∃ assigned assignedOther,
      Built s ps assigned (methods.foldl (rankMethod s ps) p) ∧
      Built s others assignedOther (methods.foldl (rankMethod s others) q) ∧
      Agrees (methods.foldl (rankMethod s ps) p) (methods.foldl (rankMethod s others) q) ∧
      keys assignedOther = keys assigned := by
  induction methods generalizing p q first second with
  | nil => exact ⟨first, second, built, builtOther, agrees, sameKeys⟩
  | cons m rest inductionHypothesis =>
      rw [List.foldl_cons, List.foldl_cons, rankMethod, rankMethod]
      have sameRank : q.rankOf m = p.rankOf m := by
        rw [rankOf, rankOf, agrees.ranks]
      rw [sameRank]
      split
      · exact inductionHypothesis built builtOther agrees sameKeys
      · rename_i unranked
        have noRank : m ∉ p.rankedMethods := by
          rw [← rankOf_eq_none_iff]
          simpa using unranked
        have noRankOther : m ∉ q.rankedMethods := by
          rw [rankedMethods, agrees.ranks]
          exact noRank
        have size := sizes m
        cases found : ps.find? m with
        | none =>
            rw [found, Option.map_none, Option.map_eq_none_iff] at size
            rw [size]
            exact inductionHypothesis built builtOther agrees sameKeys
        | some placed =>
            rw [found, Option.map_some] at size
            rcases Option.map_eq_some_iff.mp size with ⟨other, foundOther, padded⟩
            rw [foundOther]
            rcases Placements.mem_of_find? found with ⟨member, rfl⟩
            rcases Placements.mem_of_find? foundOther with ⟨memberOther, sameMethod⟩
            rw [← sameMethod] at noRankOther
            apply inductionHypothesis (built.next member noRank)
              (builtOther.next memberOther noRankOther)
            · constructor
              · simp only [rankNext, agrees.ranks, sameMethod]
              · simp only [rankNext, agrees.hotUsed, padded]
              · simp only [rankNext, agrees.hotUsed, agrees.tmpUsed, padded]
            · simp only [keys, List.map_append, List.map_cons, List.map_nil, sameMethod, assign,
                agrees.hotUsed, agrees.tmpUsed, padded]
              exact congrArg (· ++ _) sameKeys

/-- The plans for placements that are found with the same sizes agree. -/
theorem built_ofSizes
    (sizes : ∀ m, (others.find? m).map (fun p => p.blob.padded) =
      (ps.find? m).map fun p => p.blob.padded) (ranking : List Method) :
    ∃ assigned assignedOther, Built s ps assigned (ofRanks s ps ranking) ∧
      Built s others assignedOther (ofRanks s others ranking) ∧
      Agrees (ofRanks s ps ranking) (ofRanks s others ranking) ∧
      keys assignedOther = keys assigned :=
  built_foldl sizes ranking .empty .empty ⟨rfl, rfl, rfl⟩ rfl

/-- The plans for two lists of placements with the same sizes have the same ranks
and the same assignments. -/
theorem built_ofRanks (same : SameSizes ps others) (ranking : List Method) :
    ∃ assigned assignedOther, Built s ps assigned (ofRanks s ps ranking) ∧
      Built s others assignedOther (ofRanks s others ranking) ∧
      (ofRanks s others ranking).ranks = (ofRanks s ps ranking).ranks ∧
      keys assignedOther = keys assigned := by
  rcases built_ofSizes (s := s) same.find? ranking with
    ⟨assigned, assignedOther, built, builtOther, agrees, sameKeys⟩
  exact ⟨assigned, assignedOther, built, builtOther, agrees.ranks, sameKeys⟩

/-- The assignments behind the plan for a ranking. -/
theorem exists_built (s : Segmentation) (ps : Placements) (ranking : List Method) :
    ∃ assigned, Built s ps assigned (ofRanks s ps ranking) := by
  have same : SameSizes ps ps := rfl
  rcases built_ofRanks (s := s) same ranking with ⟨assigned, _, built, _⟩
  exact ⟨assigned, built⟩

/-- The padded bytes that are assigned to a partition. -/
def assignedTo (assigned : List (Placement × Option Partition)) (p : Partition) : Nat :=
  ((assigned.filter fun a => a.2 = some p).map fun a => a.1.blob.padded).sum

/-- The move that an assignment calls for. -/
def moveFor (s : Segmentation) (a : Placement × Option Partition) (rank : Option Nat) : Move :=
  ⟨a.1.method, a.1.partition, aim s a.2 a.1.partition, rank⟩

namespace Built

theorem rankedMethods_eq (built : Built s ps assigned plan) :
    plan.rankedMethods = assigned.map fun a => a.1.method := by
  induction built with
  | empty => rfl
  | next _ _ _ inductionHypothesis =>
      rw [rankedMethods_rankNext, inductionHypothesis, List.map_append]
      rfl

theorem keys_eq (built : Built s ps assigned plan) :
    (keys assigned).map Prod.fst = plan.rankedMethods := by
  rw [built.rankedMethods_eq, keys, List.map_map]
  rfl

theorem installed (built : Built s ps assigned plan) : ∀ a ∈ assigned, a.1 ∈ ps := by
  induction built with
  | empty => simp
  | next _ member _ inductionHypothesis =>
      intro a isAssigned
      rcases List.mem_append.mp isAssigned with old | new
      · exact inductionHypothesis a old
      · rw [List.mem_singleton.mp new]
        exact member

theorem isManaged (built : Built s ps assigned plan) {a : Placement × Option Partition}
    (isAssigned : a ∈ assigned) {p : Partition} (leads : a.2 = some p) :
    p.isManaged = true ∧ a.1.blob.padded ≤ budget s p := by
  induction built with
  | empty => contradiction
  | next _ _ _ inductionHypothesis =>
      rcases List.mem_append.mp isAssigned with old | new
      · exact inductionHypothesis old
      · rw [List.mem_singleton.mp new] at leads ⊢
        exact isManaged_of_assign leads

/-- The moves of the ranked methods lead where their assignments do. -/
theorem mem_moves (built : Built s ps assigned plan) {move : Move} (member : move ∈ plan.moves) :
    ∃ a ∈ assigned, aim s a.2 a.1.partition ≠ a.1.partition ∧ ∃ rank, move = moveFor s a rank := by
  induction built with
  | empty => contradiction
  | @next assigned plan placed _ _ _ inductionHypothesis =>
      have earlier (old : move ∈ plan.moves) : ∃ a ∈ assigned ++
          [(placed, plan.assign s placed.blob.padded)],
          aim s a.2 a.1.partition ≠ a.1.partition ∧ ∃ rank, move = moveFor s a rank := by
        rcases inductionHypothesis old with ⟨a, isAssigned, moves⟩
        exact ⟨a, List.mem_append_left _ isAssigned, moves⟩
      simp only [rankNext, choose_eq] at member
      split at member
      · exact earlier member
      · rename_i elsewhere
        rcases List.mem_append.mp member with old | new
        · exact earlier old
        · exact ⟨_, List.mem_append_right _ List.mem_cons_self, elsewhere, _,
            List.mem_singleton.mp new⟩

/-- Where an assignment leads elsewhere, there is a move. -/
theorem exists_move (built : Built s ps assigned plan) {a : Placement × Option Partition}
    (isAssigned : a ∈ assigned) (elsewhere : aim s a.2 a.1.partition ≠ a.1.partition) :
    ∃ rank, moveFor s a rank ∈ plan.moves := by
  induction built with
  | empty => contradiction
  | @next assigned plan placed _ _ _ inductionHypothesis =>
      simp only [rankNext, choose_eq]
      rcases List.mem_append.mp isAssigned with old | new
      · rcases inductionHypothesis old with ⟨rank, isMove⟩
        refine ⟨rank, ?_⟩
        split
        · exact isMove
        · exact List.mem_append_left _ isMove
      · rw [List.mem_singleton.mp new] at elsewhere ⊢
        rw [if_neg elsewhere]
        exact ⟨_, List.mem_append_right _ List.mem_cons_self⟩

/-- The bytes assigned to a managed partition stay within its budget. -/
theorem used (built : Built s ps assigned plan) :
    (assignedTo assigned .hot = plan.hotUsed ∧ plan.hotUsed ≤ budget s .hot) ∧
      assignedTo assigned .tmp = plan.tmpUsed ∧ plan.tmpUsed ≤ budget s .tmp := by
  induction built with
  | empty => exact ⟨⟨rfl, Nat.zero_le _⟩, rfl, Nat.zero_le _⟩
  | @next assigned plan placed _ _ _ inductionHypothesis =>
      rcases inductionHypothesis with ⟨⟨hot, hotFits⟩, tmp, tmpFits⟩
      simp only [assignedTo, List.filter_append, List.map_append, List.sum_append] at hot tmp ⊢
      rw [hot, tmp]
      simp only [rankNext, assign]
      split
      · rename_i fits
        simpa using ⟨fits, tmpFits⟩
      · split
        · rename_i fits
          simpa using ⟨hotFits, fits⟩
        · simpa using ⟨hotFits, tmpFits⟩

theorem assignedTo_le (built : Built s ps assigned plan) {p : Partition}
    (managed : p.isManaged = true) : assignedTo assigned p ≤ budget s p := by
  rcases built.used with ⟨⟨hot, hotFits⟩, tmp, tmpFits⟩
  cases p <;> first | contradiction | omega

/-- The assignment of a method that has a rank. -/
theorem lookup_keys (built : Built s ps assigned plan) {a : Placement × Option Partition}
    (isAssigned : a ∈ assigned) : (keys assigned).lookup a.1.method = some a.2 := by
  induction built with
  | empty => contradiction
  | @next assigned plan placed built _ unranked inductionHypothesis =>
      rw [keys, List.map_append, List.lookup_append, ← keys]
      rcases List.mem_append.mp isAssigned with old | new
      · rw [inductionHypothesis old, Option.some_or]
      · rw [List.mem_singleton.mp new]
        rw [← built.keys_eq] at unranked
        rw [lookup_eq_none_iff_keys.mpr unranked, Option.none_or]
        simp

theorem exists_assignment (built : Built s ps assigned plan)
    (nodup : (ps.map Placement.method).Nodup) {p : Placement} (member : p ∈ ps)
    (ranked : p.method ∈ plan.rankedMethods) : ∃ k, (p, k) ∈ assigned := by
  rw [built.rankedMethods_eq] at ranked
  rcases List.mem_map.mp ranked with ⟨a, isAssigned, sameMethod⟩
  have same : a.1 = p :=
    List.inj_on_of_nodup_map nodup (built.installed a isAssigned) member sameMethod
  exact ⟨a.2, by rw [← same]; exact isAssigned⟩

end Built

/-! ## The plan for a ranking -/

/-- Where a method is to be, given the assignments of the ranked methods. -/
def wanted (s : Segmentation) (assigned : List (Placement × Option Partition)) (p : Placement) :
    Partition :=
  aim s ((keys assigned).lookup p.method).join p.partition

theorem wanted_of_assigned (built : Built s ps assigned plan) {p : Placement}
    {k : Option Partition} (isAssigned : (p, k) ∈ assigned) :
    wanted s assigned p = aim s k p.partition := by
  rw [wanted, built.lookup_keys isAssigned]
  rfl

theorem wanted_of_unranked (built : Built s ps assigned plan) {p : Placement}
    (unranked : p.method ∉ plan.rankedMethods) :
    wanted s assigned p = outside s p.partition := by
  rw [← built.keys_eq] at unranked
  rw [wanted, lookup_eq_none_iff_keys.mpr unranked]
  rfl

/-- A method is wanted in a managed partition whose budget it fits, or outside. -/
theorem wanted_cases (built : Built s ps assigned plan) (nodup : (ps.map Placement.method).Nodup)
    {p : Placement} (member : p ∈ ps) :
    ((wanted s assigned p).isManaged = true ∧ p.blob.padded ≤ budget s (wanted s assigned p)) ∨
      wanted s assigned p = outside s p.partition := by
  by_cases ranked : p.method ∈ plan.rankedMethods
  · rcases built.exists_assignment nodup member ranked with ⟨k, isAssigned⟩
    rw [wanted_of_assigned built isAssigned]
    cases k with
    | none => exact Or.inr rfl
    | some q => exact Or.inl (built.isManaged isAssigned rfl)
  · exact Or.inr (wanted_of_unranked built ranked)

theorem Built.nodup (built : Built s ps assigned plan) : (assigned.map Prod.fst).Nodup := by
  have methods : (assigned.map fun a => a.1.method).Nodup := by
    induction built with
    | empty => exact List.nodup_nil
    | @next assigned plan placed built _ unranked inductionHypothesis =>
        rw [built.rankedMethods_eq] at unranked
        rw [List.map_append, List.map_singleton, ← List.concat_eq_append]
        exact inductionHypothesis.concat unranked
  rw [← Function.comp_def Placement.method Prod.fst, ← List.map_map] at methods
  exact .of_map _ methods

/-- The methods that are wanted in a managed partition are those assigned to it. -/
theorem wanted_perm (built : Built s ps assigned plan) (nodup : (ps.map Placement.method).Nodup)
    {p : Partition} (managed : p.isManaged = true) :
    (ps.filter fun q => wanted s assigned q = p).Perm
      ((assigned.filter fun a => a.2 = some p).map Prod.fst) := by
  apply (List.perm_ext_iff_of_nodup (.filter _ (.of_map _ nodup))
    (built.nodup.sublist (List.filter_sublist.map _))).mpr
  intro q
  rw [List.mem_filter, decide_eq_true_iff]
  constructor
  · rintro ⟨member, isWanted⟩
    have stays (outside : wanted s assigned q = Plan.outside s q.partition) : False := by
      rw [← isWanted, outside, isManaged_outside] at managed
      contradiction
    by_cases ranked : q.method ∈ plan.rankedMethods
    · rcases built.exists_assignment nodup member ranked with ⟨k, isAssigned⟩
      have leads := wanted_of_assigned built isAssigned
      cases k with
      | none => exact (stays leads).elim
      | some r =>
          have same : r = p := leads.symm.trans isWanted
          exact List.mem_map_of_mem (List.mem_filter.mpr ⟨isAssigned, by simp [same]⟩)
    · exact (stays (wanted_of_unranked built ranked)).elim
  · intro isMember
    rcases List.mem_map.mp isMember with ⟨⟨r, k⟩, kept, rfl⟩
    rcases List.mem_filter.mp kept with ⟨isAssigned, leads⟩
    refine ⟨built.installed _ isAssigned, ?_⟩
    have isTarget : k = some p := of_decide_eq_true leads
    rw [wanted_of_assigned built isAssigned, isTarget]
    rfl

/-- The capacity of a managed partition suffices for all who are wanted there. -/
theorem wanted_fits (built : Built s ps assigned plan) (nodup : (ps.map Placement.method).Nodup)
    {p : Partition} (managed : p.isManaged = true) :
    ((ps.filter fun q => wanted s assigned q = p).map fun q => q.blob.padded).sum ≤
      s.capacity p := by
  rw [((wanted_perm built nodup managed).map _).sum_nat, List.map_map]
  exact Nat.le_trans (built.assignedTo_le managed) (budget_le_capacity s p)

/-- The moves of a plan are those of the methods that are wanted elsewhere. -/
theorem mem_moves_ofRanking (built : Built s ps assigned (ofRanks s ps ranking)) {move : Move}
    (member : move ∈ (ofRanking s ps ranking).moves) :
    ∃ p ∈ ps, wanted s assigned p ≠ p.partition ∧
      ∃ rank, move = ⟨p.method, p.partition, wanted s assigned p, rank⟩ := by
  rw [moves_ofRanking] at member
  rcases List.mem_append.mp member with evicted | ranked
  · rcases mem_evictions.mp evicted with ⟨p, isPlacement, managed, unranked, rfl⟩
    have leaves : wanted s assigned p = s.fallback := by
      rw [wanted_of_unranked built unranked, outside, if_pos managed]
    refine ⟨p, isPlacement, ?_, none, by rw [leaves]⟩
    intro stays
    rw [← stays, leaves, isManaged_fallback] at managed
    contradiction
  · rcases built.mem_moves ranked with ⟨a, isAssigned, elsewhere, rank, rfl⟩
    have leads := wanted_of_assigned built (p := a.1) (k := a.2) isAssigned
    exact ⟨a.1, built.installed a isAssigned, by rw [leads]; exact elsewhere, rank,
      by rw [leads]; rfl⟩

theorem exists_move_ofRanking (nodup : (ps.map Placement.method).Nodup)
    (built : Built s ps assigned (ofRanks s ps ranking)) {p : Placement} (member : p ∈ ps)
    (elsewhere : wanted s assigned p ≠ p.partition) :
    ∃ rank, ⟨p.method, p.partition, wanted s assigned p, rank⟩ ∈
      (ofRanking s ps ranking).moves := by
  rw [moves_ofRanking]
  by_cases ranked : p.method ∈ (ofRanks s ps ranking).rankedMethods
  · rcases built.exists_assignment nodup member ranked with ⟨k, isAssigned⟩
    rw [wanted_of_assigned built isAssigned] at elsewhere ⊢
    rcases built.exists_move isAssigned elsewhere with ⟨rank, isMove⟩
    exact ⟨rank, List.mem_append_right _ isMove⟩
  · rw [wanted_of_unranked built ranked] at elsewhere ⊢
    unfold outside at elsewhere ⊢
    split at elsewhere
    · rename_i managed
      rw [if_pos managed]
      exact ⟨none, List.mem_append_left _ (mem_evictions.mpr ⟨p, member, managed, ranked, rfl⟩)⟩
    · contradiction

/-- The plan brings every method where it is wanted. -/
theorem destination_eq (nodup : (ps.map Placement.method).Nodup)
    (built : Built s ps assigned (ofRanks s ps ranking)) {p : Placement} (member : p ∈ ps) :
    (ofRanking s ps ranking).destination p = wanted s assigned p := by
  rw [destination]
  cases planned : (ofRanking s ps ranking).targetOf p.method with
  | none =>
      apply Eq.symm
      apply Decidable.byContradiction
      intro elsewhere
      rcases exists_move_ofRanking nodup built member elsewhere with ⟨rank, isMove⟩
      have isPlanned := targetOf_of_mem (moves_nodup nodup s ranking) isMove
      rw [planned] at isPlanned
      contradiction
  | some target =>
      rcases Option.map_eq_some_iff.mp planned with ⟨move, found, rfl⟩
      have sameMethod : move.method = p.method := by simpa using List.find?_some found
      rcases mem_moves_ofRanking built (List.mem_of_find?_eq_some found) with
        ⟨q, isPlacement, _, rank, rfl⟩
      rw [List.inj_on_of_nodup_map nodup isPlacement member sameMethod]
      rfl

end CodeLayout.Plan
